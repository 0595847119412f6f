import BlockEngine.Proofs.Limits

/-!
# Rules for what executions change

* `Execution.Obeys` : every change that an execution makes, whatever it is answered, obeys a rule;
* `Execution.Ends` : every end of an execution, whatever it is answered, is as stated;
* `BlockRule` : a rule that allows whatever blocks change;
* `Limits.ofRule` : the limits that a rule sets for changes, and that suit every block;
* `Engine.Obeys` : all registered blocks obey a rule; `Engine.obeys_of_core`;
* `CallerRule` : a rule that allows whatever callers change as well; one lemma for each call;
* `Execution.Obeys.step`, `Execution.Ends.step` : what a step leaves is as before.
-/

namespace BlockEngine

variable {α β : Type}

/-! ## All changes, all ends -/

namespace Execution

/-- Every change that an execution makes obeys a rule. What it evaluates, runs and signals makes
changes of its own. -/
def Obeys (R : World → World → Prop) : Execution α → Prop
  | .done _ => True
  | .act f k => ∀ w, R w (f w) ∧ (k w).Obeys R
  | .pause _ k => ∀ r, (k r).Obeys R
  | .signal _ _ k => ∀ n, (k n).Obeys R
  | .evaluate _ k => ∀ r, (k r).Obeys R
  | .run _ k => ∀ r, (k r).Obeys R

/-- Every end of an execution is as stated. -/
def Ends (P : α → Prop) : Execution α → Prop
  | .done a => P a
  | .act _ k => ∀ w, (k w).Ends P
  | .pause _ k => ∀ r, (k r).Ends P
  | .signal _ _ k => ∀ n, (k n).Ends P
  | .evaluate _ k => ∀ r, (k r).Ends P
  | .run _ k => ∀ r, (k r).Ends P

variable {R R' : World → World → Prop} {p : Execution α} {k : α → Execution β}

theorem Obeys.bind (h : p.Obeys R) (hk : ∀ a, (k a).Obeys R) : (p.bind k).Obeys R := by
  induction p with
  | done a => exact hk a
  | act f g ih => exact fun w => ⟨(h w).1, ih w (h w).2⟩
  | pause c g ih => exact fun r => ih r (h r)
  | signal l v g ih => exact fun n => ih n (h n)
  | evaluate s g ih => exact fun r => ih r (h r)
  | run r g ih => exact fun x => ih x (h x)

theorem Obeys.mono (h : p.Obeys R) (hR : ∀ w w', R w w' → R' w w') : p.Obeys R' := by
  induction p with
  | done a => trivial
  | act f g ih => exact fun w => ⟨hR w _ (h w).1, ih w (h w).2⟩
  | pause c g ih => exact fun r => ih r (h r)
  | signal l v g ih => exact fun n => ih n (h n)
  | evaluate s g ih => exact fun r => ih r (h r)
  | run r g ih => exact fun x => ih x (h x)

theorem Obeys.atomically {f : World → α × World} (h : ∀ w, R w (f w).2) :
    (Execution.atomically f).Obeys R := fun w => ⟨h w, trivial⟩

theorem Obeys.change {f : World → World} (h : ∀ w, R w (f w)) : (Execution.change f).Obeys R :=
  fun w => ⟨h w, trivial⟩

theorem Ends.bind {P : α → Prop} {Q : β → Prop} (h : p.Ends P) (hk : ∀ a, P a → (k a).Ends Q) :
    (p.bind k).Ends Q := by
  induction p with
  | done a => exact hk a h
  | act f g ih => exact fun w => ih w (h w)
  | pause c g ih => exact fun r => ih r (h r)
  | signal l v g ih => exact fun n => ih n (h n)
  | evaluate s g ih => exact fun r => ih r (h r)
  | run r g ih => exact fun x => ih x (h x)

theorem Ends.anything (p : Execution α) : p.Ends fun _ => True := by
  induction p with
  | done a => trivial
  | act f g ih => exact ih
  | pause c g ih => exact ih
  | signal l v g ih => exact ih
  | evaluate s g ih => exact ih
  | run r g ih => exact ih

/-- Every end is an end of what comes last. -/
theorem Ends.andThen {Q : β → Prop} (p : Execution α) (hk : ∀ a, (k a).Ends Q) :
    (p.bind k).Ends Q := (anything p).bind fun a _ => hk a

end Execution

/-- An attempt ends with an error of its first part, or as what comes last. -/
theorem Attempt.ends_bind {ε : Type} {a : ExceptT ε Execution α} {k : α → ExceptT ε Execution β}
    {P : Except ε β → Prop} (herror : ∀ err, P (.error err))
    (hk : ∀ x, (ExceptT.run (k x)).Ends P) : (ExceptT.run (a >>= k)).Ends P :=
  .andThen (ExceptT.run a) fun r => by
    cases r with
    | ok x => exact hk x
    | error err => exact herror err

/-! ## Rules that blocks obey -/

/-- A rule that allows whatever the code of blocks changes: it may draw numbers, store values, start
tasks, take part in locks, write variables and tell the person who runs the engine. -/
class BlockRule (R : World → World → Prop) : Prop where
  refl (w : World) : R w w
  trans {w₁ w₂ w₃ : World} : R w₁ w₂ → R w₂ w₃ → R w₁ w₃
  fresh (w : World) : R w w.fresh.2
  modifyGeneration (w : World) (n : Nat) (f : GenerationState → GenerationState) :
    R w (w.modifyGeneration n f)
  newTask (w : World) (j : Job) : R w (w.newTask j).2
  withLocks {ρ : Type} (w : World) (f : LockTable Reaction → ρ × LockTable Reaction) :
    R w (w.withLocks f).2
  wake (w : World) (t : TaskId) : R w (w.wake t)
  /-- A task is queued, asked to end or observed. -/
  modifyTask (w : World) (t : TaskId) (f : TaskRecord → TaskRecord) :
    (∀ r, (f r).job = r.job ∧ (f r).ended = r.ended) → R w (w.modifyTask t f)
  vars (w : World) (vs : Variables) : R w { w with vars := vs }
  notifications (w : World) (ns : Notifications) : R w { w with notifications := ns }
  note (w : World) (name : String) (v : Json) : R w (w.note name v)
  /-- A pause is answered. -/
  settle (w : World) (t : TaskId) (p : Pause) : R w (w.settle t p)

namespace BlockRule

variable {R : World → World → Prop} [BlockRule R]

theorem spawn (w : World) (n : Nat) (d : String) (c : Context) (j : Job) :
    R w (w.spawn n d c j).2 := by
  unfold World.spawn
  split
  · exact refl w
  · exact trans (newTask w j) (modifyGeneration ..)

theorem wakeAll (w : World) (ts : List TaskId) : R w (w.wakeAll ts) := by
  unfold World.wakeAll
  induction ts generalizing w with
  | nil => exact refl w
  | cons t ts ih => exact trans (wake w t) (ih _)

theorem deliver (w : World) (l : LockId) (v : Json) : R w (w.deliver l v).2 :=
  have h : R w (w.withLocks (·.deliver l v)).2 := withLocks w _
  trans h (wakeAll _ _)

theorem releaseLocks (w : World) (tab : String) : R w (w.releaseLocks tab) :=
  have h : R w (w.withLocks (·.release tab)).2 := withLocks w _
  trans h (wakeAll _ _)

end BlockRule

/-- An attempt, or a request, every change of which obeys a rule. -/
def Attempt.Obeys {ε : Type} (R : World → World → Prop) (a : ExceptT ε Execution α) : Prop :=
  Execution.Obeys R (ExceptT.run a)

section

variable {R : World → World → Prop}

namespace Attempt.Obeys

variable {ε : Type} {a : ExceptT ε Execution α}

theorem pure (x : α) : Obeys R (pure x : ExceptT ε Execution α) := trivial

theorem throw (err : ε) : Obeys R (throw err : ExceptT ε Execution α) := trivial

theorem ofExcept (x : Except EngineError α) : Obeys R (Attempt.ofExcept x) := trivial

theorem bind (h : Obeys R a) {k : α → ExceptT ε Execution β} (hk : ∀ x, Obeys R (k x)) :
    Obeys R (a >>= k) := by
  refine Execution.Obeys.bind h fun r => ?_
  cases r with
  | ok x => exact hk x
  | error err => trivial

theorem lift {p : Execution α} (h : p.Obeys R) :
    Obeys R (monadLift p : ExceptT ε Execution α) :=
  Execution.Obeys.bind h fun _ => trivial

end Attempt.Obeys

theorem Execution.Obeys.afterTurn {k : Except EngineError Signal → Execution α}
    (hk : ∀ r, (k r).Obeys R) (x : Except EngineError Turned) :
    (Engine.afterTurn k x).Obeys R := by
  cases x with
  | ok y =>
    cases y with
    | again r => exact hk
    | «over» s => exact hk _
  | error err => exact hk _

variable [BlockRule R]

namespace Execution.Obeys

theorem look : look.Obeys R := fun w => ⟨BlockRule.refl w, trivial⟩

end Execution.Obeys

/-! ## The core library -/

/-- A handler every change of which obeys a rule. -/
def StatementHandler.Obeys (R : World → World → Prop) (run : StatementHandler) : Prop :=
  ∀ env s, Attempt.Obeys R (run env s)

def ExpressionHandler.Obeys (R : World → World → Prop) (run : ExpressionHandler) : Prop :=
  ∀ env s, Attempt.Obeys R (run env s)

def Behaviour.Obeys (R : World → World → Prop) : Behaviour StatementHandler ExpressionHandler → Prop
  | .command run | .hat run => StatementHandler.Obeys R run
  | .reporter run => ExpressionHandler.Obeys R run

/-- An engine all of whose registered blocks obey a rule. -/
def Engine.Obeys (e : Engine) (R : World → World → Prop) : Prop :=
  ∀ o b, e.registry.lookup o = .ok b → b.behaviour.Obeys R

/-- The limits that a rule sets for changes, and for nothing else. -/
def Limits.ofRule (R : World → World → Prop) : Limits where
  Fits _ := True
  Allows := R
  Signals _ := True
  Evaluates _ := True
  Runs _ := True
  Exempts _ := False

omit [BlockRule R] in
theorem Execution.Obeys.within {p : Execution α} (h : p.Obeys R) : p.Within (.ofRule R) := by
  induction p with
  | done a => exact .done a
  | act f k ih => exact .act (fun w _ _ => (h w).1) fun w _ _ => ih w (h w).2
  | pause c k ih => exact .pause fun r => ih r (h r)
  | signal l v k ih => exact .signal trivial fun n => ih n (h n)
  | evaluate s k ih => exact .evaluate trivial fun r => ih r (h r)
  | run r k ih => exact .run trivial fun x => ih x (h x)

omit [BlockRule R] in
theorem Execution.Obeys.of_within {p : Execution α} (h : p.Within (.ofRule R)) : p.Obeys R := by
  induction h with
  | ends => trivial
  | act hf _ ih => exact fun w => ⟨hf w trivial trivial, ih w trivial trivial⟩
  | pause _ ih => exact ih
  | signal _ _ ih => exact ih
  | evaluate _ _ ih => exact ih
  | run _ _ ih => exact ih
  | exempt hp => exact hp.elim

instance : BlockLimits (Limits.ofRule R) where
  refl := BlockRule.refl (R := R)
  trans := BlockRule.trans (R := R)
  fresh := BlockRule.fresh (R := R)
  modifyGeneration := BlockRule.modifyGeneration (R := R)
  newTask w j _ := BlockRule.newTask (R := R) w j
  obtain w _ _ _ := BlockRule.withLocks (R := R) w _
  register w _ _ := BlockRule.withLocks (R := R) w _
  close w m := BlockRule.withLocks (R := R) w fun t => ((), t.close m)
  deliver w _ _ := BlockRule.withLocks (R := R) w _
  wake := BlockRule.wake (R := R)
  modifyTask := BlockRule.modifyTask (R := R)
  notifications := BlockRule.notifications (R := R)
  settle := BlockRule.settle (R := R)
  evaluates _ := trivial
  runs _ := trivial
  watches _ := ⟨trivial, fun _ => trivial⟩

omit [BlockRule R] in
theorem Limits.opens_ofRule (key : LockKey) : (Limits.ofRule R).Opens key :=
  ⟨fun _ _ _ _ _ => trivial, fun _ _ _ _ => trivial, fun _ _ _ _ _ => trivial⟩

/-- A rule for blocks suits every block. -/
theorem Limits.suits_ofRule (s : Site) (o : Opcode) : (Limits.ofRule R).Suits s o := by
  have hwrite : ∀ id v, (Execution.writeVariable id v).Within (Limits.ofRule R) := fun id =>
    .writeVariable (opens_ofRule _) fun w _ => BlockRule.vars (R := R) w _
  exact {
    keeps := .setValue s.generation (opens_ofRule _) valueKey
    sets := fun _ => hwrite _
    adds := fun _ _ => .look_bind fun _ _ => (hwrite _ _).bind fun _ => .done ()
    listens := fun _ r _ w _ _ => .change fun w _ _ =>
      BlockRule.trans (R := R) (BlockRule.withLocks w (·.subscribe _ .all r))
        (BlockRule.modifyGeneration _ s.generation.number _)
    sends := fun _ _ => opens_ofRule _
    calls := fun _ _ => opens_ofRule _
    watches := fun _ _ _ _ _ _ => .atomically fun w _ _ =>
      BlockRule.trans (R := R) (BlockRule.fresh w) (BlockRule.spawn ..) }

/-- Every block of the core library obeys a rule that allows what blocks change. -/
theorem Engine.obeys_of_core {e : Engine} (he : e.HasCore) : e.Obeys R := fun o b hb => by
  obtain ⟨x, hx, hmem, ho⟩ := he.opcode_of_lookup hb
  have hwithin : ∀ env s, b.behaviour.WithinAt (Limits.ofRule R) env s := fun env s =>
    Library.withinAt_of_mem_core env (Limits.suits_ofRule s o) hx hmem ho
  cases hk : b.behaviour with
  | command run | hat run | reporter run =>
    simp only [hk] at hwithin
    exact fun env s => .of_within (hwithin env s)

/-! ## The interpreter -/

namespace Engine

variable {e : Engine}

theorem Obeys.withinAt (he : e.Obeys R) (s : Site) : e.WithinAt (.ofRule R) s where
  handler b hb := by
    have hobeys := he _ _ (registered_of_lookup hb)
    cases hk : b.behaviour with
    | command run | hat run | reporter run =>
      rw [hk] at hobeys
      exact Execution.Obeys.within (hobeys e.environment s)
  keeps := (Limits.suits_ofRule s s.block.opcode).keeps

theorem obeys_evaluation (he : e.Obeys R) (s : Site) : Attempt.Obeys R (e.evaluation s) :=
  .of_within (within_evaluation (he.withinAt s))

theorem obeys_turn (he : e.Obeys R) (r : Routine) : Attempt.Obeys R (e.turn r) :=
  .of_within (Execution.Leads.within (turns_turn trivial fun _ s _ _ => he.withinAt s))

theorem obeys_hostAct (v : Json) (act : HostAct) : (hostAct v act).Obeys R := by
  cases act with
  | nothing => trivial
  | signal tab key value =>
    refine .bind (Execution.Obeys.look.bind fun w => ?_) fun _ => trivial
    split
    · exact fun _ => trivial
    · trivial
  | write id value =>
    refine .bind (.of_within ?_) fun _ => trivial
    exact .writeVariable (Limits.opens_ofRule _) (fun w _ => BlockRule.vars (R := R) w _) _
  | unsubscribe name =>
    refine .change fun w => ?_
    split
    · exact BlockRule.withLocks w _
    · exact BlockRule.refl w
  | release tab => exact .change fun w => BlockRule.releaseLocks w tab

theorem obeys_react (v : Json) (r : Reaction) : (e.react v r).Obeys R := by
  by_cases hhost : ∃ name act, r = .host name act
  · obtain ⟨name, act, rfl⟩ := hhost
    exact (Execution.Obeys.change fun w => BlockRule.note w name v).bind fun _ =>
      obeys_hostAct v act
  · refine .of_within (within_react (fun s _ => (Limits.suits_ofRule s s.block.opcode).keeps)
      (fun id _ _ => ?_) (fun name act h => hhost ⟨name, act, h⟩) v)
    exact .writeVariable (Limits.opens_ofRule _) fun w _ => BlockRule.vars (R := R) w _

theorem obeys_reactAll (v : Json) (rs : List Reaction) : (e.reactAll v rs).Obeys R :=
  .of_within (within_reactAll fun r _ => (obeys_react v r).within)

/-- The work of every task obeys the rule. -/
theorem obeys_work (j : Job) : (e.work j).Obeys R :=
  .of_within (within_work (fun s _ _ _ _ => ⟨(Limits.suits_ofRule s s.block.opcode).keeps, trivial⟩)
    fun _ _ _ _ _ => trivial)

end Engine

/-! ## Steps -/

variable {e : Engine} {t : TaskId} {w w' : World} {p q : Execution α}

/-- Blocks obey a rule that allows what they change, and an execution one that allows more. Then a
step obeys the latter, and so does what it leaves. -/
theorem Execution.Obeys.step {R' : World → World → Prop} (he : e.Obeys R)
    (hR : ∀ w w', R w w' → R' w w') (hp : p.Obeys R') (hstep : e.step t w p = some (q, w')) :
    R' w w' ∧ q.Obeys R' := by
  cases p with
  | done a => cases hstep
  | act f k =>
    obtain ⟨rfl, rfl⟩ := Prod.mk.inj (Option.some.inj hstep)
    exact hp w
  | pause c k =>
    obtain ⟨r, -, rfl, rfl⟩ := Engine.step_pause hstep
    exact ⟨hR _ _ (BlockRule.settle w t c), hp r⟩
  | signal l v k =>
    rw [Engine.step_signal] at hstep
    obtain ⟨rfl, rfl⟩ := Prod.mk.inj (Option.some.inj hstep)
    exact ⟨hR _ _ (BlockRule.deliver w l v),
      ((Engine.obeys_reactAll v _).mono hR).bind fun _ => hp _⟩
  | evaluate s k =>
    obtain ⟨rfl, rfl⟩ := Prod.mk.inj (Option.some.inj hstep)
    exact ⟨hR _ _ (BlockRule.refl w),
      ((Engine.obeys_evaluation he s : Execution.Obeys R _).mono hR).bind hp⟩
  | run r k =>
    obtain ⟨rfl, rfl⟩ := Prod.mk.inj (Option.some.inj hstep)
    exact ⟨hR _ _ (BlockRule.refl w),
      ((Engine.obeys_turn he r : Execution.Obeys R _).mono hR).bind (.afterTurn hp)⟩

/-- What steps leave obeys the rule. -/
theorem Execution.Obeys.replay {R' : World → World → Prop} (he : e.Obeys R)
    (hR : ∀ w w', R w w' → R' w w') (hp : p.Obeys R') {ws : List World}
    (h : e.replay t p ws = some q) : q.Obeys R' := by
  induction ws generalizing p with
  | nil => exact Option.some.inj h ▸ hp
  | cons w ws ih =>
    obtain ⟨⟨q', w'⟩, hstep, hrest⟩ := Option.bind_eq_some_iff.1 h
    exact ih (hp.step he hR hstep).2 hrest

end

/-! ## Rules that calls obey -/

instance {R : World → World → Prop} [BlockRule R] : CallerLimits (Limits.ofRule R) where
  release w _ := BlockRule.withLocks (R := R) w _
  releaseAll w := BlockRule.withLocks (R := R) w _
  unsubscribe w _ _ := BlockRule.withLocks (R := R) w _
  note := BlockRule.note (R := R)
  declare w _ _ _ := BlockRule.vars (R := R) w _
  once _ := trivial

/-- A rule that allows whatever callers change as well: they make generations, change the tabs and
pass on the turn. -/
class CallerRule (R : World → World → Prop) : Prop extends BlockRule R where
  newGeneration (w : World) (tab tabName : String) (graph : Graph) :
    R w (w.newGeneration tab tabName graph).2
  tabs (w : World) (tabs : Keyed TabEntry) : R w { w with tabs }
  turn (w : World) (turn : Turn) : R w { w with turn }

instance {R : World → World → Prop} [CallerRule R] : SupervisorLimits (Limits.ofRule R) where
  newGeneration := CallerRule.newGeneration (R := R)
  tabs := CallerRule.tabs (R := R)
  turn := CallerRule.turn (R := R)

namespace Supervisor

variable {R : World → World → Prop} {e : Engine}

theorem obeys_alone (hR : ∀ w, R w w.passTurn) {p : Execution α} (hp : p.Obeys R) :
    (alone p).Obeys R := .of_within (within_alone hR hp.within)

theorem obeys_teardown [BlockRule R] (id : String) (g : Option Generation) :
    (teardown id g).Obeys R := .of_within (within_teardown id g)

theorem obeys_teardownAll [BlockRule R] (tabs : List (String × TabEntry)) :
    (teardownAll tabs).Obeys R := .of_within (within_teardownAll tabs)

theorem obeys_start [BlockRule R]
    (hnew : ∀ w id name graph, R w (World.newGeneration w id name graph).2)
    (id name content : String) : Attempt.Obeys R (start e id name content) :=
  .of_within (within_start (L := .ofRule R) hnew id name content)

end Supervisor

/-- Every call obeys a rule that allows what callers change. -/
theorem CallerRule.obeys_execution {R : World → World → Prop} [CallerRule R] {e : Engine}
    (c : Call) : (c.execution e).Obeys R := .of_within (Supervisor.within_execution c)

/-! ## Ends -/

/-- What a step leaves has no other ends. -/
theorem Execution.Ends.step {P : α → Prop} {e : Engine} {t : TaskId} {w w' : World}
    {p q : Execution α} (hp : p.Ends P) (hstep : e.step t w p = some (q, w')) : q.Ends P := by
  cases p with
  | done a => cases hstep
  | act f k =>
    obtain ⟨rfl, rfl⟩ := Prod.mk.inj (Option.some.inj hstep)
    exact hp w
  | pause c k =>
    obtain ⟨r, -, rfl, rfl⟩ := Engine.step_pause hstep
    exact hp r
  | signal l v k =>
    rw [Engine.step_signal] at hstep
    obtain ⟨rfl, rfl⟩ := Prod.mk.inj (Option.some.inj hstep)
    exact .andThen _ fun _ => hp _
  | evaluate s k =>
    obtain ⟨rfl, rfl⟩ := Prod.mk.inj (Option.some.inj hstep)
    exact .andThen _ hp
  | run r k =>
    obtain ⟨rfl, rfl⟩ := Prod.mk.inj (Option.some.inj hstep)
    refine .andThen _ fun x => ?_
    cases x with
    | ok y =>
      cases y with
      | again r => exact hp
      | «over» s => exact hp _
    | error err => exact hp _

/-- An execution comes to no other end. -/
theorem Execution.Ends.replay {P : α → Prop} {e : Engine} {t : TaskId} {p q : Execution α}
    {ws : List World} (hp : p.Ends P) (h : e.replay t p ws = some q) : q.Ends P := by
  induction ws generalizing p with
  | nil => exact Option.some.inj h ▸ hp
  | cons w ws ih =>
    obtain ⟨⟨q', w'⟩, hstep, hrest⟩ := Option.bind_eq_some_iff.1 h
    exact ih (hp.step hstep) hrest

end BlockEngine
