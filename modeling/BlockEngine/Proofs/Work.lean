import BlockEngine.Proofs.Handlers

/-!
# Routines, reactions and tasks

* `Turned.Coherent`, `Plays.turn` : every turn of a routine conducts itself;
* `Does.react`, `Does.reactAll` : so do the reactions to a lock that does not belong to a procedure;
* `Does.work`, `Does.bodyStatements` : and the work of a task, the body of a procedure between its
  arguments and its reply.
-/

namespace BlockEngine

variable {α : Type} {e : Engine} {t : TaskId} {γ : Stage} {v v' : View}

/-- A block that is found is registered. -/
theorem Engine.lookup_eq_ok {s : Site}
    {b : BlockSpec StatementHandler ExpressionHandler} (hb : e.lookup s = .ok b) :
    e.registry.lookup s.block.opcode = .ok b := by
  unfold Engine.lookup at hb
  cases hl : e.registry.lookup s.block.opcode with
  | ok b' => rw [hl] at hb; exact hb
  | error err => rw [hl] at hb; cases hb

theorem Engine.Orderly.lookup (he : e.Orderly) {s : Site}
    {b : BlockSpec StatementHandler ExpressionHandler} (h : e.lookup s = .ok b) :
    b.behaviour.Orderly e := he _ _ (lookup_eq_ok h)

/-- What is left after a turn is about the same generation. -/
def Turned.Coherent (v : View) (g : Generation) : Turned → Prop
  | .again r => r.Coherent v g
  | .over _ => True

/-- The body of a procedure, once its arguments are kept. -/
def Engine.bodyStatements (e : Engine) (s : Site) : Execution (Except EngineError Signal) :=
  match s.next? e.settings.maxDepth with
  | some first => ExceptT.run (Attempt.handle first)
  | none => .done (.ok .proceed)

/-- First a body keeps its arguments. -/
theorem Engine.bodyChain_eq (e : Engine) (s : Site) (arguments : List (String × String))
    (request : Json) : e.bodyChain s arguments request =
      (Engine.keepArguments s request arguments).bind fun _ => e.bodyStatements s := rfl

namespace Does

theorem awaitSignal {tab : String} {l : LockId} (h : v.IsPlain tab l) (ms : Nat) :
    Does e t γ v (Execution.awaitSignal l ms) anything := by
  unfold Does
  rw [← Execution.bind_done (Execution.awaitSignal l ms)]
  exact .doze h fun _ _ hle => .done ⟨rfl, hle, trivial⟩

theorem report (tab : String) (err : EngineError) :
    Does e t γ v (Execution.change fun w => w.report tab err) anything := by
  refine change fun w _ _ => ?_
  have hview : (w.report tab err).view = w.view := by
    unfold World.report
    split <;> rfl
  rw [hview]
  exact .idle

end Does

namespace Plays

variable {s : Site} {P : View → Turned → Prop}

theorem conclude {a : Attempt Signal} (h : Plays e t γ v a anything) (s : Site) :
    Does e t γ v (Attempt.conclude s a) anything := by
  refine Does.bind h fun v' r _ _ => ?_
  cases r with
  | ok x => exact Does.pure trivial
  | error err => exact .report ..

theorem evaluation (he : e.Orderly) (hs : s.AtHome γ v) :
    Plays e t γ v (e.evaluation s) anything := by
  refine bind (P := fun _ b => b.behaviour.Orderly e) (ofExcept fun b hb => he.lookup hb)
    fun v₁ b hle hb => ?_
  refine andThen (P := anything) (annotated ?_) fun v₂ x _ =>
    andThen (exec (.keep s (.inl rfl) x)) fun _ _ _ => pure trivial
  have hs₁ := hs.mono hle
  cases hk : b.behaviour with
  | reporter run =>
    rw [hk] at hb
    exact hb t γ v₁ s hs₁
  | command run =>
    rw [hk] at hb
    exact andThen (hb t γ v₁ s hs₁) fun _ _ _ => pure trivial
  | hat run =>
    rw [hk] at hb
    exact andThen (hb t γ v₁ s hs₁) fun _ _ _ => pure trivial

theorem handleOrEvaluate (hs : s.AtHome γ v) : Plays e t γ v (e.handleOrEvaluate s) anything := by
  unfold Engine.handleOrEvaluate
  split
  · exact andThen (evaluate hs) fun _ _ _ => pure trivial
  · exact handle hs

/-! ## Turns -/

theorem chainTurn (he : e.Orderly) (hs : s.AtHome γ v) (visited : List String) :
    Plays e t γ v (e.chainTurn visited s) fun v' x => x.Coherent v' s.generation := by
  unfold Engine.chainTurn
  split
  · exact pure trivial
  · refine bind (P := fun _ b => b.behaviour.Orderly e) (ofExcept fun b hb => he.lookup hb)
      fun v₁ b hle hb => ?_
    have hs₁ := hs.mono hle
    cases hk : b.behaviour with
    | command run =>
      rw [hk] at hb
      refine andThen (annotated (hb t γ v₁ s hs₁)) fun v₂ x _ => ?_
      cases x with
      | stop => exact pure trivial
      | proceed =>
        cases hn : s.next? e.settings.maxDepth with
        | none => exact pure trivial
        | some next => exact pure (Site.generation_next? hn)
    | hat run =>
      rw [hk] at hb
      exact andThen (annotated (hb t γ v₁ s hs₁)) fun _ _ _ => pure trivial
    | reporter run =>
      rw [hk] at hb
      exact andThen (annotated (hb t γ v₁ s hs₁)) fun _ x _ =>
        andThen (exec (.keep s (.inl rfl) x)) fun _ _ _ => pure trivial

theorem goesOn {l : Loop} (hs : l.site.AtHome γ v) : Plays e t γ v (e.goesOn l) anything := by
  unfold Engine.goesOn
  split
  · exact inputBool hs _
  · exact pure trivial

theorem loopTurn {l : Loop} {g : Generation} (hhome : γ.home = some g) (hg : v.Known g)
    (hsite : l.site.generation = g) (hbody : l.body.generation = g) (index : Nat) :
    Plays e t γ v (e.loopTurn l index) fun v' x => x.Coherent v' g := by
  have hs : l.site.AtHome γ v := ⟨hsite ▸ hhome, hsite ▸ hg⟩
  have hb : l.body.AtHome γ v := ⟨hbody ▸ hhome, hbody ▸ hg⟩
  have hpause : ∀ v', Plays e t γ v' (Engine.loopTurn.pauseAndGo l index)
      fun v' x => x.Coherent v' g := fun v' =>
    andThen (exec (.sleep _)) fun _ _ _ => pure ⟨hsite, hbody⟩
  refine andThen (exec (.keep _ (.inr rfl) _)) fun v₁ _ hle => ?_
  refine andThen (goesOn (hs.mono hle)) fun v₂ _ hle' => ?_
  split
  · exact pure trivial
  · refine andThen (handle (hb.mono (View.le_trans hle hle'))) fun v₃ x _ => ?_
    cases x with
    | stop => exact pure trivial
    | proceed =>
      cases l.rule with
      | times n =>
        simp only
        split
        · exact pure trivial
        · exact hpause v₃
      | forever => exact hpause v₃
      | whileCondition => exact hpause v₃

theorem waitTurn {lock : LockId} (hs : s.AtHome γ v) (hl : v.IsPlain s.generation.tab lock) :
    Plays e t γ v (e.waitTurn s lock) fun v' x => x.Coherent v' s.generation := by
  refine andThen (inputBool hs _) fun v₁ holds hle => ?_
  split
  · exact pure trivial
  · refine andThen (exec (.awaitSignal (hl.mono hle) _)) fun v₂ d hle' => ?_
    have hl₂ := hl.mono (View.le_trans hle hle')
    rcases d with _ | ⟨x⟩ | _
    · exact pure ⟨rfl, hl₂⟩
    · exact pure ⟨rfl, hl₂⟩
    · exact throw _

theorem observe (hs : s.AtHome γ v) (input : String) (kind : WatchKind) :
    Plays e t γ v (e.observe s input kind) anything := by
  cases kind with
  | value => exact inputValue hs input
  | condition => exact andThen (inputBool hs input) fun _ _ _ => pure trivial

theorem watchTurn {lock : LockId} (hs : s.AtHome γ v) (hl : v.IsPlain s.generation.tab lock)
    (input : String) (kind : WatchKind) (last : Option Json) :
    Plays e t γ v (e.watchTurn s lock input kind last)
      fun v' x => x.Coherent v' s.generation := by
  refine andThen look fun v₁ w hle => ?_
  split
  · exact pure trivial
  · refine andThen (observe (hs.mono hle) input kind) fun v₂ now hle' => ?_
    have hl₂ := hl.mono (View.le_trans hle hle')
    simp only
    split
    · refine andThen (exec (.signalLock hl₂ _)) fun v₃ _ hle₃ => ?_
      exact andThen (exec (.sleep _)) fun v₄ _ hle₄ =>
        pure ⟨rfl, hl₂.mono (View.le_trans hle₃ hle₄)⟩
    · exact andThen (exec (.sleep _)) fun v₃ _ hle₃ => pure ⟨rfl, hl₂.mono hle₃⟩

/-- Every turn of a routine. -/
theorem turn (he : e.Orderly) {g : Generation} {r : Routine} (hhome : γ.home = some g)
    (hg : v.Known g) (hr : r.Coherent v g) :
    Plays e t γ v (e.turn r) fun v' x => x.Coherent v' g := by
  cases r with
  | chain visited s =>
    obtain rfl : s.generation = g := hr
    exact chainTurn he ⟨hhome, hg⟩ visited
  | loop l index => exact loopTurn hhome hg hr.1 hr.2 index
  | waitUntil s lock =>
    obtain ⟨rfl, hl⟩ : s.generation = g ∧ _ := hr
    exact waitTurn ⟨hhome, hg⟩ hl
  | watch s lock input kind last =>
    obtain ⟨rfl, hl⟩ : s.generation = g ∧ _ := hr
    exact watchTurn ⟨hhome, hg⟩ hl input kind last

end Plays

/-! ## Reactions -/

/-- No reaction to a plain lock runs the body of a procedure. -/
theorem Reaction.Coherent.ne_runBody {env : Environment} {tab : String} {l : LockId}
    {d : Site} {arguments : List (String × String)} {returns : LockId} (h : v.IsPlain tab l) :
    ¬ Reaction.Coherent env v l (.runBody d arguments returns) := by
  rintro ⟨signature, m, -, -, -, x, y, hx, -, -, -, hkey, -⟩
  obtain ⟨x', hx', -, hplain⟩ := h
  obtain rfl : x' = x := Option.some.inj (hx'.symm.trans hx)
  exact procedure_not_plain signature (hkey ▸ hplain)

namespace Does

variable {l : LockId} {tab : String}

theorem react {r : Reaction} (hr : r.Coherent e.environment v l) (hl : v.IsPlain tab l)
    (x : Json) : Does e t γ v (e.react x r) anything := by
  cases r with
  | start hat => exact bind (spawnNext hr.1 _) fun _ _ _ _ => pure trivial
  | keepAndStart hat =>
    exact bind (keep _ (.inl rfl) _) fun _ _ hle _ =>
      bind (spawnNext (hr.1.mono hle) _) fun _ _ _ _ => pure trivial
  | keepAndStartIf hat operator =>
    refine bind (keep _ (.inl rfl) _) fun v₁ _ hle _ => ?_
    cases hn : hat.next? e.settings.maxDepth with
    | none => exact pure trivial
    | some next =>
      have hg : next.generation = hat.generation := Site.generation_next? hn
      refine bind (spawnIn (fun _ => rfl) ?_ ?_ fun _ => rfl) fun _ _ _ _ => pure trivial
      · exact fun _ => ⟨hr.1.mono hle, hg⟩
      · exact fun _ => rfl
  | link id asTruth => exact bind (writeVariable ..) fun _ _ _ _ => pure trivial
  | runBody d arguments returns => exact absurd hr (Reaction.Coherent.ne_runBody hl)
  | keepAndRun owner body =>
    exact bind (keep _ (.inl rfl) _) fun _ _ hle _ =>
      bind (spawnChain (hr.1.mono hle) hr.2.2) fun _ _ _ _ => pure trivial
  | host name act => exact hr.elim

theorem reactAll {rs : List Reaction} (hr : ∀ r ∈ rs, r.Coherent e.environment v l)
    (hl : v.IsPlain tab l) (x : Json) : Does e t γ v (e.reactAll x rs) anything := by
  induction rs generalizing v with
  | nil => exact pure trivial
  | cons r rs ih =>
    refine bind (react (hr r List.mem_cons_self) hl x) fun v₁ _ hle _ => ?_
    exact ih (fun r' h => (hr r' (List.mem_cons_of_mem _ h)).mono hle) (hl.mono hle)

/-! ## Tasks -/

/-- The statements in the body of a procedure. -/
theorem bodyStatements {s : Site} (hs : s.AtHome γ v) :
    Does e t γ v (e.bodyStatements s) anything := by
  unfold Engine.bodyStatements
  cases hn : s.next? e.settings.maxDepth with
  | none => exact pure trivial
  | some first =>
    exact weaken (Plays.handle (hs.of_eq (Site.generation_next? hn))) fun _ _ _ _ => trivial

theorem guardedChain {hat next : Site} (hs : hat.AtHome γ v)
    (hnext : next.generation = hat.generation) (operator : ChangeOperator) (x : Json) :
    Plays e t γ v (e.guardedChain hat operator x next) anything := by
  have hrest : ∀ v₁ item, v ≤ v₁ → Plays e t γ v₁ (do
      let f ← Attempt.ofExcept (operator.filter item)
      if f.accepts x then Attempt.handle next else return .proceed) anything := by
    intro v₁ item hle
    refine Plays.andThen (P := anything) (.ofExcept fun _ _ => trivial) fun v₂ f hle' => ?_
    split
    · exact .handle ((hs.mono (View.le_trans hle hle')).of_eq hnext)
    · exact .pure trivial
  unfold Engine.guardedChain
  simp only
  split
  · exact Plays.andThen (.inputValue hs _) fun v₁ item hle => hrest v₁ item hle
  · exact hrest v .null (View.le_refl v)

/-- The work of a task that is not the body of a procedure. -/
theorem work {j : Job} (hj : j.Coherent v) (hb : j.isBody = false)
    (ht : ∃ s, v.tasks t = some s ∧ s.job = some j) :
    Does e t (.ofHome j.home?) v (e.work j) anything := by
  cases j with
  | root s => exact Plays.conclude (Plays.handleOrEvaluate ⟨rfl, hj⟩) s
  | chain s => exact Plays.conclude (Plays.handle ⟨rfl, hj⟩) s
  | chainIf hat operator x next =>
    exact Plays.conclude (guardedChain ⟨rfl, hj.1⟩ hj.2 operator x) hat
  | body => cases hb
  | stopAfter n c ns =>
    refine bind (sleep ns) fun v₁ _ hle _ => bind (P := anything) ?_ fun _ _ _ _ => pure trivial
    obtain ⟨s, hs, hsj⟩ := ht
    refine atomically (fun w hle' _ => ?_) fun _ _ _ => trivial
    obtain ⟨s', hs', hj', -⟩ := (View.le_trans hle hle').task t s hs
    simp only [World.cancelContext, World.view_cancelAll]
    refine .cancel ⟨s', hs', hj'.trans hsj⟩ fun u hu => ?_
    obtain ⟨x, hx, rfl⟩ := List.mem_map.1 hu
    obtain ⟨hx, hc⟩ := List.mem_filter.1 hx
    unfold World.tracked at hx
    cases hg : w.generation? n with
    | none => rw [hg] at hx; cases hx
    | some g =>
      rw [hg] at hx
      exact ⟨g, x, hg, hx, rfl, by simpa using (Bool.and_eq_true_iff.1 hc).1⟩
  | watch s lock input kind =>
    refine Plays.conclude (Plays.routine ⟨rfl, hj.1⟩ ?_) s
    exact ⟨rfl, hj.2⟩

end Does
end BlockEngine
