import BlockEngine.Proofs.HatRuns
import BlockEngine.Proofs.Queue
import BlockEngine.Proofs.Registration
import BlockEngine.Proofs.Subscriptions

/-!
# Hats that listen

The hats of the core library never wait: each looks at its block, obtains a lock and listens to it.

* `World.Stays` : a step after which the tasks, the tabs, who has the turn and the generations are
  what they were;
* `Execution.Acts` : an execution that changes the state step by step and waits for certain things
  only;
* `Library.hats`, `Library.acts_of_mem_hats` : the hats of the core library only act;
* `Engine.HasCore.straight_conclude` : so to handle one of them is straight;
* `Library.Hears` : what a hat with a task of its own listens to, and what it does then;
* `World.Tells` : a signal of a key runs a reaction;
* `Run.hat_listens` : when it has come to its end without an error it is heard, as long as the tab
  records its generation.
-/

namespace BlockEngine

variable {α β : Type} {e : Engine} {t : TaskId} {w w' w'' : World}

/-! ## Steps that change little -/

/-- A change of a generation that keeps whether it takes tasks. -/
theorem World.isDestroyed_modifyGeneration (w : World) (n : Nat)
    {f : GenerationState → GenerationState} (hf : ∀ s, (f s).destroyed = s.destroyed) (k : Nat) :
    (w.modifyGeneration n f).isDestroyed k = w.isDestroyed k := by
  change (w.modifyGeneration n f).view.isDestroyed k = w.view.isDestroyed k
  rw [World.view_modifyGeneration, View.isDestroyed_modifyGeneration _ _ hf]

/-- No task more, the same tabs, the same holder of the turn, and the same generations take
tasks. -/
structure World.Stays (w w' : World) : Prop where
  taskCount : w'.taskCount = w.taskCount
  tabs : w'.tabs = w.tabs
  holder : w'.turn.holder = w.turn.holder
  destroyed : ∀ n, w'.isDestroyed n = w.isDestroyed n

namespace World.Stays

theorem refl (w : World) : w.Stays w := ⟨rfl, rfl, rfl, fun _ => rfl⟩

theorem withLocks (w : World) (f : LockTable Reaction → α × LockTable Reaction) :
    w.Stays (w.withLocks f).2 := ⟨rfl, rfl, rfl, fun _ => rfl⟩

theorem trans (h : w.Stays w') (h' : w'.Stays w'') : w.Stays w'' :=
  ⟨h'.taskCount.trans h.taskCount, h'.tabs.trans h.tabs, h'.holder.trans h.holder,
    fun n => (h'.destroyed n).trans (h.destroyed n)⟩

theorem addListener (w : World) (n : Nat) (block : String) (x : Listener) :
    w.Stays (w.addListener n block x) where
  taskCount := by unfold World.addListener World.modifyGeneration; split <;> rfl
  tabs := by unfold World.addListener World.modifyGeneration; split <;> rfl
  holder := by unfold World.addListener World.modifyGeneration; split <;> rfl
  destroyed := isDestroyed_modifyGeneration w n fun _ => rfl

theorem listen (w : World) (l : LockId) (r : Reaction) (n : Nat) (block : String) :
    w.Stays ((w.withLocks (·.subscribe l .all r)).2.addListener n block
      (.unsubscribe l (w.locks.subscribe l .all r).1)) :=
  (withLocks w _).trans (addListener _ n block _)

theorem report (w : World) (tab : String) (err : EngineError) : w.Stays (w.report tab err) := by
  unfold World.report
  split
  · exact refl w
  · exact ⟨rfl, rfl, rfl, fun _ => rfl⟩

end World.Stays

/-! ## The hats of the core library -/

namespace Library

/-- The hats of the core library, by their opcodes. -/
def hats : List (Opcode × StatementHandler) :=
  core.flatMap fun x => x.blocks.filterMap fun b =>
    match b.behaviour with
    | .hat run => some (⟨x.id, b.opcode⟩, run)
    | _ => none

theorem hats_eq : hats =
    [(⟨"event", "gotbroadcast"⟩, gotBroadcast), (⟨"data", "onchange_variable"⟩, onChange),
     (⟨"data", "onchange_variable_to"⟩, onChangeTo),
     (⟨"data", "group_variable_link"⟩, linkVariable "group_variables_group" false),
     (⟨"data", "boolean_link"⟩, linkVariable "bool_variables_group" true),
     (⟨"procedures", "definition"⟩, definition)] := rfl

/-- Blocks that run once are hats, if they are registered. -/
theorem once_of_core : ∀ x ∈ core, ∀ b ∈ x.blocks, isOnce ⟨x.id, b.opcode⟩ = true →
    b.behaviour.kind = .hat := by
  decide

end Library

/-! ## Executions that only act and wait -/

/-- An execution that changes the state as `R` allows and waits for what `W` allows: it signals no
lock, evaluates no block and runs no routine. -/
inductive Execution.Acts (W : Pause → Prop) (R : World → World → Prop) : Execution α → Prop
  | done (a : α) : Acts W R (.done a)
  | act {f : World → World} {k : World → Execution α} :
      (∀ w, R w (f w)) → (∀ w, Acts W R (k w)) → Acts W R (.act f k)
  | pause {p : Pause} {k : p.Reply → Execution α} :
      W p → (∀ r, Acts W R (k r)) → Acts W R (.pause p k)

namespace Execution.Acts

variable {W : Pause → Prop} {R : World → World → Prop} {p : Execution α}

theorem atomically {f : World → α × World} (hf : ∀ w, R w (f w).2) :
    (Execution.atomically f).Acts W R := .act hf fun _ => .done _

theorem change {f : World → World} (hf : ∀ w, R w (f w)) : (Execution.change f).Acts W R :=
  .act hf fun _ => .done ()

theorem bind (hp : p.Acts W R) {k : α → Execution β} (hk : ∀ a, (k a).Acts W R) :
    (p.bind k).Acts W R := by
  induction hp with
  | done a => exact hk a
  | act hf _ ih => exact .act hf ih
  | pause hc _ ih => exact .pause hc ih

/-- One attempt after the other. -/
theorem attempt {p : Attempt α} (hp : (ExceptT.run p).Acts W R) {k : α → Attempt β}
    (hk : ∀ a, (ExceptT.run (k a)).Acts W R) : (ExceptT.run (p >>= k)).Acts W R := by
  refine hp.bind fun r => ?_
  cases r with
  | ok a => exact hk a
  | error err => exact .done _

theorem lift (hp : p.Acts W R) : (ExceptT.run (liftM p : Attempt α)).Acts W R :=
  hp.bind fun a => .done (Except.ok a)

/-- An execution that only acts never waits. -/
theorem straight (hp : p.Acts (fun _ => False) R) : e.Straight t R p := by
  induction hp with
  | done a => exact .done a
  | act hf _ ih => exact .act hf ih
  | pause hc => exact hc.elim

end Execution.Acts

/-! ## Hats only act -/

/-- A rule that allows what the hats of the core library do for a site: they obtain locks of its tab
and listen to locks; their errors are reported. -/
class HatRule (s : Site) (R : World → World → Prop) : Prop where
  refl (w : World) : R w w
  obtain (w : World) (key : LockKey) : R w (w.withLocks (·.obtain s.tab s.id key.text)).2
  listen (w : World) (l : LockId) (r : Reaction) :
    R w ((w.withLocks (·.subscribe l .all r)).2.addListener s.generation.number s.id
      (.unsubscribe l (w.locks.subscribe l .all r).1))
  report (w : World) (cause : EngineError) : R w (w.report s.tab (s.annotate cause))

instance (s : Site) : HatRule s World.Stays where
  refl := .refl
  obtain w _ := .withLocks w _
  listen w l r := .listen w l r _ _
  report w _ := .report w _ _

variable {W : Pause → Prop} {R : World → World → Prop}

section

variable {s : Site} [HatRule s R]

theorem Library.acts_obtainLock (key : LockKey) : (Execution.obtainLock s key).Acts W R :=
  .atomically fun w => HatRule.obtain w key

theorem Library.acts_listen (l : LockId) (r : Reaction) : (Execution.listen s l r).Acts W R :=
  .change fun w => HatRule.listen w l r

/-- To read an input as a reference is no step. -/
theorem Site.run_input_reference (env : Environment) (s : Site) (key : String) :
    ∃ r, ExceptT.run (s.input env key .reference) = .done r := by
  unfold Site.input
  cases s.decodedInput key with
  | error err => exact ⟨_, rfl⟩
  | ok i =>
    obtain ⟨tag, content⟩ := i
    cases tag <;> cases content <;> exact ⟨_, rfl⟩

namespace Library

theorem acts_gotBroadcast (env : Environment) : (ExceptT.run (gotBroadcast env s)).Acts W R :=
  .attempt (.lift (acts_obtainLock _)) fun l => .attempt (.lift (acts_listen l _)) fun _ => .done _

theorem acts_listenToVariable (r : Reaction) : (listenToVariable s r).Acts W R :=
  (acts_obtainLock _).bind fun l => acts_listen l r

theorem acts_onChange (env : Environment) : (ExceptT.run (onChange env s)).Acts W R :=
  .attempt (.lift (acts_listenToVariable _)) fun _ => .done _

theorem acts_onChangeTo (env : Environment) : (ExceptT.run (onChangeTo env s)).Acts W R :=
  .attempt (.done _) fun _ => .attempt (.lift (acts_listenToVariable _)) fun _ => .done _

theorem acts_linkVariable (field : String) (asTruth : Bool) (env : Environment) :
    (ExceptT.run (linkVariable field asTruth env s)).Acts W R := by
  have hrest : ∀ source : String, (ExceptT.run do
      let _ ← Attempt.ofExcept (s.generation.graph.block source)
      let lock ← Execution.obtainLock s (.value source)
      Execution.listen s lock (.link (s.block.fieldRef field) asTruth)
      return Signal.proceed : Execution (Except EngineError Signal)).Acts W R :=
    fun source =>
    .attempt (.done _) fun _ => .attempt (.lift (acts_obtainLock _)) fun l =>
      .attempt (.lift (acts_listen l _)) fun _ => .done _
  refine .attempt ?_ fun source => ?_
  · obtain ⟨r, hr⟩ := s.run_input_reference env "SOURCE"
    rw [hr]
    exact .done r
  · dsimp only
    split
    · exact .done _
    · exact hrest _

theorem acts_definition (env : Environment) : (ExceptT.run (definition env s)).Acts W R :=
  .attempt (.done _) fun _ => .attempt (.lift (acts_obtainLock _)) fun calls =>
    .attempt (.lift (acts_obtainLock _)) fun _ =>
      .attempt (.lift (acts_listen calls _)) fun _ => .done _

/-- No hat of the core library waits. -/
theorem acts_of_mem_hats : ∀ p ∈ hats, ∀ env, (ExceptT.run (p.2 env s)).Acts W R := by
  rw [hats_eq]
  simp only [List.forall_mem_cons]
  exact ⟨acts_gotBroadcast, acts_onChange, acts_onChangeTo, acts_linkVariable _ _,
    acts_linkVariable _ _, acts_definition, nofun⟩

end Library

end

namespace Engine

variable {s : Site}

/-- The turn of a chain at a hat is what the hat does, and the chain is over. -/
theorem run_chainTurn_hat {b : BlockSpec StatementHandler ExpressionHandler}
    {run : StatementHandler} (hb : e.lookup s = .ok b) (hrun : b.behaviour = .hat run) :
    ExceptT.run (e.chainTurn [] s) = (ExceptT.run (run e.environment s)).bind fun r =>
      .done ((r.mapError s.annotate).map .over) := by
  obtain ⟨opcode, behaviour, menus⟩ := b
  obtain rfl : behaviour = .hat run := hrun
  unfold chainTurn
  rw [show ([] : List String).contains s.id = false from rfl, hb]
  change ((ExceptT.run (run e.environment s)).bind _).bind _ = _
  rw [Execution.bind_assoc]
  congr 1
  funext r
  cases r <;> rfl

/-- A block that is no hat only where it is not registered. -/
def IsHat (e : Engine) (s : Site) : Prop :=
  ∀ b, e.lookup s = .ok b → ∃ run, b.behaviour = .hat run

theorem HasCore.mem_hats (he : e.HasCore) {b : BlockSpec StatementHandler ExpressionHandler}
    {run : StatementHandler} (hb : e.lookup s = .ok b) (hrun : b.behaviour = .hat run) :
    (s.block.opcode, run) ∈ Library.hats := by
  obtain ⟨x, hx, hmem, ho⟩ := he.opcode_of_lookup (registered_of_lookup hb)
  exact List.mem_flatMap.2 ⟨x, hx, List.mem_filterMap.2 ⟨b, hmem, by rw [hrun, ho]⟩⟩

/-- The turn of a chain at a hat of the core library only acts, and is the last one. Its error names
the hat. -/
theorem HasCore.turn_hat (he : e.HasCore) (hs : e.IsHat s) [HatRule s R] :
    ∃ x : Execution (Except EngineError Signal), (∀ W, x.Acts W R) ∧
      ∀ {α : Type} (q : Except EngineError Signal → Execution α),
        (ExceptT.run (e.chainTurn [] s)).bind (afterTurn q) =
          x.bind fun r => q (r.mapError s.annotate) := by
  cases hb : e.lookup s with
  | error err =>
    obtain ⟨cause, hcause⟩ : ∃ cause, err = s.annotate cause := by
      unfold lookup at hb
      cases hlookup : e.registry.lookup s.block.opcode with
      | error cause => exact ⟨cause, by rw [hlookup] at hb; exact (Except.error.inj hb).symm⟩
      | ok b => rw [hlookup] at hb; cases hb
    refine ⟨.done (.error cause), fun W => .done _, fun q => ?_⟩
    unfold chainTurn
    rw [show ([] : List String).contains s.id = false from rfl, hb, hcause]
    rfl
  | ok b =>
    obtain ⟨run, hrun⟩ := hs b hb
    refine ⟨ExceptT.run (run e.environment s), fun W =>
      Library.acts_of_mem_hats _ (he.mem_hats hb hrun) e.environment, fun q => ?_⟩
    rw [run_chainTurn_hat hb hrun, Execution.bind_assoc]
    congr 1
    funext r
    cases r <;> rfl

/-- A block that runs once is a hat, if it is registered. -/
theorem HasCore.isHat_of_once (he : e.HasCore) (hs : Library.isOnce s.block.opcode = true) :
    e.IsHat s := by
  intro b hb
  obtain ⟨x, hx, hmem, ho⟩ := he.opcode_of_lookup (registered_of_lookup hb)
  have hkind := Library.once_of_core x hx b hmem (ho ▸ hs)
  cases hbehaviour : b.behaviour with
  | hat run => exact ⟨run, rfl⟩
  | _ => rw [hbehaviour] at hkind; cases hkind

/-- What is registered as a hat is one. -/
theorem exists_hat_of_kind (hs : e.registry.kind? s.block.opcode = some .hat) :
    ∃ b run, e.lookup s = .ok b ∧ b.behaviour = .hat run := by
  unfold lookup Registry.lookup
  unfold Registry.kind? at hs
  cases hx : e.registry.extension? s.block.opcode.extension with
  | none => rw [hx] at hs; cases hs
  | some x =>
    rw [hx, Option.bind_some] at hs
    obtain ⟨b, hb, hkind⟩ := Option.map_eq_some_iff.1 hs
    simp only [hb]
    unfold BlockSpec.kind at hkind
    cases hbehaviour : b.behaviour with
    | hat run => exact ⟨b, run, rfl, hbehaviour⟩
    | _ => rw [hbehaviour] at hkind; cases hkind

/-- To report how a block has ended only acts. -/
theorem acts_conclude [HatRule s R] (r : Except EngineError Signal) :
    (Attempt.conclude s (ExceptT.mk (.done (r.mapError s.annotate)))).Acts W R := by
  cases r with
  | ok => exact .done _
  | error err => exact .change fun w => HatRule.report w err

/-- To handle a hat and report its error is straight. -/
theorem HasCore.straight_conclude (he : e.HasCore) (hs : e.IsHat s) [hR : HatRule s R] :
    e.Straight t R (Attempt.conclude s (Attempt.handle s)) :=
  .step _ id nofun (fun _ => rfl) hR.refl fun _ => by
    obtain ⟨x, hx, hturn⟩ := he.turn_hat hs (R := R)
    change e.Straight t R ((ExceptT.run (e.chainTurn [] s)).bind _)
    rw [hturn]
    exact ((hx _).bind acts_conclude).straight

/-- A block that is no reporter is handled. -/
theorem handleOrEvaluate_of_ne (hs : e.registry.kind? s.block.opcode ≠ some .reporter) :
    e.handleOrEvaluate s = Attempt.handle s := if_neg hs

/-- What a task does for a root that is no reporter. -/
theorem work_root (hs : e.registry.kind? s.block.opcode ≠ some .reporter) :
    e.work (.root s) = Attempt.conclude s (Attempt.handle s) :=
  congrArg (Attempt.conclude s) (handleOrEvaluate_of_ne hs)

theorem ne_reporter_of_hat (hs : e.registry.kind? s.block.opcode = some .hat) :
    e.registry.kind? s.block.opcode ≠ some .reporter := by
  rw [hs]
  decide

end Engine

/-! ## What hats listen to -/

/-- What a hat with a task of its own listens to, and what it does then. -/
inductive Library.Hears (s : Site) : LockKey → Reaction → Prop
  | gotBroadcast : s.block.opcode = ⟨"event", "gotbroadcast"⟩ →
      Hears s (.broadcast (s.block.fieldRef "BROADCAST_OPTION")) (.start s)
  | onChange : s.block.opcode = ⟨"data", "onchange_variable"⟩ →
      Hears s (.variableWrite (variableId s)) (.keepAndStart s)
  | onChangeTo {operator : ChangeOperator} :
      s.block.opcode = ⟨"data", "onchange_variable_to"⟩ →
      ChangeOperator.ofText (s.block.field "OPERATOR") = .ok operator →
      Hears s (.variableWrite (variableId s)) (.keepAndStartIf s operator)

namespace Engine

variable {s : Site}

/-- A hat with a task of its own obtains a lock and listens to it, or fails at once. -/
theorem HasCore.hears_or_fails (he : e.HasCore) (hs : e.registry.kind? s.block.opcode = some .hat)
    (honce : Library.isOnce s.block.opcode = false) :
    (∃ key r, Library.Hears s key r ∧ ExceptT.run (e.chainTurn [] s) =
      (Execution.obtainLock s key).bind fun l => (Execution.listen s l r).bind fun _ =>
        .done (.ok (.over .proceed))) ∨
    ∃ err, ExceptT.run (e.chainTurn [] s) = .done (.error err) := by
  obtain ⟨b, run, hb, hrun⟩ := exists_hat_of_kind hs
  have hmem := he.mem_hats hb hrun
  rw [run_chainTurn_hat hb hrun]
  rw [Library.hats_eq] at hmem
  simp only [List.mem_cons, Prod.mk.injEq, List.not_mem_nil, or_false] at hmem
  rcases hmem with ⟨ho, rfl⟩ | ⟨ho, rfl⟩ | ⟨ho, rfl⟩ | ⟨ho, -⟩ | ⟨ho, -⟩ | ⟨ho, -⟩
  · exact .inl ⟨_, _, .gotBroadcast ho, rfl⟩
  · exact .inl ⟨_, _, .onChange ho, rfl⟩
  · cases hoperator : ChangeOperator.ofText (s.block.field "OPERATOR") with
    | ok operator =>
      refine .inl ⟨_, _, .onChangeTo ho hoperator, ?_⟩
      unfold Library.onChangeTo
      rw [hoperator]
      rfl
    | error err =>
      refine .inr ⟨s.annotate err, ?_⟩
      unfold Library.onChangeTo
      rw [hoperator]
      rfl
  all_goals
    rw [ho] at honce
    exact absurd honce (by decide)

end Engine

/-! ## Hats of a run -/

/-- The tab holds the lock under the key. -/
def World.HoldsLock (w : World) (tab : String) (key : LockKey) (l : LockId) : Prop :=
  ∃ y, w.locks.lock? l = some y ∧ y.tab = tab ∧ y.key = key.text ∧ y.released = false

/-- The tab holds a lock under the key that has a subscription with the reaction. -/
def World.Hearing (w : World) (tab : String) (key : LockKey) (r : Reaction) : Prop :=
  ∃ l, w.HoldsLock tab key l ∧ r ∈ w.subscribed l

variable {h : TaskId} {log log₀ log' : List Deed} {m m' m'' : Machine} {s : Site} {key : LockKey}
  {r : Reaction} {k : α → Execution Unit} {a : α} {capacity : Nat}

/-- A lock is held, and nobody leaves it, while a generation of its tab is recorded or about to
be. -/
theorem Run.lock_kept (he : e.Orderly) (hbefore : Run e (.start capacity) log₀ m)
    (hrun : Run e m log m') (hknown : m.world.view.Known s.generation) (hrest : Run e m' log' m'')
    (hrec : m''.world.view.Records s.generation.number) {l : LockId}
    (hlock : m.world.HoldsLock s.tab key l) :
    m'.world.HoldsLock s.tab key l ∧ ∀ r ∈ m.world.subscribed l, r ∈ m'.world.subscribed l := by
  obtain ⟨y, hy, htab, hkey, hreleased⟩ := hlock
  obtain ⟨x, hx, hxtab⟩ := hknown
  obtain ⟨φ, ψ, hc⟩ := Conducted.run he hbefore
  obtain ⟨-, -, -, hle⟩ := hc.extend he hrun
  obtain ⟨y', hy', hrel, hsub⟩ :=
    (hbefore.subscriptions_kept he hrun hx hy (htab.trans hxtab.symm) hrest hrec).kept y hy
  obtain ⟨y₁, hy₁, htab', hkey', -⟩ := hle.locks.lock l y hy
  obtain rfl := Option.some.inj (hy'.symm.trans hy₁)
  refine ⟨⟨y', hy', htab'.trans htab, hkey'.trans hkey, hrel.trans hreleased⟩, fun r hr => ?_⟩
  obtain ⟨y₀, hy₀, sub, hmem, hreaction⟩ := World.mem_subscribed.1 hr
  obtain rfl := Option.some.inj (hy.symm.trans hy₀)
  exact World.mem_subscribed.2 ⟨y', hy', sub, hsub sub hmem, hreaction⟩

theorem Run.hearing_kept (he : e.Orderly) (hbefore : Run e (.start capacity) log₀ m)
    (hrun : Run e m log m') (hknown : m.world.view.Known s.generation) (hrest : Run e m' log' m'')
    (hrec : m''.world.view.Records s.generation.number) (hhears : m.world.Hearing s.tab key r) :
    m'.world.Hearing s.tab key r := by
  obtain ⟨l, hlock, hr⟩ := hhears
  obtain ⟨hlock', hsub⟩ := hbefore.lock_kept he hrun hknown hrest hrec hlock
  exact ⟨l, hlock', hsub r hr⟩

/-- A lock that is obtained is held. -/
theorem World.holdsLock_obtain (hs : w.view.Sound e) (s : Site) (key : LockKey) :
    (w.withLocks (·.obtain s.tab s.id key.text)).2.HoldsLock s.tab key
      (w.withLocks (·.obtain s.tab s.id key.text)).1 :=
  hs.locks.obtain_spec s.tab s.id key.text

/-- Who listens to a lock that is held hears it. -/
theorem World.hearing_listen {l : LockId} (hlock : w.HoldsLock s.tab key l) (block : String)
    (n : Nat) : World.Hearing ((w.withLocks (·.subscribe l .all r)).2.addListener n block
      (.unsubscribe l (w.withLocks (·.subscribe l .all r)).1)) s.tab key r := by
  obtain ⟨y, hy, htab, hkey, hreleased⟩ := hlock
  have hlocks : ((w.withLocks (·.subscribe l .all r)).2.addListener n block
      (.unsubscribe l (w.withLocks (·.subscribe l .all r)).1)).locks =
        (w.locks.subscribe l .all r).2 := by
    unfold World.addListener World.modifyGeneration
    split <;> rfl
  have hy' := LockTable.lock?_subscribe hy .all r
  rw [if_neg (by rw [hreleased]; exact Bool.false_ne_true), ← hlocks] at hy'
  exact ⟨l, ⟨_, hy', htab, hkey, hreleased⟩,
    World.mem_subscribed.2 ⟨_, hy', _, List.mem_append_right _ List.mem_cons_self, rfl⟩⟩

/-- A signal of the key, in the tab or in all tabs, is one of the lock, and runs the reaction. -/
structure World.Tells (w : World) (tab : String) (key : LockKey) (l : LockId) (r : Reaction) :
    Prop where
  found : w.locks.find? tab key.text = some l
  across : l ∈ w.locks.acrossTabs key.text
  runs : ∀ v, r ∈ (w.locks.deliver l v).1.2

theorem World.HoldsLock.tells {tab : String} {l : LockId} (hlock : w.HoldsLock tab key l)
    (hs : w.view.Sound e) (hr : r ∈ w.subscribed l) : w.Tells tab key l r := by
  obtain ⟨y, hy, rfl, hkey, hreleased⟩ := hlock
  exact ⟨hkey ▸ hs.locks.holds l y hy hreleased,
    hs.locks.mem_acrossTabs.2 ⟨y, hy, hkey, hreleased⟩,
    fun v => (World.reactions_deliver hs l v).symm ▸ hr⟩

/-- A thread that has obtained a lock and listened to it is heard as long as the tab records its
generation. -/
theorem Course.hearing (he : e.Orderly) (hbefore : Run e (.start capacity) log₀ m)
    (hknown : m.world.view.Known s.generation) {q : Unit → Execution α}
    (hcourse : Course e h k m' m ((Execution.obtainLock s key).bind fun l =>
      (Execution.listen s l r).bind q) log a) (hrest : Run e m' log' m'')
    (hrec : m''.world.view.Records s.generation.number) : m'.world.Hearing s.tab key r := by
  obtain ⟨m₁, log₁, log₂, l, rfl, hobtain, htail⟩ := hcourse.of_bind
  obtain ⟨m₂, log₃, log₄, _, rfl, hlisten, hlast⟩ := htail.of_bind
  have hone : (Execution.obtainLock s key).IsSingle e h := .atomically fun _ => rfl
  have hone' : (Execution.listen s l r).IsSingle e h :=
    .atomically (f := fun w => ((), (w.withLocks (·.subscribe l .all r)).2.addListener
      s.generation.number s.id (.unsubscribe l (w.withLocks (·.subscribe l .all r)).1)))
      fun w => (World.Stays.listen w l r s.generation.number s.id).holder
  obtain ⟨m₃, _, _, _, w, rfl, hstep, hrun₃, -, hmove, hrun₁, -⟩ :=
    hobtain.of_single hone.begun fun w q w' hstep => (hone.step w q w' hstep).1
  obtain ⟨m₄, _, _, _, w', rfl, hstep', hrun₄, -, hmove', hrun₂, -⟩ :=
    hlisten.of_single hone'.begun fun w q w' hstep => (hone'.step w q w' hstep).1
  obtain ⟨hl, rfl⟩ := Prod.mk.inj (Option.some.inj hstep)
  obtain rfl := Execution.done.inj hl
  obtain ⟨-, rfl⟩ := Prod.mk.inj (Option.some.inj hstep')
  have hbefore₁ := (hbefore.trans hrun₃).move hmove
  have hbefore₂ := (hbefore₁.trans (hrun₁.trans hrun₄)).move hmove'
  have hrest₂ := hlast.run.trans hrest
  -- The lock is still held when the thread listens, and heard from then on.
  obtain ⟨φ, ψ, hc⟩ := Conducted.run he hbefore
  obtain ⟨φ₃, ψ₃, hc₃, hle₃⟩ := hc.extend he hrun₃
  obtain ⟨φ₁, ψ₁, hc₁, hle₁⟩ := hc₃.extend he (Run.single hmove)
  obtain ⟨-, -, -, hle₂⟩ := hc₁.extend he ((hrun₁.trans hrun₄).move hmove')
  have hknown₁ := (hknown.mono hle₃).mono hle₁
  obtain ⟨hlock, -⟩ := hbefore₁.lock_kept he (hrun₁.trans hrun₄) hknown₁
    ((Run.single hmove').trans (hrun₂.trans hrest₂)) hrec (World.holdsLock_obtain hc₃.sound s key)
  exact hbefore₂.hearing_kept he (hrun₂.trans hlast.run) (hknown₁.mono hle₂) hrest hrec
    (World.hearing_listen hlock _ _)

/-- A routine begins with its first turn. -/
theorem Course.of_run {x : Routine} {q : Except EngineError Signal → Execution α}
    (hcourse : Course e h k m' m (.run x q) log a) :
    ∃ m₁ log₁ log₂, Run e m log₁ m₁ ∧
      Course e h k m' m₁ ((ExceptT.run (e.turn x)).bind (Engine.afterTurn q)) log₂ a := by
  cases hcourse with
  | @step _ m₁ _ p w log₁ log₂ _ hrun _ hthread hstep hrest =>
    have hmove : e.step h m₁.world ((Execution.run x q).bind k) = some (p.bind k, w) := by
      rw [Engine.step_bind e h m₁.world k (by intro a ha; cases ha), hstep]
      rfl
    obtain ⟨rfl, rfl⟩ := Prod.mk.inj (Option.some.inj hstep)
    exact ⟨_, _, log₂, hrun.move (.perform hthread hmove), hrest⟩

/-- A hat that has come to its end without an error is heard as long as the tab records its
generation. -/
theorem Run.hat_listens (he : e.HasCore) (hkind : e.registry.kind? s.block.opcode = some .hat)
    (honce : Library.isOnce s.block.opcode = false) (hbefore : Run e (.start capacity) log₀ m)
    (hknown : m.world.view.Known s.generation) (hthread : m.threads[h]? = some (e.work (.root s)))
    (hrun : Run e m log m') (hdrop : ∀ w, Deed.dropped h w ∉ log) {x : Signal}
    (hdone : e.replay h (ExceptT.run (e.handleOrEvaluate s)) (Deed.statesOf h log) =
      some (.done (.ok x)))
    (hrest : Run e m' log' m'') (hrec : m''.world.view.Records s.generation.number) :
    ∃ key r, Library.Hears s key r ∧ m'.world.Hearing s.tab key r := by
  have horderly := Engine.orderly_of_core he
  obtain ⟨φ, ψ, hc⟩ := Conducted.run horderly hbefore
  have hcourse := hrun.course horderly hc hthread hdrop hdone
  rw [Engine.handleOrEvaluate_of_ne (Engine.ne_reporter_of_hat hkind)] at hcourse
  obtain ⟨m₁, log₁, log₂, hrun₁, hturn⟩ := hcourse.of_run
  obtain ⟨-, -, -, hle₁⟩ := hc.extend horderly hrun₁
  change Course e h _ m' m₁ ((ExceptT.run (e.chainTurn [] s)).bind _) log₂ _ at hturn
  rcases he.hears_or_fails hkind honce with ⟨key, r, hhears, hlistens⟩ | ⟨err, hfails⟩
  · simp only [hlistens, Execution.bind_assoc] at hturn
    have hknown₁ := hknown.mono hle₁
    exact ⟨key, r, hhears, hturn.hearing horderly (hbefore.trans hrun₁) hknown₁ hrest hrec⟩
  · rw [hfails] at hturn
    cases hturn with
    | step _ _ _ hstep => cases hstep

end BlockEngine
