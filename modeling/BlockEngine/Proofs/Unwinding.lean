import BlockEngine.Proofs.Loops
import BlockEngine.Proofs.Replies

/-!
# Stopping what encloses a block

Chains, branches, loops and calls all pass a `stop` on to what they are part of. A block that stands
as a statement in any nesting of them ends the whole chain of its task when it stops.

* `Engine.Opens` : a branch or a loop has come to a run of a block plugged into it;
* `Engine.Reached` : a chain has come to a block, through other blocks and into bodies;
* `Engine.Reached.replay` : what is left after such a block passes a `stop` on;
* `Engine.stop_unwinds` : a `stop` ends everything around it, and the call of a procedure that stops
  is such a `stop` for the caller.
-/

namespace BlockEngine

variable {α β : Type} {e : Engine} {t : TaskId}

namespace Engine

variable {root b body next : Site} {visited : List String} {ws ws' rs : List World} {l : Loop}
  {begun : World} {run : StatementHandler}

/-! ## One block of a chain -/

/-- A block is a command with a handler. -/
def IsCommand (e : Engine) (b : Site) (run : StatementHandler) : Prop :=
  ∃ x, e.lookup b = .ok x ∧ x.behaviour = .command run

/-- A statement has run from its first step to its end, and has returned a signal. -/
def Returns (e : Engine) (t : TaskId) (b : Site) (ws : List World) (s : Signal) : Prop :=
  ∃ x run, e.lookup b = .ok x ∧ (x.behaviour = .command run ∨ x.behaviour = .hat run) ∧
    e.replay t (ExceptT.run (run e.environment b)) ws = some (.done (.ok s))

/-- What follows a command of a chain. -/
def afterCommand (e : Engine) (visited : List String) (b : Site)
    (k : Except EngineError Signal → Execution α) : Except EngineError Signal → Execution α
  | .ok .stop => k (.ok .stop)
  | .ok .proceed =>
    match b.next? e.settings.maxDepth with
    | some next => .run (.chain (b.id :: visited) next) k
    | none => k (.ok .proceed)
  | .error err => k (.error (b.annotate err))

theorem step_chain (e : Engine) (t : TaskId) (w : World) (visited : List String) (b : Site)
    (k : Except EngineError Signal → Execution α) :
    e.step t w (.run (.chain visited b) k) =
      some ((ExceptT.run (e.chainTurn visited b)).bind (afterTurn k), w) := rfl

/-- A chain that comes to a command runs its handler. -/
theorem IsCommand.step (h : e.IsCommand b run) (hnew : b.id ∉ visited) (t : TaskId) (w : World)
    (k : Except EngineError Signal → Execution α) :
    e.step t w (.run (.chain visited b) k) =
      some ((ExceptT.run (run e.environment b)).bind (e.afterCommand visited b k), w) := by
  obtain ⟨⟨name, behaviour, menus⟩, hx, rfl⟩ := h
  rw [step_chain]
  congr 2
  unfold chainTurn
  rw [if_neg (by simpa using hnew), hx]
  change (((ExceptT.run (run e.environment b)).bind _).bind _).bind _ = _
  rw [Execution.bind_assoc, Execution.bind_assoc]
  congr 1
  funext r
  match r with
  | .error err => rfl
  | .ok .stop => rfl
  | .ok .proceed =>
    unfold afterCommand
    cases b.next? e.settings.maxDepth <;> rfl

/-- A chain that comes to a hat ends as its handler does. -/
theorem step_of_hat {x : BlockSpec StatementHandler ExpressionHandler} (hx : e.lookup b = .ok x)
    (hrun : x.behaviour = .hat run) (hnew : b.id ∉ visited) (t : TaskId) (w : World)
    (k : Except EngineError Signal → Execution α) :
    e.step t w (.run (.chain visited b) k) =
      some ((ExceptT.run (run e.environment b)).bind fun r => k (r.mapError b.annotate), w) := by
  obtain ⟨name, behaviour, menus⟩ := x
  obtain rfl : behaviour = .hat run := hrun
  rw [step_chain]
  congr 2
  unfold chainTurn
  rw [if_neg (by simpa using hnew), hx]
  change (((ExceptT.run (run e.environment b)).bind _).bind _).bind _ = _
  rw [Execution.bind_assoc, Execution.bind_assoc]
  congr 1
  funext r
  cases r <;> rfl

theorem HasCore.isCommand (he : e.HasCore) {o : Opcode} {name : String}
    (hcore : (Registry.empty.registerAll Library.core).1.lookup o = .ok ⟨name, .command run, []⟩)
    (hop : b.block.opcode = o) : e.IsCommand b run := by
  refine ⟨⟨name, .command run, []⟩, ?_, rfl⟩
  unfold Engine.lookup
  rw [he, hop, hcore]
  rfl

/-! ## Bodies -/

/-- After some steps of its handler a loop block runs a loop. -/
inductive Loops (e : Engine) (t : TaskId) (b : Site) : List World → Loop → Prop
  | forever {body : Site} :
      b.block.opcode = ⟨"control", "forever"⟩ →
      b.inputBlock? e.environment Library.bodyInput = .ok (some body) →
      Loops e t b [] (Library.loopOf e.environment b body 0 .forever)
  | counted {body : Site} {ws : List World} {n : Int} :
      b.block.opcode = ⟨"control", "repeat"⟩ →
      b.inputBlock? e.environment Library.bodyInput = .ok (some body) →
      e.replay t (ExceptT.run (b.inputInt e.environment "TIMES")) ws = some (.done (.ok n)) →
      0 < n → Loops e t b ws (Library.loopOf e.environment b body 0 (.times n.toNat))
  | conditional {body : Site} :
      b.block.opcode = ⟨"control", "repeat_until"⟩ →
      b.inputBlock? e.environment Library.bodyInput = .ok (some body) →
      b.hasInput conditionInput = true →
      Loops e t b [] (Library.loopOf e.environment b body 0 .whileCondition)
  | scheduled {body : Site} {ws : List World} {n : Nat} :
      b.block.opcode = ⟨"control", "schedule"⟩ →
      b.inputBlock? e.environment Library.bodyInput = .ok (some body) →
      e.replay t (ExceptT.run (Library.inputDuration e.environment b "TIME")) ws =
        some (.done (.ok n)) →
      Loops e t b ws (Library.loopOf e.environment b body n .forever)

/-- After some steps of its handler a branch or a loop runs a block plugged into it. -/
inductive Opens (e : Engine) (t : TaskId) (b : Site) : List World → Site → Prop
  | ifThen {body : Site} {ws : List World} :
      b.block.opcode = ⟨"control", "if"⟩ →
      e.replay t (ExceptT.run (b.inputBool e.environment conditionInput)) ws =
        some (.done (.ok true)) →
      b.inputBlock? e.environment Library.bodyInput = .ok (some body) → Opens e t b ws body
  | ifElse {body : Site} {ws : List World} {holds : Bool} :
      b.block.opcode = ⟨"control", "if_else"⟩ →
      e.replay t (ExceptT.run (b.inputBool e.environment conditionInput)) ws =
        some (.done (.ok holds)) →
      b.inputBlock? e.environment (if holds then Library.bodyInput else Library.elseInput) =
        .ok (some body) → Opens e t b ws body
  /-- In an iteration of a loop, after whole iterations with their pauses. -/
  | loop {l : Loop} {n : Nat} {ws past tests : List World} {begun marked : World} :
      e.Loops t b ws l → l.Rounds e t n past → l.Tests e t tests (.ok true) →
      Opens e t b (ws ++ (past ++ begun :: marked :: tests)) l.body

/-- What is left of a handler passes a `stop` of the chain it runs on. -/
def Hands (e : Engine) (t : TaskId) (p : Execution (Except EngineError Signal)) (ws : List World)
    (visited : List String) (b : Site) : Prop :=
  ∃ k, e.replay t p ws = some (.run (.chain visited b) k) ∧ k (.ok .stop) = .done (.ok .stop)

theorem replay_handleInput {key : String} (h : b.inputBlock? e.environment key = .ok (some body)) :
    ExceptT.run (b.handleInput e.environment key) = .run (.chain [] body) .done := by
  unfold Site.handleInput
  rw [h]
  rfl

/-- A loop block does what its loop does. -/
theorem Loops.replay (he : e.HasCore) (h : e.Loops t b ws l) :
    ∃ run, e.IsCommand b run ∧ ∀ ws', e.replay t (ExceptT.run (run e.environment b)) (ws ++ ws') =
      e.replay t (.run (.loop l 0) .done) ws' := by
  cases h with
  | forever hop hbody =>
    refine ⟨Library.forever, he.isCommand rfl hop, fun ws' => ?_⟩
    unfold Library.forever
    rw [Library.withBody_of_some hbody]
    rfl
  | counted hop hbody hn hpos =>
    refine ⟨Library.repeatTimes, he.isCommand rfl hop, fun ws' => ?_⟩
    unfold Library.repeatTimes
    rw [Library.withBody_of_some hbody]
    refine (replay_bind_of_done hn ws').trans ?_
    change e.replay t (ExceptT.run (if _ ≤ 0 then _ else _)) ws' = _
    rw [if_neg (Int.not_le.2 hpos)]
    rfl
  | conditional hop hbody hasked =>
    refine ⟨Library.repeatWhile, he.isCommand rfl hop, fun ws' => ?_⟩
    unfold Library.repeatWhile
    rw [Library.withBody_of_some hbody, if_pos hasked]
    rfl
  | scheduled hop hbody hn =>
    refine ⟨Library.schedule, he.isCommand rfl hop, fun ws' => ?_⟩
    unfold Library.schedule
    rw [Library.withBody_of_some hbody]
    exact replay_bind_of_done hn ws'

theorem Opens.hands (he : e.HasCore) (h : e.Opens t b ws body) :
    ∃ run, e.IsCommand b run ∧ e.Hands t (ExceptT.run (run e.environment b)) ws [] body := by
  cases h with
  | ifThen hop hholds hbody =>
    refine ⟨Library.ifThen, he.isCommand rfl hop, .done, ?_, rfl⟩
    unfold Library.ifThen
    refine (replay_bind_of_some hholds _).trans ?_
    exact congrArg some (replay_handleInput hbody)
  | ifElse hop hholds hbody =>
    refine ⟨Library.ifElse, he.isCommand rfl hop, .done, ?_, rfl⟩
    unfold Library.ifElse
    refine (replay_bind_of_some hholds _).trans ?_
    exact congrArg some (replay_handleInput hbody)
  | @loop l n ws past tests begun marked hloops hpast htests =>
    obtain ⟨run, hcommand, hrun⟩ := hloops.replay he
    refine ⟨run, hcommand, l.afterBody n, ?_, rfl⟩
    rw [hrun, hpast.replay, ← List.append_nil tests, htests.replay]
    rfl

/-! ## Positions in a chain -/

/-- In the steps of a task that runs the chain from a root block on, a block is next: the chain has
come to it through the commands before it, or it begins a body in which the chain is. `visited` are
the commands before it in its own chain. -/
inductive Reached (e : Engine) (t : TaskId) (root : Site) : List World → List String → Site → Prop
  | root : Reached e t root [] [] root
  | next {ws ws' : List World} {visited : List String} {b next : Site} {begun : World}
      {run : StatementHandler} :
      Reached e t root ws visited b → b.id ∉ visited → e.IsCommand b run →
      e.replay t (ExceptT.run (run e.environment b)) ws' = some (.done (.ok .proceed)) →
      b.next? e.settings.maxDepth = some next →
      Reached e t root (ws ++ begun :: ws') (b.id :: visited) next
  | body {ws ws' : List World} {visited : List String} {b body : Site} {begun : World} :
      Reached e t root ws visited b → b.id ∉ visited → e.Opens t b ws' body →
      Reached e t root (ws ++ begun :: ws') [] body

/-- A task that has come to a block has this block before it, and what is left for it to do after
that passes a `stop` on, to the end of its chain. -/
theorem Reached.hands (he : e.HasCore) (h : e.Reached t root ws visited b) :
    e.Hands t (ExceptT.run (Attempt.handle root)) ws visited b := by
  induction h with
  | root => exact ⟨.done, rfl, rfl⟩
  | @next ws ws' visited b next begun run _ hnew hcommand hruns hnext ih =>
    obtain ⟨k, hreplay, hstop⟩ := ih
    refine ⟨k, ?_, hstop⟩
    rw [replay_append, hreplay, Option.bind_some, replay_cons (hcommand.step hnew t begun k),
      replay_bind_of_some hruns]
    unfold afterCommand
    rw [Execution.done_bind]
    simp only [hnext]
  | @body ws ws' visited b body begun _ hnew hopens ih =>
    obtain ⟨k, hreplay, hstop⟩ := ih
    obtain ⟨run, hcommand, k', hbody, hstop'⟩ := hopens.hands he
    refine ⟨fun r => (k' r).bind (e.afterCommand visited b k), ?_, ?_⟩
    · rw [replay_append, hreplay, Option.bind_some, replay_cons (hcommand.step hnew t begun k),
        replay_bind_of_some hbody]
      rfl
    · change (k' (.ok .stop)).bind _ = _
      rw [hstop']
      exact hstop

/-- A chain that has come to a block that stops has ended. -/
theorem Reached.stop (he : e.HasCore) (h : e.Reached t root ws visited b) (hnew : b.id ∉ visited)
    (begun : World) (hstop : e.Returns t b ws' .stop) :
    e.replay t (ExceptT.run (Attempt.handle root)) (ws ++ begun :: ws') =
      some (.done (.ok .stop)) := by
  obtain ⟨k, hreplay, hk⟩ := h.hands he
  obtain ⟨x, run, hx, hrun | hrun, hruns⟩ := hstop
  · rw [replay_append, hreplay, Option.bind_some,
      replay_cons (IsCommand.step ⟨x, hx, hrun⟩ hnew t begun k), replay_bind_of_some hruns]
    exact congrArg some hk
  · rw [replay_append, hreplay, Option.bind_some,
      replay_cons (step_of_hat hx hrun hnew t begun k), replay_bind_of_some hruns]
    exact congrArg some hk

/-- A chain that has come to a call block gathers the arguments and calls. What it does after the
call passes a `stop` on. -/
theorem Reached.call (he : e.HasCore) (h : e.Reached t root ws visited b) (hnew : b.id ∉ visited)
    (hop : b.block.opcode = ⟨"procedures", "call"⟩) {signature : String}
    (hsignature : b.block.signature? = some signature) {passed : Keyed Json}
    (hpassed : e.replay t (ExceptT.run (Library.callArguments e.environment b
      ((b.block.mutation.map (·.argumentIds)).getD []))) ws' = some (.done (.ok passed)))
    (begun : World) :
    ∃ rest, e.replay t (ExceptT.run (Attempt.handle root)) (ws ++ begun :: ws') =
        some ((ExceptT.run (Library.dial b signature passed)).bind rest) ∧
      rest (.ok .stop) = .done (.ok .stop) := by
  obtain ⟨k, hreplay, hk⟩ := h.hands he
  refine ⟨fun r => afterTurn k (e.afterCall visited b r), ?_, hk⟩
  rw [replay_append, hreplay, Option.bind_some, replay_cons (step_chain e t begun visited b k),
    run_chainTurn_call he (by simpa using hnew) hop hsignature, Execution.bind_assoc,
    replay_bind_of_some hpassed]
  change some (((ExceptT.run (Library.dial b signature passed)).bind _).bind _) = _
  rw [Execution.bind_assoc]
  rfl

end Engine

/-! ## Calls -/

/-- When a call has started the body of its definition, and this body has stopped, all that is left
to the caller is `p`. -/
def Dial.LeavesAtStop (c : Dial) (e : Engine) (p : Execution Unit) : Prop :=
  ∀ capacity log₁ w log₂ m w₀ w₁ w₂ w₃,
    Run e (.start capacity) (log₁ ++ .performed c.thread c.execution w :: log₂) m →
    w.locks.find? c.site.tab (LockKey.procedure c.signature).text = some c.calls →
    c.Undisturbed log₂ m →
    Deed.statesOf c.thread log₂ = [w₀, w₁, w₂, w₃] →
    ∃ u x s returns, m.world.task? u = some x ∧
      x.job = some (.body (c.definition.withContext s) c.arguments (c.request w₁.issued) returns) ∧
      (c.Replied e (log₁ ++ .performed c.thread c.execution w :: log₂) w₁.issued u s (.ok .stop) →
        ∀ q, m.threads[c.thread]? = some q → ∃ w', e.step c.thread m.world q = some (p, w'))

theorem Dial.leavesAtStop (he : e.HasCore) (c : Dial) :
    c.LeavesAtStop e (c.rest (.ok .stop)) := by
  intro capacity log₁ w log₂ m w₀ w₁ w₂ w₃ hrun hcalls hundisturbed hstates
  obtain ⟨φ, ψ, hc, hprogress⟩ := Dial.Progress.run (Engine.orderly_of_core he) hrun hcalls
    hundisturbed
  rw [hstates] at hprogress
  cases hprogress with
  | @waiting _ _ _ _ returns b u s hthread _ h hreply =>
    obtain ⟨y, hy, hj⟩ := h.task
    obtain ⟨x, hx, rfl⟩ := Option.map_eq_some_iff.1 hy
    refine ⟨u, x, s, returns, hx, hj, fun hreplied q hq => ?_⟩
    exact (step_of_reply (c := c) (Option.some.inj (hq.symm.trans hthread)) hreply).2 ⟨_, hreplied, rfl⟩
  | @past _ _ _ _ _ returns u s h hended =>
    obtain ⟨y, hy, hj⟩ := h.task
    obtain ⟨x, hx, rfl⟩ := Option.map_eq_some_iff.1 hy
    refine ⟨u, x, s, returns, hx, hj, fun _ q hq => ?_⟩
    exact absurd ((hended rfl).symm.trans (hc.not_ended hq)) (by simp)
  | gone _ hlength => exact absurd hlength (by simp)

/-! ## The theorem -/

/-- A task that runs the chain from `root` on has come to a block. If the block stops, so does all
that encloses it. -/
structure Engine.Unwinds (e : Engine) (t : TaskId) (root : Site) (ws : List World) (b : Site) :
    Prop where
  /-- With the last step of the block the whole chain has ended: no other block of it, of a body in
  it or of another iteration is run. -/
  ends : ∀ begun ws', e.Returns t b ws' .stop →
    e.replay t (ExceptT.run (Attempt.handle root)) (ws ++ begun :: ws') = some (.done (.ok .stop))
  /-- So has the work of a task that runs nothing but the chain. -/
  works : ∀ begun ws' j, e.Returns t b ws' .stop →
    j = .chain root ∨ (j = .root root ∧ e.registry.kind? root.block.opcode ≠ some .reporter) →
    e.replay t (e.work j) (ws ++ begun :: ws') = some (.done ())
  /-- The body of a procedure replies that it has stopped. -/
  replies : ∀ definition arguments request kept begun ws' replied later,
    definition.next? e.settings.maxDepth = some root →
    e.replay t (Engine.keepArguments definition request arguments) kept = some (.done ()) →
    e.Returns t b ws' .stop →
    e.Replied t definition arguments request (kept ++ (ws ++ begun :: ws') ++ replied :: later)
      (.ok .stop)
  /-- If the block calls a procedure and the body of the call stops, the call is such a stop. -/
  calls : ∀ signature passed begun ws', b.block.opcode = ⟨"procedures", "call"⟩ →
    b.block.signature? = some signature →
    e.replay t (ExceptT.run (Library.callArguments e.environment b
      ((b.block.mutation.map (·.argumentIds)).getD []))) ws' = some (.done (.ok passed)) →
    ∃ rest : Except EngineError Signal → Execution (Except EngineError Signal),
    ∀ (g : Except EngineError Signal → Execution Unit) calls definition arguments,
      let c : Dial := ⟨t, b, signature, passed, calls, definition, arguments,
        fun r => (rest r).bind g⟩
      e.replay t ((ExceptT.run (Attempt.handle root)).bind g) (ws ++ begun :: ws') =
        some c.execution ∧ c.LeavesAtStop e (g (.ok .stop))

/-- A `stop` ends everything that encloses the block, up to the end of its task, and if the task runs
the body of a procedure, everything that encloses the call. -/
theorem Engine.stop_unwinds {root b : Site} {visited : List String} {ws : List World}
    (he : e.HasCore) (h : e.Reached t root ws visited b) (hnew : b.id ∉ visited) :
    e.Unwinds t root ws b where
  ends begun ws' hstop := h.stop he hnew begun hstop
  works begun ws' j hstop hj := by
    rcases hj with rfl | ⟨rfl, hkind⟩
    · exact replay_bind_of_some (h.stop he hnew begun hstop) _
    · change e.replay t (Attempt.conclude root (e.handleOrEvaluate root)) _ = _
      unfold handleOrEvaluate
      rw [if_neg hkind]
      exact replay_bind_of_some (h.stop he hnew begun hstop) _
  replies definition arguments request kept begun ws' replied later hnext hkept hstop := by
    refine ⟨_, replied, later, rfl, ?_⟩
    unfold bodyChain
    refine (replay_bind_of_done hkept _).trans ?_
    simp only [hnext]
    exact h.stop he hnew begun hstop
  calls signature passed begun ws' hop hsignature hpassed := by
    obtain ⟨rest, hreplay, hrest⟩ := h.call he hnew hop hsignature hpassed begun
    refine ⟨rest, fun g calls definition arguments => ⟨?_, ?_⟩⟩
    · rw [replay_bind_of_some hreplay, Execution.bind_assoc]
      rfl
    · have hleaves := Dial.leavesAtStop he
        ⟨t, b, signature, passed, calls, definition, arguments, fun r => (rest r).bind g⟩
      simp only [hrest] at hleaves
      exact hleaves

/-! ## A stop in a branch in a loop -/

namespace Script

/-- A control block of a document with blocks plugged in. -/
def control (id name : String) (inputs : List (String × String)) : Block where
  id
  opcode := ⟨"control", name⟩
  shadow := false
  topLevel := false
  parent := none
  next := none
  fields := []
  inputs := inputs.map fun i => (i.1, [.num (.int 2), .str i.2])
  mutation := none
  extra := []
  defined := true

/-- A loop around a branch, whose other side stops. -/
def nest : List Block :=
  [control "loop" "forever" [("SUBSTACK", "branch")],
    control "branch" "if_else" [("SUBSTACK", "loop"), ("SUBSTACK2", "halt")],
    control "halt" "stop" []]

/-- A block of the nest at a depth. -/
def nested (b : Block) (depth : Nat) : Site :=
  ⟨⟨0, "main", "main", ⟨nest, []⟩⟩, b, depth, ⟨0, some "main", none⟩⟩

end Script

/-- A stop in the branch of a loop ends the loop in its first iteration. -/
theorem Engine.stop_unwinds_of_nest :
    let root := Script.nested (Script.control "loop" "forever" [("SUBSTACK", "branch")]) 0
    let halt := Script.nested (Script.control "halt" "stop" []) 2
    let w := World.start 10
    (Script.engine.HasCore ∧ Script.engine.Reached 1 root [w, w, w, w] [] halt ∧ halt.id ∉ []) ∧
      Script.engine.Unwinds 1 root [w, w, w, w] halt ∧ Script.engine.Returns 1 halt [] .stop := by
  intro root halt w
  have hloop : Script.engine.Loops 1 root [] _ := .forever rfl rfl
  have hfirst : Script.engine.Opens 1 root [w, w] _ :=
    .loop hloop .none (.unasked (show LoopRule.forever ≠ .whileCondition by decide))
  let branch := Script.nested
    (Script.control "branch" "if_else" [("SUBSTACK", "loop"), ("SUBSTACK2", "halt")]) 1
  have hcondition : Script.engine.replay 1
      (ExceptT.run (branch.inputBool Script.engine.environment conditionInput)) [] =
        some (.done (.ok false)) := rfl
  have hbranch : Script.engine.Opens 1 branch [] halt := .ifElse rfl hcondition rfl
  have hreached : Script.engine.Reached 1 root [w, w, w, w] [] halt :=
    .body (.body .root List.not_mem_nil hfirst) List.not_mem_nil hbranch
  refine ⟨⟨rfl, hreached, List.not_mem_nil⟩,
    Engine.stop_unwinds rfl hreached List.not_mem_nil, ?_⟩
  have hhalt : Script.engine.IsCommand halt fun _ _ => return .stop :=
    HasCore.isCommand rfl rfl rfl
  obtain ⟨x, hx, hrun⟩ := hhalt
  exact ⟨x, _, hx, .inl hrun, rfl⟩

end BlockEngine
