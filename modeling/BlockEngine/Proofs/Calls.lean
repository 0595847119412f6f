import BlockEngine.Proofs.Numbers

/-!
# Calls of procedures

* `Library.callEnd`, `Library.replySignal_replyTo` : a call ends as the chain of its body did;
* `SignalFilter.accepts_replyTo` : a call accepts the replies to itself only;
* `Engine.step_dial`, `step_dialOn`, `step_awaitReply_of_empty`, `step_awaitReply_of_value` : the
  steps of a call;
* `Engine.run_chainTurn_call` : a chain that comes to a call block gathers the arguments and calls;
  what it does next is `Engine.afterCall`.
-/

namespace BlockEngine

variable {e : Engine} {t : TaskId} {b : MailboxId}

/-! ## What a reply says -/

/-- How a call ends when the chain of its body has come to an end. -/
def Library.callEnd (signature : String) :
    Except EngineError Signal → Except EngineError Signal
  | .ok s => .ok s
  | .error err => .error (.handler (.procedureFailed signature err.message))

theorem Engine.replyTo_ok (request : Json) (s : Signal) :
    Engine.replyTo request (.ok s) =
      .obj [("call_id", (request.get? "call_id").getD .null), ("stop", .bool (s = .stop))] := by
  have hlt : ¬ "stop" < "call_id" := by decide
  simp [Engine.replyTo, Json.object, Keyed.ofList, Keyed.insert, hlt]

theorem Engine.replyTo_error (request : Json) (err : EngineError) :
    Engine.replyTo request (.error err) =
      .obj [("call_id", (request.get? "call_id").getD .null), ("error", .str err.message)] := by
  have hlt : ¬ "error" < "call_id" := by decide
  simp [Engine.replyTo, Json.object, Keyed.ofList, Keyed.insert, hlt]

/-- A call that has got the reply of a body ends as the chain of the body did. -/
theorem Library.replySignal_replyTo (signature : String) (request : Json)
    (r : Except EngineError Signal) :
    replySignal signature (Engine.replyTo request r) = callEnd signature r := by
  cases r with
  | error err =>
    rw [Engine.replyTo_error]
    rfl
  | ok s =>
    rw [Engine.replyTo_ok]
    cases s <;> rfl

theorem Library.get?_request (callId : String) (passed : Keyed Json) :
    (request callId passed).get? "call_id" = some (.str callId) := by
  rw [request_eq]
  rfl

/-- A waiter accepts the replies to its own call. -/
theorem SignalFilter.accepts_replyTo (callId callId' : String) (passed : Keyed Json)
    (r : Except EngineError Signal) :
    (SignalFilter.callId callId).accepts (Engine.replyTo (Library.request callId' passed) r) =
      decide (callId' = callId) := by
  have hid : ((Engine.replyTo (Library.request callId' passed) r).get? "call_id").bind Json.str? =
      some callId' := by
    cases r with
    | error err =>
      rw [Engine.replyTo_error, Library.get?_request]
      rfl
    | ok s =>
      rw [Engine.replyTo_ok, Library.get?_request]
      rfl
  unfold SignalFilter.accepts
  rw [hid]
  simp

/-! ## Steps of a call -/

theorem World.answer?_mail (w : World) (t : TaskId) (b : MailboxId) (d : Option Nat) :
    w.answer? t (.mail b d) =
      match (w.locks.mailbox? b).bind (·.content) with
      | some x => (some (some x) : Option (Option Delivery))
      | none => if (Pause.mail b d).isDue w.clock then some none else none := rfl

namespace Engine

theorem step_requiredLock {w : World} {s : Site} {key : LockKey} {l : LockId}
    (h : w.locks.find? s.tab key.text = some l) :
    e.step t w (ExceptT.run (Library.requiredLock s key)) = some (.done (.ok l), w) := by
  unfold Library.requiredLock
  change some (ExceptT.run _, w) = _
  delta ExceptT.bindCont
  dsimp only
  rw [h]
  rfl

theorem step_dial {w : World} {s : Site} {signature : String} {passed : Keyed Json}
    {calls : LockId} (h : w.locks.find? s.tab (LockKey.procedure signature).text = some calls)
    (k : Except EngineError Signal → Execution Unit) :
    e.step t w ((ExceptT.run (Library.dial s signature passed)).bind k) =
      some ((ExceptT.run (Library.dialOn s signature calls passed)).bind k, w) := by
  change e.step t w
    (((ExceptT.run (Library.requiredLock s (.procedure signature))).bind _).bind k) = _
  rw [Execution.bind_assoc, step_bind _ _ _ _ nofun, step_requiredLock h]
  rfl

theorem step_dialOn (w : World) (s : Site) (signature : String) (passed : Keyed Json)
    (calls : LockId) (k : Except EngineError Signal → Execution Unit) :
    e.step t w ((ExceptT.run (Library.dialOn s signature calls passed)).bind k) =
      some ((ExceptT.run (Library.ask signature calls
          (w.locks.obtain s.tab s.id (LockKey.procedureReturn signature).text).1 passed)).bind k,
        (w.withLocks (·.obtain s.tab s.id (LockKey.procedureReturn signature).text)).2) := rfl

/-- A call waits as long as its mailbox is empty. -/
theorem step_awaitReply_of_empty {w : World} (h : w.locks.mailbox? b = some ⟨b, none⟩)
    (signature : String) (k : Except EngineError Signal → Execution Unit) :
    e.step t w ((ExceptT.run (Library.awaitReply signature b)).bind k) = none := by
  rw [step_awaitReply, World.answer?_mail, h]
  rfl

/-- A call goes on with the reply in its mailbox. -/
theorem step_awaitReply_of_value {w : World} {x : Json}
    (h : w.locks.mailbox? b = some ⟨b, some (.value x)⟩) (signature : String)
    (k : Except EngineError Signal → Execution Unit) :
    e.step t w ((ExceptT.run (Library.awaitReply signature b)).bind k) =
      some (k (Library.replySignal signature x), w.settle t (.mail b none)) := by
  rw [step_awaitReply, World.answer?_mail, h]
  rfl

end Engine

/-! ## Call blocks -/

theorem Engine.HasCore.lookup_call (he : e.HasCore) {s : Site}
    (hop : s.block.opcode = ⟨"procedures", "call"⟩) :
    e.lookup s = .ok ⟨"call", .command Library.call, []⟩ := by
  unfold Engine.lookup
  rw [he, hop]
  rfl

/-- How the turn of a chain at a call block ends, when the call has ended. -/
def Engine.afterCall (e : Engine) (visited : List String) (s : Site) :
    Except EngineError Signal → Except EngineError Turned
  | .ok .stop => .ok (.over .stop)
  | .ok .proceed =>
    match s.next? e.settings.maxDepth with
    | some next => .ok (.again (.chain (s.id :: visited) next))
    | none => .ok (.over .proceed)
  | .error err => .error (s.annotate err)

/-- A chain that comes to a call block gathers the arguments and calls. -/
theorem Engine.run_chainTurn_call (he : e.HasCore) {visited : List String} {s : Site} {signature : String}
    (hnew : visited.contains s.id = false) (hop : s.block.opcode = ⟨"procedures", "call"⟩)
    (hsignature : s.block.signature? = some signature) :
    ExceptT.run (e.chainTurn visited s) =
      (ExceptT.run (Library.callArguments e.environment s
        ((s.block.mutation.map (·.argumentIds)).getD []))).bind fun
      | .ok passed => (ExceptT.run (Library.dial s signature passed)).bind fun r =>
        .done (e.afterCall visited s r)
      | .error err => .done (.error (s.annotate err)) := by
  unfold chainTurn
  rw [hnew, he.lookup_call hop]
  change ((ExceptT.run (Attempt.annotated s (Library.call e.environment s))).bind _) = _
  unfold Library.call Attempt.annotated
  rw [hsignature]
  change (((Execution.bind _ _).bind _).bind _) = _
  rw [Execution.bind_assoc, Execution.bind_assoc]
  congr 1
  funext r
  cases r with
  | error err => rfl
  | ok passed =>
    change (ExceptT.run (Library.dial s signature passed)).bind _ = _
    congr 1
    funext r
    rcases r with err | ⟨_ | _⟩
    · rfl
    · change ExceptT.run (match s.next? e.settings.maxDepth with
       | some next => _ | none => _) = _
      unfold afterCall
      cases s.next? e.settings.maxDepth <;> rfl
    · rfl

/-- What is left to do for a root block whose chain has ended. -/
def Engine.afterRoot (s : Site) : Except EngineError Signal → Execution Unit
  | .ok _ => .done ()
  | .error err => Execution.change fun w => w.report s.tab err

/-- A root block that is a command begins with the first turn of its chain. -/
theorem Engine.step_work_root {s : Site} (hkind : e.registry.kind? s.block.opcode ≠ some .reporter)
    (t : TaskId) (w : World) :
    e.step t w (e.work (.root s)) =
      some ((ExceptT.run (e.chainTurn [] s)).bind (afterTurn (afterRoot s)), w) := by
  have hwork : e.work (.root s) = .run (.chain [] s) (afterRoot s) := by
    change Attempt.conclude s (e.handleOrEvaluate s) = _
    unfold Attempt.conclude handleOrEvaluate
    rw [if_neg hkind]
    change Execution.run _ _ = _
    congr 1
  rw [hwork]
  rfl

/-- A root block that is a call with literal arguments calls in its first step. -/
theorem Engine.step_work_call (he : e.HasCore) {s : Site} {signature : String}
    {passed : Keyed Json} (hop : s.block.opcode = ⟨"procedures", "call"⟩)
    (hsignature : s.block.signature? = some signature)
    (hpassed : ExceptT.run (Library.callArguments e.environment s
      ((s.block.mutation.map (·.argumentIds)).getD [])) = .done (.ok passed))
    (t : TaskId) (w : World) :
    e.step t w (e.work (.root s)) =
      some ((ExceptT.run (Library.dial s signature passed)).bind fun r =>
        afterTurn (afterRoot s) (e.afterCall [] s r), w) := by
  have hkind : e.registry.kind? s.block.opcode = some .command := by
    rw [he, hop]
    rfl
  rw [step_work_root (by rw [hkind]; exact nofun), run_chainTurn_call he rfl hop hsignature, hpassed,
    Execution.done_bind, Execution.bind_assoc]
  rfl

end BlockEngine
