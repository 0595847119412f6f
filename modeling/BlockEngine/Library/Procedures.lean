import BlockEngine.Site.Input

/-!
# Procedures

A definition listens on the lock of its signature. A call signals that lock with its arguments and
a call id of its own, then waits on the return lock of the signature for the reply that carries the
id. The body runs in a task of its own, with every argument kept on the definition under its name.
-/

namespace BlockEngine.Library

/-- The signature data of a definition and the signature in it: its own data, or that of the
prototype plugged into it. -/
def definitionSignature (env : Environment) (s : Site) :
    Except EngineError (Mutation × String) := do
  match s.block.mutation.bind signed with
  | some found => return found
  | none =>
    let prototype ← s.inputBlock? env "custom_block"
    match prototype.bind fun p => p.block.mutation.bind signed with
    | some found => return found
    | none => throw (.malformedGraph (.procedureWithoutSignature s.id))
where
  signed (m : Mutation) : Option (Mutation × String) := m.signature?.map (m, ·)

/-- Run the body on every call of the signature. -/
def definition (env : Environment) (s : Site) : Attempt Signal := do
  let (m, signature) ← Attempt.ofExcept (definitionSignature env s)
  let calls ← Execution.obtainLock s (.procedure signature)
  let returns ← Execution.obtainLock s (.procedureReturn signature)
  Execution.listen s calls (.runBody s m.arguments returns)
  return .proceed

/-- The values of the arguments of a call; an input that is not there passes null. -/
def callArguments (env : Environment) (s : Site) (ids : List String) : Attempt (Keyed Json) :=
  ids.foldlM (fun done id => do
    let v ← if s.hasInput id then s.inputValue env id else pure .null
    return Keyed.insert id v done) []

/-- A lock that has to be there. -/
def requiredLock (s : Site) (key : LockKey) : Attempt LockId := do
  let w ← (Execution.look : Execution World)
  match w.locks.find? s.tab key.text with
  | some l => return l
  | none => throw (.lockNotFound s.tab key.text)

/-- How a call ends with a reply. -/
def replySignal (signature : String) (reply : Json) : Except EngineError Signal :=
  match (reply.get? "error").bind Json.str? with
  | some reason => .error (.handler (.procedureFailed signature reason))
  | none =>
    .ok (if ((reply.get? "stop").bind Json.bool?).getD false then .stop else .proceed)

/-- What a call signals: its id and its arguments. -/
def request (callId : String) (arguments : Keyed Json) : Json :=
  .object [("call_id", .str callId), ("args", .obj arguments)]

/-- Register for the reply to a new call; the id of the call and the mailbox. -/
def enroll (returns : LockId) : Execution (String × MailboxId) :=
  Execution.atomically fun w =>
    let (n, w) := w.fresh
    let (mailbox, w) := w.withLocks (·.register returns (.callId (identText n)))
    ((identText n, mailbox), w)

/-- How a call ends with what came into its mailbox. -/
def outcome (signature : String) : Option Delivery → Except EngineError Signal
  | some (.value reply) => replySignal signature reply
  | some .released => .error (.lockReleased (LockKey.procedureReturn signature).text)
  | none => .ok .proceed

/-- Wait for the reply and end as it says. -/
def awaitReply (signature : String) (mailbox : MailboxId) : Attempt Signal := do
  Attempt.ofExcept (outcome signature
    (← (Execution.receive mailbox none : Execution (Option Delivery))))

/-- Go on after a request that so many have accepted: without anybody there is no reply. -/
def heard (signature : String) (mailbox : MailboxId) (accepted : Nat) : Attempt Signal := do
  if accepted = 0 then
    Execution.change fun w => { w with locks := w.locks.close mailbox }
    throw (.handler (.procedureNotListening signature))
  else awaitReply signature mailbox

/-- Signal a request and wait for the reply. -/
def inquire (signature : String) (calls : LockId) (mailbox : MailboxId) (request : Json) :
    Attempt Signal := do
  let accepted ← (Execution.signalLock calls request : Execution Nat)
  heard signature mailbox accepted

/-- Make a request and wait for the reply. The waiter is in place before the signal, so that no
reply is missed. -/
def ask (signature : String) (calls returns : LockId) (arguments : Keyed Json) :
    Attempt Signal := do
  let (callId, mailbox) ← (enroll returns : Execution (String × MailboxId))
  inquire signature calls mailbox (request callId arguments)

/-- Call a signature on the lock of its calls. -/
def dialOn (s : Site) (signature : String) (calls : LockId) (arguments : Keyed Json) :
    Attempt Signal := do
  let returns ← Execution.obtainLock s (.procedureReturn signature)
  ask signature calls returns arguments

/-- Call a signature with arguments and wait for the end of the procedure. -/
def dial (s : Site) (signature : String) (arguments : Keyed Json) : Attempt Signal := do
  let calls ← requiredLock s (.procedure signature)
  dialOn s signature calls arguments

/-- Call a procedure and wait for its end. -/
def call (env : Environment) (s : Site) : Attempt Signal := do
  let some signature := s.block.signature?
    | throw (.malformedGraph (.callWithoutSignature s.id))
  let ids := (s.block.mutation.map (·.argumentIds)).getD []
  let arguments ← callArguments env s ids
  dial s signature arguments

/-- The signature of a prototype. -/
def prototype (_env : Environment) (s : Site) : Attempt Json := do
  return .ofOption s.block.signature?

/-- The procedure blocks. -/
def proceduresExtension : Extension StatementHandler ExpressionHandler :=
  (Extension.empty "procedures")
    |>.hat "definition" definition
    |>.command "call" call
    |>.reporter "prototype" prototype

end BlockEngine.Library
