import BlockEngine.Site.Input

/-!
# The interpreter

What the engine does for a block, a routine, a signal and a task.

* `Engine.evaluation` : a block as an expression; its result is kept on the block;
* `Engine.turn` : one turn of a routine, which ends it or says what comes next;
* `Engine.react`, `Engine.reactAll` : the reactions to a signalled value;
* `Engine.work` : what a task does.
-/

namespace BlockEngine

/-- How a turn of a routine ended: with a next turn, or for good. -/
inductive Turned where
  | again (r : Routine)
  | over (s : Signal)

namespace Engine

/-- The registered block of a site. -/
def lookup (e : Engine) (s : Site) :
    Except EngineError (BlockSpec StatementHandler ExpressionHandler) :=
  (e.registry.lookup s.block.opcode).mapError s.annotate

/-- Keep a named value on the block of a site. -/
def keep (s : Site) (key : String) (v : Json) : Execution Unit :=
  Execution.setValue s.generation s.id key v

/-! ## Blocks -/

/-- Evaluate a block as an expression and keep the result. Statements evaluate to null. -/
def evaluation (e : Engine) (s : Site) : Attempt Json := do
  let spec ← Attempt.ofExcept (e.lookup s)
  let v ← Attempt.annotated s <|
    match spec.behaviour with
    | .reporter run => run e.environment s
    | .command run | .hat run => do
      let _ ← run e.environment s
      return .null
  keep s valueKey v
  return v

/-- Run a block for what it is registered as: expressions are evaluated, all others handled. -/
def handleOrEvaluate (e : Engine) (s : Site) : Attempt Signal := do
  if e.registry.kind? s.block.opcode = some .reporter then
    let _ ← Attempt.evaluate s
    return .proceed
  else Attempt.handle s

/-! ## Routines -/

/-- Run one block of a chain. The chain ends before a block run already, after a hat or an
expression, at `stop`, and where no next block is linked. -/
def chainTurn (e : Engine) (visited : List String) (s : Site) : Attempt Turned := do
  if visited.contains s.id then return .over .proceed
  else
    let spec ← Attempt.ofExcept (e.lookup s)
    match spec.behaviour with
    | .command run =>
      match ← Attempt.annotated s (run e.environment s) with
      | .stop => return .over .stop
      | .proceed =>
        match s.next? e.settings.maxDepth with
        | some next => return .again (.chain (s.id :: visited) next)
        | none => return .over .proceed
    | .hat run => return .over (← Attempt.annotated s (run e.environment s))
    | .reporter run =>
      let v ← Attempt.annotated s (run e.environment s)
      keep s valueKey v
      return .over .proceed

/-- Whether a loop has one more iteration, as far as its condition goes. -/
def goesOn (e : Engine) (l : Loop) : Attempt Bool :=
  if l.rule = .whileCondition then l.site.inputBool e.environment conditionInput
  else return true

/-- Run one iteration of a loop; after one that does not end the loop comes the pause. -/
def loopTurn (e : Engine) (l : Loop) (index : Nat) : Attempt Turned := do
  keep l.site indexKey (.ofNat index)
  if !(← e.goesOn l) then return .over .proceed
  else
    match ← Attempt.handle l.body with
    | .stop => return .over .stop
    | .proceed =>
      match l.rule with
      | .times n =>
        if n ≤ index + 1 then return .over .proceed
        else pauseAndGo
      | _ => pauseAndGo
where
  pauseAndGo : Attempt Turned := do
    Execution.sleep l.interval
    return .again (.loop l (index + 1))

/-- Look at a condition; unless it holds, wait on the lock for a signal or the poll interval. -/
def waitTurn (e : Engine) (s : Site) (lock : LockId) : Attempt Turned := do
  if ← s.inputBool e.environment conditionInput then return .over .proceed
  else
    match ← (Execution.awaitSignal lock e.settings.pollInterval :
        Execution (Option Delivery)) with
    | some .released => throw (.lockReleased (LockKey.event s.id).text)
    | _ => return .again (.waitUntil s lock)

/-- What a watcher sees of an input. -/
def observe (e : Engine) (s : Site) (input : String) : WatchKind → Attempt Json
  | .value => s.inputValue e.environment input
  | .condition => return .bool (← s.inputBool e.environment input)

/-- Look at an input, signal a change, and wait for the poll interval. -/
def watchTurn (e : Engine) (s : Site) (lock : LockId) (input : String) (kind : WatchKind)
    (last : Option Json) : Attempt Turned := do
  let w ← (Execution.look : Execution World)
  if ((w.locks.lock? lock).map (·.released)).getD true then return .over .proceed
  else
    let now ← e.observe s input kind
    let changed := !((last.map now.same).getD false)
    if changed then
      let _ ← (Execution.signalLock lock now : Execution Nat)
    Execution.sleep (e.settings.pollInterval * 1000000)
    return .again (.watch s lock input kind (if changed then some now else last))

/-- One turn of a routine. -/
def turn (e : Engine) : Routine → Attempt Turned
  | .chain visited s => e.chainTurn visited s
  | .loop l index => e.loopTurn l index
  | .waitUntil s lock => e.waitTurn s lock
  | .watch s lock input kind last => e.watchTurn s lock input kind last

/-! ## Signals -/

/-- What a subscription of the host does after noting a value. -/
def hostAct (v : Json) : HostAct → Execution Unit
  | .nothing => return ()
  | .signal tab key value => do
    let _ ← Execution.signalKey tab key (value.getD v)
  | .write id value => do
    let _ ← Execution.writeVariable id (value.getD v)
  | .unsubscribe name =>
    Execution.change fun w =>
      match Keyed.get? name w.subscriptionNames with
      | some (l, id) => (w.withLocks (·.unsubscribe l id)).2
      | none => w
  | .release tab => Execution.change fun w => w.releaseLocks tab

/-- What a subscription does with a value it accepts. -/
def react (e : Engine) (v : Json) : Reaction → Execution Unit
  | .start hat => do
    let _ ← Execution.spawnNext e.settings.maxDepth hat
  | .keepAndStart hat => do
    keep hat valueKey v
    let _ ← Execution.spawnNext e.settings.maxDepth hat
  | .keepAndStartIf hat operator => do
    keep hat valueKey v
    match hat.next? e.settings.maxDepth with
    | none => return ()
    | some next =>
      let _ ← Execution.spawnIn hat fun c => .chainIf hat operator v (next.withContext c)
  | .link id asTruth => do
    let _ ← Execution.writeVariable id (if asTruth then .bool v.toBool else v)
  | .runBody definition arguments returns => do
    let _ ← Execution.spawnIn definition fun c =>
      .body (definition.withContext c) arguments v returns
  | .keepAndRun owner body => do
    keep owner valueKey v
    let _ ← Execution.spawnChain owner body
  | .host name act => do
    Execution.change fun w => w.note name v
    hostAct v act

/-- Run reactions one after the other. -/
def reactAll (e : Engine) (v : Json) : List Reaction → Execution Unit
  | [] => return ()
  | r :: rest => do
    e.react v r
    e.reactAll v rest

/-! ## Tasks -/

/-- Run a chain if a value passes the filter of its hat. The item is read anew every time. -/
def guardedChain (e : Engine) (hat : Site) (operator : ChangeOperator) (v : Json) (next : Site) :
    Attempt Signal := do
  let item ← if hat.hasInput itemInput then hat.inputValue e.environment itemInput else pure .null
  let f ← Attempt.ofExcept (operator.filter item)
  if f.accepts v then Attempt.handle next else return .proceed

/-- Keep the arguments of a request on the definition, each under its name. -/
def keepArguments (s : Site) (request : Json) : List (String × String) → Execution Unit
  | [] => return ()
  | (id, name) :: rest => do
    keep s name (((request.get? "args").bind (·.get? id)).getD .null)
    keepArguments s request rest

/-- The reply to a request: how the body ended, under the id of the call. -/
def replyTo (request : Json) (result : Except EngineError Signal) : Json :=
  let callId := (request.get? "call_id").getD .null
  match result with
  | .ok s => .object [("call_id", callId), ("stop", .bool (s = .stop))]
  | .error err => .object [("call_id", callId), ("error", .str err.message)]

/-- Reply to a request on a return lock. -/
def reply (returns : LockId) (request : Json) (result : Except EngineError Signal) :
    Execution Unit := do
  let _ ← Execution.signalLock returns (replyTo request result)

/-- Run the body of a procedure with the arguments of a request. -/
def bodyChain (e : Engine) (s : Site) (arguments : List (String × String)) (request : Json) :
    Execution (Except EngineError Signal) := do
  keepArguments s request arguments
  match s.next? e.settings.maxDepth with
  | some first => ExceptT.run (Attempt.handle first)
  | none => return .ok .proceed

/-- Run the body of a procedure and reply. The failure of a body belongs to its caller. -/
def bodyRun (e : Engine) (s : Site) (arguments : List (String × String)) (request : Json)
    (returns : LockId) : Execution Unit := do
  reply returns request (← e.bodyChain s arguments request)

/-- The value a watcher takes for the last one when it starts. -/
def WatchKind.first : WatchKind → Option Json
  | .value => some .null
  | .condition => none

/-- What a task does. -/
def work (e : Engine) : Job → Execution Unit
  | .root s => Attempt.conclude s (e.handleOrEvaluate s)
  | .chain s => Attempt.conclude s (Attempt.handle s)
  | .chainIf hat operator v next => Attempt.conclude hat (e.guardedChain hat operator v next)
  | .body s arguments request returns => e.bodyRun s arguments request returns
  | .stopAfter g context nanoseconds => do
    Execution.sleep nanoseconds
    let _ ← Execution.atomically fun w => w.cancelContext g context
  | .watch s lock input kind =>
    Attempt.conclude s (Attempt.routine (.watch s lock input kind (WatchKind.first kind)))

end Engine
end BlockEngine
