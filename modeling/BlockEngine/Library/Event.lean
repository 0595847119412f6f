import BlockEngine.Site.Input

/-!
# Broadcasts

A broadcast signals the lock of its message in its own tab; the hats of that tab which listen to
the message start their chains.
-/

namespace BlockEngine.Library

/-- Signal a message to the tab of a block; how many took it. -/
def send (s : Site) (message : String) : Execution Nat := do
  let lock ← Execution.obtainLock s (.broadcast message)
  Execution.signalLock lock (.str message)

/-- Signal a message, by its id, to the tab. -/
def broadcast (env : Environment) (s : Site) : Attempt Signal := do
  let message := (← s.input env "BROADCAST_INPUT" .reference).toText
  let _ ← (send s message : Execution Nat)
  return .proceed

/-- Start the chain of the hat on every broadcast of its message. -/
def gotBroadcast (_env : Environment) (s : Site) : Attempt Signal := do
  let lock ← Execution.obtainLock s (.broadcast (s.block.fieldRef "BROADCAST_OPTION"))
  Execution.listen s lock (.start s)
  return .proceed

/-- The broadcast blocks. -/
def eventExtension : Extension StatementHandler ExpressionHandler :=
  (Extension.empty "event")
    |>.command "broadcast" broadcast
    |>.hat "gotbroadcast" gotBroadcast

end BlockEngine.Library
