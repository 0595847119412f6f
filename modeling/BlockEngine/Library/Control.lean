import BlockEngine.Site.Input

/-!
# Control blocks

Loops, branches, waits, watchers and `stop`. Bodies are plugged into the input `SUBSTACK`; a block
without a body does nothing. A `stop` inside a body ends the loop and everything around it.

* `controlExtension` : the blocks;
* `duration?` : amounts of a unit of time.
-/

namespace BlockEngine.Library

/-- The input of the body of a loop, a branch or a watcher. -/
def bodyInput : String := "SUBSTACK"

/-- The input of the branch taken when the condition does not hold. -/
def elseInput : String := "SUBSTACK2"

/-- Go on with the body plugged into a block, if there is one. -/
def withBody (env : Environment) (s : Site) (k : Site → Attempt Signal) : Attempt Signal := do
  match ← Attempt.ofExcept (s.inputBlock? env bodyInput) with
  | some body => k body
  | none => return .proceed

/-! ## Time -/

/-- The nanoseconds of an amount of a unit. Minutes and longer units are counted in seconds, and
these in 64 bits. -/
def duration? (unit : String) (amount : Nat) : Option Nat :=
  let seconds (n : Nat) : Nat := min n (Nat.pow 2 64 - 1) * 1000000000
  match unit with
  | "NANOSECONDS" => some amount
  | "MICROSECONDS" => some (amount * 1000)
  | "MILLISECONDS" => some (amount * 1000000)
  | "SECONDS" => some (seconds amount)
  | "MINUTES" => some (seconds (amount * 60))
  | "HOURS" => some (seconds (amount * 3600))
  | "DAYS" => some (seconds (amount * 86400))
  | _ => none

/-- The nanoseconds an input asks for in the unit of the field `UNIT`; a negative amount is none. -/
def inputDuration (env : Environment) (s : Site) (input : String) : Attempt Nat := do
  let amount ← s.inputInt env input
  let unit := s.block.field "UNIT"
  match duration? unit amount.toNat with
  | some n => return n
  | none => throw (.malformedInput "UNIT" (.unknownTimeUnit unit))

/-! ## Loops -/

/-- Run a loop from its first iteration on. The pause between two iterations is never shorter than
the loop interval of the engine. -/
def runLoop (env : Environment) (s body : Site) (interval : Nat) (rule : LoopRule) :
    Attempt Signal :=
  Attempt.routine (.loop ⟨s, body, max interval (env.settings.loopInterval * 1000000), rule⟩ 0)

def forever (env : Environment) (s : Site) : Attempt Signal :=
  withBody env s fun body => runLoop env s body 0 .forever

/-- Run the body as often as `TIMES` says. -/
def repeatTimes (env : Environment) (s : Site) : Attempt Signal :=
  withBody env s fun body => do
    let n ← s.inputInt env "TIMES"
    if n ≤ 0 then return .proceed else runLoop env s body 0 (.times n.toNat)

/-- Run the body as long as the condition holds before it. -/
def repeatWhile (env : Environment) (s : Site) : Attempt Signal :=
  withBody env s fun body =>
    if s.hasInput conditionInput then runLoop env s body 0 .whileCondition
    else return .proceed

/-- Run the body again and again with the pause that `TIME` asks for. -/
def schedule (env : Environment) (s : Site) : Attempt Signal :=
  withBody env s fun body => do
    let interval ← inputDuration env s "TIME"
    runLoop env s body interval .forever

/-! ## Branches -/

def ifThen (env : Environment) (s : Site) : Attempt Signal := do
  if ← s.inputBool env conditionInput then s.handleInput env bodyInput else return .proceed

def ifElse (env : Environment) (s : Site) : Attempt Signal := do
  let holds ← s.inputBool env conditionInput
  s.handleInput env (if holds then bodyInput else elseInput)

/-! ## Waits -/

/-- The longest wait, in seconds. -/
def longestWait : Int := 3600

/-- Wait for `DURATION` seconds. -/
def wait (env : Environment) (s : Site) : Attempt Signal := do
  let seconds ← s.inputInt env "DURATION"
  if seconds < 1 || longestWait < seconds then
    throw (.handler (.waitOutOfRange longestWait seconds))
  Execution.sleep (seconds.toNat * 1000000000)
  return .proceed

/-- Wait until the condition holds. Between two looks the block waits on its event lock, so that
the release of the tab's locks ends the wait. -/
def waitUntil (_env : Environment) (s : Site) : Attempt Signal := do
  let lock ← Execution.obtainLock s (.event s.id)
  Attempt.routine (.waitUntil s lock)

/-! ## Stops -/

/-- The shortest delay of `stopTimeout`, in nanoseconds. -/
def shortestTimeout : Nat := 100000000

/-- Start a task that cancels the execution this block belongs to once `TIMES` is over. -/
def stopTimeout (env : Environment) (s : Site) : Attempt Signal := do
  let timeout ← inputDuration env s "TIMES"
  let _ ← Execution.spawnIn s fun _ =>
    .stopAfter s.generation.number s.context.id (max timeout shortestTimeout)
  return .proceed

/-! ## Watchers -/

/-- Run the body every time an input changes. A task of its own looks at the input and signals the
event lock of the block. -/
def watchInput (input : String) (kind : WatchKind) (env : Environment) (s : Site) :
    Attempt Signal :=
  withBody env s fun body => do
    if s.hasInput input then
      let lock ← Execution.obtainLock s (.event s.id)
      Execution.listen s lock (.keepAndRun s body)
      let _ ← Execution.spawnIn s fun _ => .watch s lock input kind
    return .proceed

/-- The control blocks. -/
def controlExtension : Extension StatementHandler ExpressionHandler :=
  (Extension.empty "control")
    |>.command "forever" forever
    |>.command "repeat" repeatTimes
    |>.command "repeat_until" repeatWhile
    |>.command "schedule" schedule
    |>.command "if" ifThen
    |>.command "if_else" ifElse
    |>.command "wait" wait
    |>.command "wait_until" waitUntil
    |>.command "stop" (fun _ _ => return .stop)
    |>.command "stop_timeout" stopTimeout
    |>.command "when_value_changed" (watchInput "VALUE" .value)
    |>.command "when_condition_changed" (watchInput conditionInput .condition)

end BlockEngine.Library
