import BlockEngine.World

/-!
# Pauses

Where an execution can stop and let others run.

* `Pause`, `Pause.Reply` : what is waited for, and what the wait answers;
* `World.answer?` : the answer, if it is there already;
* `World.settle` : the state after the answer has been taken;
* `World.await` : the state with a task registered for everything that may end its pause;
* `World.abandon` : the state after a paused task has gone away.
-/

namespace BlockEngine

/-- What a task waits for. Deadlines are times of the clock. -/
inductive Pause where
  /-- A time. -/
  | time (deadline : Nat)
  /-- A delivery to a mailbox, or the deadline. -/
  | mail (mailbox : MailboxId) (deadline : Option Nat)
  /-- The end of a task. -/
  | ended (task : TaskId)
  /-- The end of all tasks, or the deadline. -/
  | allEnded (tasks : List TaskId) (deadline : Nat)
  /-- The turn to change the running generations. -/
  | turn
deriving DecidableEq

/-- What a pause answers: only a mailbox has something to tell, unless its deadline came first. -/
def Pause.Reply : Pause → Type
  | .mail .. => Option Delivery
  | _ => Unit

namespace Pause

/-- The time at which a pause ends at the latest. -/
def deadline? : Pause → Option Nat
  | .time d => some d
  | .mail _ d => d
  | .allEnded _ d => some d
  | _ => none

/-- The tasks whose end may end a pause. -/
def observed : Pause → List TaskId
  | .ended t => [t]
  | .allEnded ts _ => ts
  | _ => []

/-- Whether the deadline of a pause has come. -/
def isDue (p : Pause) (clock : Nat) : Bool :=
  (p.deadline?.map fun d => decide (d ≤ clock)).getD false

end Pause

namespace World

/-- The answer to a pause of the task `t`, if it is there. What is waited for goes before the
deadline. -/
def answer? (w : World) (t : TaskId) : (p : Pause) → Option p.Reply
  | .time d => if d ≤ w.clock then some () else none
  | .mail m d =>
    match (w.locks.mailbox? m).bind (·.content) with
    | some d => some (some d)
    | none => if (Pause.mail m d).isDue w.clock then some none else none
  | .ended u => if w.isEnded u then some () else none
  | .allEnded us d => if us.all w.isEnded || d ≤ w.clock then some () else none
  | .turn => if w.turn.holder = none || w.turn.holder = some t then some () else none

/-- Take back every registration of a paused task. -/
def unregister (w : World) (t : TaskId) (p : Pause) : World :=
  let w := p.observed.foldl
    (fun w u => w.modifyTask u fun r => { r with observers := r.observers.filter (· ≠ t) }) w
  { w with
    timers := w.timers.filter fun x => x.task ≠ t || x.outer
    readers := w.readers.filter (·.2 ≠ t)
    turn := { w.turn with queue := w.turn.queue.filter (· ≠ t) } }

/-- The state after a pause has been answered: a mailbox is gone, the turn is taken. -/
def settle (w : World) (t : TaskId) (p : Pause) : World :=
  let w := w.unregister t p
  match p with
  | .mail m _ => { w with locks := w.locks.close m }
  | .turn => { w with turn := { w.turn with holder := some t } }
  | _ => w

/-- Register a task for what may end its pause; doing so again changes nothing. -/
def await (w : World) (t : TaskId) (p : Pause) : World :=
  let w := p.observed.foldl
    (fun w u => w.modifyTask u fun r =>
      if r.ended || r.observers.contains t then r else { r with observers := r.observers ++ [t] }) w
  let w :=
    match p with
    | .mail m _ =>
      if (w.readers.lookup m).isSome then w else { w with readers := w.readers ++ [(m, t)] }
    | .turn =>
      if w.turn.queue.contains t then w
      else { w with turn := { w.turn with queue := w.turn.queue ++ [t] } }
    | _ => w
  match p.deadline? with
  | some d =>
    if w.timers.any fun x => x.task = t && !x.outer then w
    else { w with timers := w.timers ++ [⟨d, t, false⟩] }
  | none => w

/-- Give the turn to the next caller in the queue. -/
def passTurn (w : World) : World :=
  match w.turn.queue with
  | [] => { w with turn := ⟨none, []⟩ }
  | t :: rest => { w with turn := ⟨some t, rest⟩ }.wake t

/-- Give the turn away if the task `t` holds it. -/
def yieldTurn (w : World) (t : TaskId) : World :=
  if w.turn.holder = some t then w.passTurn else w

/-- The state after the task `t` has gone away in a pause: its mailbox is closed, the turn it
holds or was given is passed on. -/
def abandon (w : World) (t : TaskId) (p : Pause) : World :=
  let w := w.unregister t p
  let w :=
    match p with
    | .mail m _ => { w with locks := w.locks.close m }
    | _ => w
  w.yieldTurn t

/-- The state after the end of a task: its observers wake. -/
def finish (w : World) (t : TaskId) : World :=
  let observers := ((w.task? t).map (·.observers)).getD []
  let w := w.yieldTurn t
  (w.modifyTask t fun r => { r with ended := true, observers := [] }).wakeAll observers

/-! ## The clock -/

/-- The time a wait of some nanoseconds from now on ends, on a clock of whole milliseconds. -/
def after (w : World) (nanoseconds : Nat) : Nat := w.clock + (nanoseconds + 999999) / 1000000

/-- The earliest deadline. -/
def nextDeadline? (w : World) : Option Nat := (w.timers.map (·.deadline)).min?

/-- Let the clock jump to the earliest deadline and wake the tasks whose timers are due, in the
order the timers were set. -/
def tick (w : World) : Option World :=
  w.nextDeadline?.map fun d =>
    let w := { w with clock := max d w.clock }
    let due := w.timers.filter (·.deadline ≤ w.clock)
    let w := { w with timers := w.timers.filter fun x => w.clock < x.deadline }
    w.wakeAll (due.map Timer.task)

end World
end BlockEngine
