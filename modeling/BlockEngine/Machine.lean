import BlockEngine.Interpreter

/-!
# The machine

Tasks run one at a time: a task goes on until it has to wait, then the first task of the queue has
its turn. When nobody can go on, the clock jumps to the earliest deadline.

* `Engine.step` : one step of an execution;
* `Engine.poll` : the steps of a task up to the next wait;
* `Machine.resume` : the turn of a task;
* `Machine.call` : the host's turn, up to the answer or a limit of time;
* `Machine.advance` : let time pass.

A turn that takes more than `stepLimit` steps, far more than any that ends, never ends: what it
keeps for later outgrows all memory, and the engine dies of it.
-/

namespace BlockEngine

variable {α : Type}

namespace Engine

/-- What follows a turn of a routine. -/
def afterTurn (k : Except EngineError Signal → Execution α) :
    Except EngineError Turned → Execution α
  | .ok (.again r) => .run r k
  | .ok (.over s) => k (.ok s)
  | .error err => k (.error err)

/-- One step of an execution of the task `t`. None is left at the end, and none is possible in a
pause without an answer. A signal serves the waiters in one step; the reactions run after it. -/
def step (e : Engine) (t : TaskId) (w : World) : Execution α → Option (Execution α × World)
  | .done _ => none
  | .act f k => some (k w, f w)
  | .pause p k => (w.answer? t p).map fun r => (k r, w.settle t p)
  | .signal l v k =>
    let ((served, reactions), w) := w.deliver l v
    some ((e.reactAll v reactions).bind fun _ => k (served + reactions.length), w)
  | .evaluate s k => some ((ExceptT.run (e.evaluation s)).bind k, w)
  | .run r k => some ((ExceptT.run (e.turn r)).bind (afterTurn k), w)

/-- Step as long as it is possible, at most `fuel` times. -/
def poll (e : Engine) (t : TaskId) : Nat → World → Execution α → Execution α × World
  | 0, w, p => (p, w)
  | fuel + 1, w, p =>
    match e.step t w p with
    | some (p, w) => e.poll t fuel w p
    | none => (p, w)

end Engine

/-- The state of an engine, and what every task that has begun still has to do. -/
structure Machine where
  world : World
  threads : Std.ExtTreeMap TaskId (Execution Unit)

namespace Machine

/-- The machine before anything has happened. -/
def start (capacity : Nat) : Machine := ⟨.start capacity, ∅⟩

/-- A bound on the steps of a turn. -/
def stepLimit : Nat := Nat.pow 2 20

/-- A bound on the turns of a call. -/
def turnLimit : Nat := Nat.pow 2 40

/-! ## Turns -/

/-- The state after a task has dropped an execution, in a pause or between two steps. -/
def forsake (w : World) (t : TaskId) : Execution α → World
  | .pause q _ => w.abandon t q
  | _ => w.yieldTurn t

/-- The state after a task has gone away. -/
def leave (w : World) (t : TaskId) (p : Execution Unit) : World := (forsake w t p).finish t

/-- Whether a task is asked to end. -/
def isCancelled (w : World) (t : TaskId) : Bool := ((w.task? t).map (·.cancelled)).getD false

/-- The machine after the steps of a task: the task has ended, goes away because it is cancelled,
or waits. There is none after a turn that never ends. -/
def park (m : Machine) (t : TaskId) (w : World) (p : Execution Unit) : Option Machine :=
  match p with
  | .done () => some ⟨w.finish t, m.threads.erase t⟩
  | .pause q k =>
    if isCancelled w t then some ⟨leave w t (.pause q k), m.threads.erase t⟩
    else some ⟨w.await t q, m.threads.insert t (.pause q k)⟩
  | _ => none

/-- The turn of a task. A cancelled one goes away without a further step. -/
def resume (e : Engine) (m : Machine) (t : TaskId) : Option Machine :=
  let w := m.world.modifyTask t fun r => { r with queued := false }
  match w.task? t with
  | none => some { m with world := w }
  | some r =>
    if r.ended then some { m with world := w }
    else
      match m.threads[t]? with
      | some p =>
        if r.cancelled then some ⟨leave w t p, m.threads.erase t⟩
        else
          let (p, w) := e.poll t stepLimit w p
          m.park t w p
      | none =>
        if r.cancelled then some { m with world := w.finish t }
        else
          let (p, w) := e.poll t stepLimit w ((r.job.map e.work).getD (.done ()))
          m.park t w p

/-- How the turns of the tasks end. -/
inductive Served where
  /-- It is the host's turn. -/
  | host
  /-- Nobody can go on any more. -/
  | idle
  /-- A turn never ends. -/
  | overrun

/-- Run tasks in the order of the queue until it is the host's turn. -/
def serve (e : Engine) : Nat → Machine → Served × Machine
  | 0, m => (.idle, m)
  | fuel + 1, m =>
    match m.world.ready with
    | t :: rest =>
      let m := { m with world := { m.world with ready := rest } }
      if t = World.host then
        (.host, { m with world := m.world.modifyTask t fun r => { r with queued := false } })
      else
        match m.resume e t with
        | some m => serve e fuel m
        | none => (.overrun, m)
    | [] =>
      match m.world.tick with
      | some w => serve e fuel { m with world := w }
      | none => (.idle, m)

/-! ## Calls of the host -/

/-- How a call of the host ended. -/
inductive Outcome (α : Type) where
  | returned (a : α)
  | timedOut
  /-- It waits for something that can not happen any more. -/
  | stuck
  /-- The engine has died of a turn that never ends. -/
  | overrun

/-- Take back the timer of a call. -/
def dropCallTimer (w : World) : World :=
  { w with timers := w.timers.filter fun x => !x.outer }

/-- Set the timer of a call, once. -/
def setCallTimer (w : World) (deadline : Option Nat) : World :=
  match deadline with
  | some d =>
    if w.timers.any Timer.outer then w else { w with timers := w.timers ++ [⟨d, World.host, true⟩] }
  | none => w

/-- The state after the host has given up a call. -/
def giveUp (w : World) (p : Execution α) : World := dropCallTimer (forsake w World.host p)

/-- Run an execution of the host and, while it waits, the tasks. At the deadline the call is
dropped, unless it can go on. -/
def drive (e : Engine) (deadline : Option Nat) : Nat → Machine → Execution α → Outcome α × Machine
  | 0, m, p => (.stuck, { m with world := giveUp m.world p })
  | fuel + 1, m, p =>
    let (p, w) := e.poll World.host stepLimit m.world p
    match p with
    | .done a => (.returned a, { m with world := dropCallTimer w })
    | .pause q k =>
      if (deadline.map fun d => decide (d ≤ w.clock)).getD false then
        (.timedOut, { m with world := giveUp w (.pause q k) })
      else
        match serve e turnLimit { m with world := setCallTimer (w.await World.host q) deadline } with
        | (.host, m) => drive e deadline fuel m (.pause q k)
        | (.idle, m) => (.stuck, { m with world := giveUp m.world (.pause q k) })
        | (.overrun, m) => (.overrun, m)
    | _ => (.overrun, { m with world := w })

/-- Run an execution of the host, for at most some milliseconds. -/
def call (e : Engine) (m : Machine) (limit : Option Nat) (p : Execution α) : Outcome α × Machine :=
  drive e (limit.map (m.world.clock + ·)) turnLimit m p

/-- Let some milliseconds pass, if the engine lives on. -/
def advance (e : Engine) (m : Machine) (milliseconds : Nat) : Option Machine :=
  match m.call e none (Execution.sleep (milliseconds * 1000000)) with
  | (.overrun, _) => none
  | (_, m) => some m

end Machine
end BlockEngine
