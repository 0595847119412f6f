import BlockEngine.LockKey
import BlockEngine.World.Pause

/-!
# Executions

An execution acts on the state of the engine, pauses, signals a lock, evaluates a block or runs a
routine, and goes on with the answer. Every execution is a finite tree; what can go on for ever is a
routine, one turn of which is an execution again.

* `Execution`, with its monad;
* `Routine` : the loops of the engine;
* `Attempt` : an execution that may fail with an error.
-/

namespace BlockEngine

/-- When a loop ends. -/
inductive LoopRule where
  | forever
  | times (n : Nat)
  /-- As long as the condition of the loop block holds before an iteration. -/
  | whileCondition
deriving DecidableEq

/-- A loop: its block, its body, the pause between iterations in nanoseconds. -/
structure Loop where
  site : Site
  body : Site
  interval : Nat
  rule : LoopRule

/-- Something that goes on, turn by turn, until it ends with a signal. -/
inductive Routine where
  /-- A chain from a block on; the ids run before are not run again. -/
  | chain (visited : List String) (site : Site)
  /-- A loop from an iteration on. -/
  | loop (l : Loop) (index : Nat)
  /-- Wait for the condition of a block. -/
  | waitUntil (site : Site) (lock : LockId)
  /-- Look at an input for changes from the last value on. -/
  | watch (site : Site) (lock : LockId) (input : String) (kind : WatchKind) (last : Option Json)

/-- What an execution does until it is done. -/
inductive Execution (α : Type) where
  | done (a : α)
  /-- Change the state in one step and go on with the state before. -/
  | act (f : World → World) (k : World → Execution α)
  | pause (p : Pause) (k : p.Reply → Execution α)
  /-- Signal a lock and run all reactions; the answer is the number of those who accepted. -/
  | signal (lock : LockId) (value : Json) (k : Nat → Execution α)
  | evaluate (site : Site) (k : Except EngineError Json → Execution α)
  | run (r : Routine) (k : Except EngineError Signal → Execution α)

namespace Execution

variable {α β : Type}

def bind : Execution α → (α → Execution β) → Execution β
  | .done a, k => k a
  | .act f g, k => .act f fun w => (g w).bind k
  | .pause p g, k => .pause p fun r => (g r).bind k
  | .signal l v g, k => .signal l v fun n => (g n).bind k
  | .evaluate s g, k => .evaluate s fun r => (g r).bind k
  | .run r g, k => .run r fun s => (g s).bind k

instance : Monad Execution where
  pure := .done
  bind := bind

@[simp] theorem done_bind (a : α) (k : α → Execution β) : (Execution.done a).bind k = k a := rfl

theorem bind_done (p : Execution α) : p.bind .done = p := by
  induction p with
  | done a => rfl
  | act f g ih => simp [bind, ih]
  | pause p g ih => simp [bind, ih]
  | signal l v g ih => simp [bind, ih]
  | evaluate s g ih => simp [bind, ih]
  | run r g ih => simp [bind, ih]

theorem bind_assoc {γ : Type} (p : Execution α) (k : α → Execution β) (l : β → Execution γ) :
    (p.bind k).bind l = p.bind fun a => (k a).bind l := by
  induction p with
  | done a => rfl
  | act f g ih => simp [bind, ih]
  | pause p g ih => simp [bind, ih]
  | signal i v g ih => simp [bind, ih]
  | evaluate s g ih => simp [bind, ih]
  | run r g ih => simp [bind, ih]

/-! ## Steps on the state -/

/-- The state as it is. -/
def look : Execution World := .act id .done

/-- Change the state. -/
def change (f : World → World) : Execution Unit := .act f fun _ => .done ()

/-- Change the state in one step, with an answer. -/
def atomically (f : World → α × World) : Execution α :=
  .act (fun w => (f w).2) fun w => .done (f w).1

/-- Wait for some nanoseconds. -/
def sleep (nanoseconds : Nat) : Execution Unit := do
  let w ← look
  .pause (.time (w.after nanoseconds)) .done

def signalLock (l : LockId) (v : Json) : Execution Nat := .signal l v .done

/-- Wait for a mailbox, at most some milliseconds. -/
def receive (m : MailboxId) : Option Nat → Execution (Option Delivery)
  | none => .pause (.mail m none) .done
  | some ms => do
    let w ← look
    .pause (.mail m (some (w.clock + ms))) .done

/-- Wait for the next value of a lock, at most some milliseconds. -/
def awaitSignal (l : LockId) (ms : Nat) : Execution (Option Delivery) :=
  .act (fun w => (w.withLocks (·.register l .all)).2) fun w =>
    .pause (.mail (w.withLocks (·.register l .all)).1 (some (w.clock + ms))) .done

/-- Signal the lock that a tab holds under a key; whether there is one. -/
def signalKey (tab key : String) (v : Json) : Execution Bool := do
  let w ← look
  match w.locks.find? tab key with
  | some l =>
    let _ ← signalLock l v
    return true
  | none => return false

/-- Store a named value on a block. The last result of a block is told to the block's lock. -/
def setValue (g : Generation) (block key : String) (v : Json) : Execution Unit := do
  change fun w => w.storeValue g.number block key v
  if key = valueKey then
    let _ ← signalKey g.tab (LockKey.value block).text v

/-- Signal a list of locks, one after the other. -/
def signalLocks (v : Json) : List LockId → Execution Unit
  | [] => return ()
  | l :: rest => do
    let _ ← signalLock l v
    signalLocks v rest

/-- Signal the locks that all tabs hold under a key; how many there were. -/
def signalAllTabs (key : String) (v : Json) : Execution Nat := do
  let w ← look
  let ls := w.locks.acrossTabs key
  signalLocks v ls
  return ls.length

/-- Write a variable and tell every tab; the value before, unless it was null. -/
def writeVariable (id : String) (v : Json) : Execution (Option Json) := do
  let old ← atomically fun w =>
    (w.vars.value? id, { w with vars := w.vars.write id v })
  let _ ← signalAllTabs (LockKey.variableWrite id).text v
  return old.filter (!·.isNull)

/-- A new context for a tab. -/
def rootContext (tab : String) : Execution Context := do
  return ⟨← atomically World.fresh, some tab, none⟩

/-- Start a tracked task of a block's generation. -/
def spawn (s : Site) (c : Context) (job : Job) : Execution (Option TaskId) :=
  atomically fun w => w.spawn s.generation.number s.description c job

/-- Start a tracked task in a new context of a block. -/
def spawnIn (s : Site) (job : Context → Job) : Execution (Option TaskId) :=
  atomically fun w =>
    let (n, w) := w.fresh
    let c := s.context.child n
    w.spawn s.generation.number s.description c (job c)

/-- Start a task for the chain after a block, in a new context. -/
def spawnNext (limit : Nat) (s : Site) : Execution (Option TaskId) :=
  match s.next? limit with
  | none => return none
  | some next => spawnIn s fun c => .chain (next.withContext c)

/-- Start a task for a chain in a new context of a block. -/
def spawnChain (s chain : Site) : Execution (Option TaskId) :=
  spawnIn s fun c => .chain (chain.withContext c)

/-- A new number, from which identities and random values are made. -/
def draw : Execution Nat := atomically World.fresh

/-- The lock of a key in the tab of a block, made for that block if there is none. -/
def obtainLock (s : Site) (key : LockKey) : Execution LockId :=
  atomically fun w => w.withLocks (·.obtain s.tab s.id key.text)

/-- React to every value of a lock until the block is released. -/
def listen (s : Site) (lock : LockId) (reaction : Reaction) : Execution Unit :=
  change fun w =>
    let (id, w) := w.withLocks (·.subscribe lock .all reaction)
    w.addListener s.generation.number s.id (.unsubscribe lock id)

end Execution

/-! ## Attempts -/

/-- An execution that may fail. -/
abbrev Attempt (α : Type) := ExceptT EngineError Execution α

/-- What a block knows of the engine around it. -/
structure Environment where
  settings : Settings
  /-- The menu declared for an input of a block. -/
  menu? : Opcode → String → Option Menu
  /-- The entities the host knows by id; not every host has any. -/
  entities : Option (String → Option Json)

/-- What statements do. -/
abbrev StatementHandler := Environment → Site → Attempt Signal

/-- What expressions do. -/
abbrev ExpressionHandler := Environment → Site → Attempt Json

namespace Attempt

variable {α : Type}

def ofExcept (e : Except EngineError α) : Attempt α := ExceptT.mk (.done e)

/-- Name a block in the error of an attempt. -/
def annotated (s : Site) (a : Attempt α) : Attempt α :=
  ExceptT.mk ((ExceptT.run a).bind fun r => .done (r.mapError s.annotate))

/-- Evaluate a block. -/
def evaluate (s : Site) : Attempt Json := ExceptT.mk (.evaluate s .done)

/-- Run a routine to its end. -/
def routine (r : Routine) : Attempt Signal := ExceptT.mk (.run r .done)

/-- Run the chain from a block on. -/
def handle (s : Site) : Attempt Signal := routine (.chain [] s)

/-- Run an attempt for a block to its end and report its error. -/
def conclude (s : Site) (a : Attempt Signal) : Execution Unit := do
  match ← ExceptT.run a with
  | .ok _ => return ()
  | .error err => Execution.change fun w => w.report s.tab err

end Attempt

/-! ## The engine around executions -/

/-- What never changes while an engine runs. -/
structure Engine where
  registry : Registry StatementHandler ExpressionHandler
  settings : Settings
  entities : Option (String → Option Json)
  generalTab : String

/-- What the blocks of an engine know of it. -/
def Engine.environment (e : Engine) : Environment where
  settings := e.settings
  menu? o input := ((e.registry.lookup o).toOption).bind (·.menu? input)
  entities := e.entities

end BlockEngine
