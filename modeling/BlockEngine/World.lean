import BlockEngine.Lock
import BlockEngine.Notification
import BlockEngine.Site
import BlockEngine.Variables
import Std.Data.ExtTreeMap

/-!
# The state of a running engine

`World` is everything that executions share: locks, variables, notifications, the values and tasks
of every generation, the tabs, and the queue, timers and clock that decide who runs next. It is
plain data. What a subscription does (`Reaction`), what runs when a tab is released (`Listener`)
and what a task works on (`Job`) are data too, so that a state can be looked through.
-/

namespace BlockEngine

abbrev TaskId := Nat

/-! ## What is left to be done later -/

/-- What a watcher of an input compares between two looks. -/
inductive WatchKind where
  /-- The value itself; the first one that is not null is a change. -/
  | value
  /-- Its truth; the first one is a change. -/
  | condition
deriving DecidableEq

/-- What a subscription of the host does after noting the value. A missing value is the one it
received. -/
inductive HostAct where
  | nothing
  | signal (tab key : String) (value : Option Json)
  | write (id : String) (value : Option Json)
  | unsubscribe (name : String)
  | release (tab : String)

/-- What a subscription does with a value it accepts. -/
inductive Reaction where
  /-- Start the chain of a hat. -/
  | start (hat : Site)
  /-- Keep the value on the hat, then start its chain. -/
  | keepAndStart (hat : Site)
  /-- Keep the value on the hat, then start its chain if the value passes a filter made then. -/
  | keepAndStartIf (hat : Site) (operator : ChangeOperator)
  /-- Copy the value, or its truth, to a variable. -/
  | link (id : String) (asTruth : Bool)
  /-- Run the body of a procedure, with its arguments as pairs of an id and a name. -/
  | runBody (definition : Site) (arguments : List (String × String)) (returns : LockId)
  /-- Keep the value on the owner, then run its body. -/
  | keepAndRun (owner body : Site)
  /-- Note the value in the journal under a name, then act for the host. -/
  | host (name : String) (act : HostAct)

/-- What runs when the blocks of a tab are released. -/
inductive Listener where
  | unsubscribe (lock : LockId) (id : SubscriptionId)
  | host (name : String)

/-- What a task of the engine works on. -/
inductive Job where
  /-- Run a block for what it is, an expression or a chain. -/
  | root (site : Site)
  | chain (site : Site)
  /-- Run a chain if a value passes the filter of a hat. -/
  | chainIf (hat : Site) (operator : ChangeOperator) (value : Json) (next : Site)
  /-- Run the body of a procedure for a request and reply on its return lock. -/
  | body (site : Site) (arguments : List (String × String)) (request : Json) (returns : LockId)
  /-- Cancel a context after some nanoseconds. -/
  | stopAfter (generation context nanoseconds : Nat)
  /-- Look at an input again and again and signal its changes. -/
  | watch (site : Site) (lock : LockId) (input : String) (kind : WatchKind)

/-- The number of the generation a job is done for. -/
def Job.owner : Job → Nat
  | .root s | .chain s | .chainIf s .. | .body s .. | .watch s .. => s.generation.number
  | .stopAfter g .. => g

/-! ## Parts of the state -/

/-- A task that a generation keeps track of. -/
structure Tracked where
  task : TaskId
  description : String
  context : Context

/-- What a generation of a tab holds: the named values of its blocks, its listeners and tasks. -/
structure GenerationState where
  tab : String
  values : Keyed (Keyed Json)
  listeners : List (String × Listener)
  tracked : List Tracked
  destroyed : Bool

def GenerationState.new (tab : String) : GenerationState := ⟨tab, [], [], [], false⟩

/-- The standing of a task. `observers` wait for its end. -/
structure TaskRecord where
  job : Option Job
  queued : Bool
  cancelled : Bool
  ended : Bool
  observers : List TaskId

/-- The state of a tab. -/
inductive TabStatus where
  | unloaded
  | parsing
  | running
  | reloading
  | stopped (lastError : Option String)
deriving DecidableEq

/-- A tab of the supervisor. -/
structure TabEntry where
  name : String
  content : String
  status : TabStatus
  generation : Option Generation

def TabEntry.new (name content : String) : TabEntry := ⟨name, content, .unloaded, none⟩

/-- Who may change the running generations: one caller at a time, the others in order. -/
structure Turn where
  holder : Option TaskId
  queue : List TaskId

/-- A time at which a task goes on. An `outer` one ends a whole call of the host. -/
structure Timer where
  deadline : Nat
  task : TaskId
  outer : Bool
deriving DecidableEq

/-- The state of a running engine. Task zero stands for the host. -/
structure World where
  issued : Nat
  locks : LockTable Reaction
  vars : Variables
  notifications : Notifications
  generations : Std.ExtTreeMap Nat GenerationState
  tasks : Std.ExtTreeMap TaskId TaskRecord
  taskCount : Nat
  tabs : Keyed TabEntry
  turn : Turn
  journal : List (String × Json)
  subscriptionNames : Keyed (LockId × SubscriptionId)
  readers : List (MailboxId × TaskId)
  ready : List TaskId
  timers : List Timer
  clock : Nat

namespace World

/-- The task that stands for the host. -/
def host : TaskId := 0

/-- The state before anything has happened. -/
def start (capacity : Nat) : World where
  issued := 0
  locks := .empty
  vars := []
  notifications := .ofCapacity capacity
  generations := ∅
  tasks := (∅ : Std.ExtTreeMap TaskId TaskRecord).insert host ⟨none, false, false, false, []⟩
  taskCount := 1
  tabs := []
  turn := ⟨none, []⟩
  journal := []
  subscriptionNames := []
  readers := []
  ready := []
  timers := []
  clock := 0

/-- A number never given before. -/
def fresh (w : World) : Nat × World := (w.issued, { w with issued := w.issued + 1 })

/-! ## Tasks -/

def task? (w : World) (t : TaskId) : Option TaskRecord := w.tasks[t]?

def modifyTask (w : World) (t : TaskId) (f : TaskRecord → TaskRecord) : World :=
  match w.tasks[t]? with
  | some r => { w with tasks := w.tasks.insert t (f r) }
  | none => w

/-- Whether a task has ended; one that never was has. -/
def isEnded (w : World) (t : TaskId) : Bool := ((w.task? t).map (·.ended)).getD true

/-- Put a task at the end of the queue, unless it is there or has ended. -/
def wake (w : World) (t : TaskId) : World :=
  match w.task? t with
  | some r =>
    if r.queued || r.ended then w
    else { w.modifyTask t fun r => { r with queued := true } with ready := w.ready ++ [t] }
  | none => w

def wakeAll (w : World) (ts : List TaskId) : World := ts.foldl wake w

/-- Wake the readers of mailboxes. -/
def wakeReaders (w : World) (ms : List MailboxId) : World :=
  w.wakeAll (ms.filterMap fun m => w.readers.lookup m)

/-- Ask a task to end. It does so when its turn in the queue comes. -/
def cancel (w : World) (t : TaskId) : World :=
  if w.isEnded t then w
  else (w.modifyTask t fun r => { r with cancelled := true }).wake t

/-- A new task in the queue. -/
def newTask (w : World) (job : Job) : TaskId × World :=
  let t := w.taskCount
  (t, { w with
        taskCount := t + 1
        tasks := w.tasks.insert t ⟨some job, true, false, false, []⟩
        ready := w.ready ++ [t] })

/-! ## Generations -/

def generation? (w : World) (g : Nat) : Option GenerationState := w.generations[g]?

def modifyGeneration (w : World) (g : Nat) (f : GenerationState → GenerationState) : World :=
  match w.generations[g]? with
  | some s => { w with generations := w.generations.insert g (f s) }
  | none => w

/-- A new generation of a tab. -/
def newGeneration (w : World) (tab tabName : String) (graph : Graph) : Generation × World :=
  let (n, w) := w.fresh
  (⟨n, tab, tabName, graph⟩, { w with generations := w.generations.insert n (.new tab) })

def isDestroyed (w : World) (g : Nat) : Bool := ((w.generation? g).map (·.destroyed)).getD true

def tracked (w : World) (g : Nat) : List Tracked := ((w.generation? g).map (·.tracked)).getD []

/-- The number of tracked tasks that have not ended. -/
def runningTasks (w : World) (g : Nat) : Nat :=
  ((w.tracked g).filter fun t => !w.isEnded t.task).length

/-- Start a tracked task, unless the generation is destroyed. Ended tasks are forgotten then. -/
def spawn (w : World) (g : Nat) (description : String) (context : Context) (job : Job) :
    Option TaskId × World :=
  if w.isDestroyed g then (none, w)
  else
    let (t, w) := w.newTask job
    (some t, w.modifyGeneration g fun s =>
      { s with tracked := s.tracked.filter (fun t => !w.isEnded t.task) ++
          [⟨t, description, context⟩] })

/-- The tracked tasks of a context that have not ended. -/
def ofContext (w : World) (g context : Nat) : List TaskId :=
  ((w.tracked g).filter fun t => t.context.id = context && !w.isEnded t.task).map (·.task)

/-- Cancel the tasks of a context; how many there were. -/
def cancelContext (w : World) (g context : Nat) : Nat × World :=
  let ts := w.ofContext g context
  (ts.length, ts.foldl cancel w)

/-- Destroy a generation: it takes no tasks any more, and those it had are not its own any more. -/
def destroy (w : World) (g : Nat) : List TaskId × World :=
  ((w.tracked g).map (·.task),
    w.modifyGeneration g fun s => { s with tracked := [], destroyed := true })

/-! ## Named values -/

/-- The named value stored on exactly this block. -/
def ownValue? (w : World) (g : Nat) (block key : String) : Option Json :=
  (w.generation? g).bind fun s => (Keyed.get? block s.values).bind (Keyed.get? key)

/-- Store a named value, without telling anybody. -/
def storeValue (w : World) (g : Nat) (block key : String) (v : Json) : World :=
  w.modifyGeneration g fun s =>
    { s with
      values := Keyed.insert block (Keyed.insert key v ((Keyed.get? block s.values).getD []))
        s.values }

/-- The named value of the first of `fuel` blocks that has one, going from parent to parent. -/
def valueFrom? (w : World) (g : Generation) (key : String) : Nat → Option Block → Option Json
  | 0, _ => none
  | _, none => none
  | fuel + 1, some b =>
    match w.ownValue? g.number b.id key with
    | some v => some v
    | none => w.valueFrom? g key fuel (b.parent.bind g.graph.get?)

/-- The named value of a block or of the closest block around it that has one. -/
def value? (w : World) (g : Generation) (block key : String) : Option Json :=
  w.valueFrom? g key (g.graph.size + 1) (g.graph.get? block)

/-! ## Locks -/

/-- Do something to the locks. -/
def withLocks {α : Type} (w : World) (f : LockTable Reaction → α × LockTable Reaction) :
    α × World :=
  let (a, locks) := f w.locks
  (a, { w with locks })

/-- Store a value on a lock and serve its waiters; the number of them, and the reactions. -/
def deliver (w : World) (l : LockId) (v : Json) : (Nat × List Reaction) × World :=
  let ((woken, reactions), w) := w.withLocks (·.deliver l v)
  ((woken.length, reactions), w.wakeReaders woken)

/-- End every lock of a tab. -/
def releaseLocks (w : World) (tab : String) : World :=
  let (woken, w) := w.withLocks (·.release tab)
  w.wakeReaders woken

/-- End every lock. -/
def releaseAllLocks (w : World) : World :=
  let (woken, w) := w.withLocks (·.releaseAll)
  w.wakeReaders woken

/-! ## Listeners, notifications, journal -/

def addListener (w : World) (g : Nat) (block : String) (l : Listener) : World :=
  w.modifyGeneration g fun s => { s with listeners := s.listeners ++ [(block, l)] }

def note (w : World) (name : String) (v : Json) : World :=
  { w with journal := w.journal ++ [(name, v)] }

/-- Run one listener. -/
def runListener (w : World) : Listener → World
  | .unsubscribe l id => (w.withLocks (·.unsubscribe l id)).2
  | .host name => w.note "released" (.str name)

/-- Run and forget the listeners of a generation; how many there were. -/
def releaseBlocks (w : World) (g : Nat) : Nat × World :=
  let ls := ((w.generation? g).map (·.listeners)).getD []
  let w := w.modifyGeneration g fun s => { s with listeners := [] }
  (ls.length, ls.foldl (fun w l => w.runListener l.2) w)

def notify (w : World) (level : Level) (tab : Option String) (message : String) : World :=
  { w with notifications := w.notifications.push level tab message }

/-- Report the error that ended an execution. The release of a lock under a waiter is the end of
its tab and not reported. -/
def report (w : World) (tab : String) (e : EngineError) : World :=
  if e.isRelease then w else w.notify .error (some tab) e.message

/-! ## Tabs -/

def tab? (w : World) (id : String) : Option TabEntry := Keyed.get? id w.tabs

def modifyTab (w : World) (id : String) (f : TabEntry → TabEntry) : World :=
  match w.tab? id with
  | some e => { w with tabs := Keyed.insert id (f e) w.tabs }
  | none => w

/-- Change a tab that may be new; a new one is named `name` first. -/
def putTab (w : World) (id name : String) (f : TabEntry → TabEntry) : World :=
  { w with tabs := Keyed.insert id (f ((w.tab? id).getD (.new name ""))) w.tabs }

end World
end BlockEngine
