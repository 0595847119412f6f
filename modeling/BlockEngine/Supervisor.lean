import BlockEngine.Graph.Document
import BlockEngine.Library

/-!
# The supervisor

The supervisor keeps the content of every tab and at most one running generation of each. A
generation is torn down for good before the next one starts; whoever replaces or ends generations
does it alone (`Supervisor.alone`), the others wait in order.

* `create`, `save`, `delete` : the tabs and their contents;
* `reload`, `release`, `loadAll`, `shutdown` : their generations;
* `handle`, `evaluate` : blocks of a running generation, on behalf of the host.
-/

namespace BlockEngine

/-- Why the supervisor turns a request down. -/
inductive SupervisorError where
  | tabNotFound (id : String)
  | tabExists (id : String)
  | generalTabNotDeletable (id : String)
  | tabNotEmpty (id : String)
  | notRunning (id : String)
  | engine (e : EngineError)
deriving DecidableEq

def SupervisorError.message : SupervisorError → String
  | .tabNotFound id => s!"tab '{id}' not found"
  | .tabExists id => s!"tab '{id}' already exists"
  | .generalTabNotDeletable id => s!"the general tab '{id}' can not be deleted"
  | .tabNotEmpty id => s!"tab '{id}' still has content and can not be deleted"
  | .notRunning id => s!"tab '{id}' is not running"
  | .engine e => e.message

/-- A stored tab, given to the supervisor when the engine starts. -/
structure TabSource where
  id : String
  name : Option String
  content : String

/-- A request to the supervisor. -/
abbrev Request (α : Type) := ExceptT SupervisorError Execution α

namespace Supervisor

variable {α : Type}

/-! ## Turns -/

/-- Do something while no other caller replaces or ends a generation. -/
def alone (p : Execution α) : Execution α := do
  .pause .turn .done
  let a ← p
  Execution.change World.passTurn
  return a

/-- The entry of a tab, which has to be there. -/
def entry (id : String) : Request TabEntry := do
  match (← (Execution.look : Execution World)).tab? id with
  | some entry => return entry
  | none => throw (.tabNotFound id)

def modifyTab (id : String) (f : TabEntry → TabEntry) : Execution Unit :=
  Execution.change (·.modifyTab id f)

/-- Give a tab a status and take its generation away; the entry of the tab before. -/
def retire (id : String) (status : TabStatus) : Request TabEntry :=
  ExceptT.mk <| Execution.atomically fun w =>
    match w.tab? id with
    | some entry =>
      (.ok entry, w.modifyTab id fun entry => { entry with status, generation := none })
    | none => (.error (.tabNotFound id), w)

/-- Take out the entry of a tab, which has to be empty. -/
def withdraw (id : String) : Request TabEntry :=
  ExceptT.mk <| Execution.atomically fun w =>
    match w.tab? id with
    | some entry =>
      if (isEmptyContent entry.content).toOption.getD false then
        (.ok entry, { w with tabs := Keyed.erase id w.tabs })
      else (.error (.tabNotEmpty id), w)
    | none => (.error (.tabNotFound id), w)

/-! ## Ending a generation -/

/-- Wait for the end of tasks, one after the other. -/
def awaitAll : List TaskId → Execution Unit
  | [] => return ()
  | t :: rest => do
    .pause (.ended t) .done
    awaitAll rest

/-- Ask tasks to end, one after the other. -/
def cancelAll : List TaskId → Execution Unit
  | [] => return ()
  | t :: rest => do
    Execution.change (·.cancel t)
    cancelAll rest

/-- Destroy a generation, cancel its tasks and wait until they have ended. -/
def endTasks (g : Generation) : Execution Unit := do
  let ts ← Execution.atomically fun w => w.destroy g.number
  cancelAll ts
  awaitAll ts

/-- End a generation of a tab: its locks and listeners go, its tasks are cancelled and have ended.
Locks that the tasks made until then go as well. -/
def teardown (id : String) (g : Option Generation) : Execution Unit := do
  Execution.change (·.releaseLocks id)
  if let some g := g then
    let _ ← Execution.atomically fun w => w.releaseBlocks g.number
    endTasks g
  Execution.change (·.releaseLocks id)

/-! ## Starting a generation -/

/-- A block of a generation at the top level, under a context of its own. -/
def rootSite (g : Generation) (b : Block) : Execution Site := do
  return ⟨g, b, 0, ← Execution.rootContext g.tab⟩

/-- The roots of a generation. -/
def rootSites (g : Generation) : Execution (List Site) := g.graph.roots.mapM (rootSite g)

/-- Handle blocks one after the other and report their errors. -/
def handleAll : List Site → Execution Unit
  | [] => return ()
  | s :: rest => do
    Attempt.conclude s (Attempt.handle s)
    handleAll rest

/-- Start a task for each of some roots. -/
def spawnRoots (sites : List Site) : Execution (List TaskId) := do
  let tasks ← sites.mapM fun s => Execution.spawn s s.context (.root s)
  return tasks.filterMap id

/-- Declare variables. -/
def declareVariables (declared : List (String × String × Json)) : Execution Unit :=
  Execution.change fun w =>
    { w with
      vars := declared.foldl (fun vs (id, name, initial) => vs.declare id name initial)
        w.vars }

/-- Start the roots of a generation. The roots that run once come first, without tasks. Hats are
next and have the poll interval to get ready, so that the commands started last are heard. -/
def startRoots (e : Engine) (g : Generation) : Execution Unit := do
  let sites ← rootSites g
  let (once, others) := sites.partition fun s => Library.isOnce s.block.opcode
  let (hats, commands) := others.partition fun s => e.registry.kind? s.block.opcode = some .hat
  handleAll once
  let started ← spawnRoots hats
  let w ← Execution.look
  .pause (.allEnded started (w.clock + e.settings.pollInterval)) .done
  let _ ← spawnRoots commands

/-- The graph of a content, unless it holds nothing worth running. -/
def contentGraph? (content : String) : Except EngineError (Option Graph) := do
  if ← isEmptyContent content then return none
  else return some (← Graph.parse content)

/-- Start a generation of a tab from its content; empty content starts none. -/
def start (e : Engine) (id name content : String) : Attempt (Option Generation) := do
  match ← Attempt.ofExcept (contentGraph? content) with
  | none => return none
  | some graph =>
    declareVariables graph.declaredVariables
    let g ← (Execution.atomically fun w => w.newGeneration id name graph : Execution Generation)
    startRoots e g
    return some g

/-! ## Generations -/

/-- Replace the generation of a tab by one made from its content. A failure is reported once and
leaves the tab stopped. -/
def reload (e : Engine) (id : String) : Request Unit :=
  ExceptT.mk <| alone <| ExceptT.run do
    let old ← retire id .reloading
    teardown id old.generation
    modifyTab id fun entry => { entry with status := .parsing }
    match ← (ExceptT.run (start e id old.name old.content) :
        Execution (Except EngineError (Option Generation))) with
    | .ok g =>
      modifyTab id fun entry =>
        { entry with
          status := if g.isSome then .running else .unloaded
          generation := g }
    | .error err =>
      Execution.change fun w =>
        w.notify .error (some id) s!"Unable to load tab '{old.name}': {err.message}"
      modifyTab id fun entry => { entry with status := .stopped (some err.message) }
      throw (.engine err)

/-- End the generation of a tab and keep its content. -/
def release (id : String) : Request Unit :=
  ExceptT.mk <| alone <| ExceptT.run do
    let old ← retire id (.stopped none)
    teardown id old.generation

/-- End the generations of tabs, one after the other. -/
def teardownAll : List (String × TabEntry) → Execution Unit
  | [] => return ()
  | (id, entry) :: rest => do
    teardown id entry.generation
    teardownAll rest

/-- End every generation and every lock. -/
def shutdown : Execution Unit := alone do
  let tabs ← Execution.atomically fun w =>
    (w.tabs, { w with
               tabs := w.tabs.map fun (id, entry) =>
                 (id, { entry with status := .stopped none, generation := none }) })
  teardownAll tabs
  Execution.change World.releaseAllLocks

/-! ## Tabs -/

/-- Add a tab, which does not start it. -/
def create (id name content : String) : Request Unit :=
  ExceptT.mk <| Execution.atomically fun w =>
    if (w.tab? id).isSome then (.error (.tabExists id), w)
    else (.ok (), { w with tabs := Keyed.insert id (.new name content) w.tabs })

/-- Store the content of a tab, which may be new, and reload it. -/
def save (e : Engine) (id content : String) : Request Unit := do
  Execution.change (·.putTab id id fun entry => { entry with content })
  reload e id

/-- Delete a tab and end its generation. The general tab stays, and so does a tab with content. -/
def delete (e : Engine) (id : String) : Request Unit := do
  if id = e.generalTab then throw (.generalTabNotDeletable id)
  ExceptT.mk <| alone <| ExceptT.run do
    let old ← withdraw id
    teardown id old.generation

/-- Reload tabs one after the other; how many could be loaded. -/
def reloadAll (e : Engine) : List String → Execution Nat
  | [] => return 0
  | id :: rest => do
    let result ← ExceptT.run (reload e id)
    let loaded ← reloadAll e rest
    return loaded + (if result.isOk then 1 else 0)

/-- Take in stored tabs; their ids. The general tab is made if it is not there. -/
def takeIn (e : Engine) (sources : List TabSource) (w : World) : List String × World :=
  let general :=
    if sources.any (·.id = e.generalTab) || (w.tab? e.generalTab).isSome then []
    else [e.generalTab]
  let w := general.foldl (fun w id => w.putTab id id fun entry => entry) w
  (general ++ sources.map (·.id), sources.foldl (fun w s => w.putTab s.id s.id fun entry =>
    { entry with name := s.name.getD s.id, content := s.content }) w)

/-- Take in stored tabs and start each; how many could be loaded. -/
def loadAll (e : Engine) (sources : List TabSource) : Execution Nat := do
  reloadAll e (← Execution.atomically (takeIn e sources))

/-! ## Questions -/

/-- The status of a tab, with the number of its tasks while it runs. -/
def status? (w : World) (id : String) : Option (TabStatus × Nat) :=
  (w.tab? id).map fun entry =>
    (entry.status, (entry.generation.map fun g => w.runningTasks g.number).getD 0)

/-- The running generation of a tab. -/
def generation? (w : World) (id : String) : Option Generation :=
  (w.tab? id).bind (·.generation)

/-- A block of the running generation of a tab, under a context of its own. -/
def runningSite (id block : String) : Request Site := do
  match (← entry id).generation with
  | none => throw (.notRunning id)
  | some g =>
    let c ← Execution.rootContext id
    match Site.root g c block with
    | .ok s => return s
    | .error err => throw (.engine err)

/-- Run the chain from a block of a running tab on. -/
def handle (id block : String) : Request Signal := do
  (Attempt.handle (← runningSite id block)).adapt SupervisorError.engine

/-- Evaluate a block of a running tab. -/
def evaluate (id block : String) : Request Json := do
  (Attempt.evaluate (← runningSite id block)).adapt SupervisorError.engine

end Supervisor
end BlockEngine
