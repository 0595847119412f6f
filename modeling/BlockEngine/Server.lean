import BlockEngine.Config
import BlockEngine.Machine
import BlockEngine.Supervisor

/-!
# The server

A server runs the engine of a configuration on the tabs of a directory. Every file `<id>.json` of
the directory is a tab.

* `Server.sources?` : the tabs of a directory;
* `Server.engine`, `Server.machine` : the engine of a configuration and its first state;
* `Server.load` : start every tab.
-/

namespace BlockEngine.Server

variable {m : Type → Type} [Monad m]

/-- The tab of a file name, if it is one of a tab. -/
def tabOf? (name : String) : Option String :=
  if Path.extension? name = some "json" then some (Path.stem name) else none

/-- The tabs of some names in a directory. Directories are no tabs; an unreadable file is a
failure. -/
def readAll (fs : Storage m) (dir : String) : List String → m (Option (Keyed TabSource))
  | [] => return some []
  | name :: rest => do
    let path := Path.join dir name
    match tabOf? name with
    | none => readAll fs dir rest
    | some id =>
      if ← fs.isDirectory path then readAll fs dir rest
      else
        match ← fs.read? path with
        | none => return none
        | some content =>
          return (← readAll fs dir rest).map (Keyed.insert id ⟨id, none, content⟩)

/-- The tabs of a directory, in the order of their ids. A directory that is not there is made. -/
def sources? (fs : Storage m) (dir : String) : m (Option (List TabSource)) := do
  if ← fs.isThere dir then
    match ← fs.list? dir with
    | some names => return (← readAll fs dir names).map Keyed.values
    | none => return none
  else if ← fs.makeDirectory dir then return some []
  else return none

/-- The engine of a configuration, with the core library. -/
def engine (c : Config) : Engine where
  registry := (Registry.empty.registerAll Library.core).1
  settings := c.settings.normalized
  entities := none
  generalTab := c.generalTab

/-- The state of the engine before anything has happened. -/
def machine (c : Config) : Machine := .start c.notificationCapacity

/-- Take in the tabs and start each; how many could be loaded. -/
def load (c : Config) (m : Machine) (sources : List TabSource) : Machine.Outcome Nat × Machine :=
  m.call (engine c) none (Supervisor.loadAll (engine c) sources)

end BlockEngine.Server
