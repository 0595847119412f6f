import BlockEngine.Keyed
import BlockEngine.Path

/-!
# Storage

* `Storage` : what the engine needs of a file system, in any monad;
* `FileTree` : files and directories in memory; `FileTree.storage` : a storage on it.
-/

namespace BlockEngine

/-- A file system. A failed request answers nothing or false. -/
structure Storage (m : Type → Type) where
  isThere : String → m Bool
  isDirectory : String → m Bool
  /-- The text of a file. -/
  read? : String → m (Option String)
  /-- The names in a directory. -/
  list? : String → m (Option (List String))
  /-- Make a directory and those around it; whether it is there now. -/
  makeDirectory : String → m Bool

/-- Files and directories by the segments of their paths. -/
structure FileTree where
  files : List (List String × String)
  directories : List (List String)

namespace FileTree

def empty : FileTree := ⟨[], []⟩

def isFile (t : FileTree) (p : List String) : Bool := t.files.any (·.1 = p)

/-- The paths of all files and directories. -/
def paths (t : FileTree) : List (List String) := t.files.map (·.1) ++ t.directories

/-- Whether a path is that of a directory, made for itself or for something in it. -/
def isDirectory (t : FileTree) (p : List String) : Bool :=
  p.isEmpty || t.directories.contains p ||
    t.paths.any fun q => p.isPrefixOf q && p.length < q.length

def isThere (t : FileTree) (p : List String) : Bool := t.isFile p || t.isDirectory p

/-- The tree with a directory, unless a file is in the way. -/
def makeDirectory (t : FileTree) (p : List String) : Option FileTree :=
  if (List.range (p.length + 1)).any fun n => t.isFile (p.take n) then none
  else some { t with directories := p :: t.directories }

/-- The names in a directory, each once. -/
def names (t : FileTree) (p : List String) : List String :=
  (t.paths.filterMap fun q => if p.isPrefixOf q then q[p.length]? else none).eraseDups

/-- The tree as a storage. -/
def storage : Storage (StateM FileTree) where
  isThere p := do return (← get).isThere (Path.segments p)
  isDirectory p := do return (← get).isDirectory (Path.segments p)
  read? p := do return (← get).files.lookup (Path.segments p)
  list? p := do
    let t ← get
    let p := Path.segments p
    return if t.isDirectory p then some (t.names p) else none
  makeDirectory p := do
    match (← get).makeDirectory (Path.segments p) with
    | some t =>
      set t
      return true
    | none => return false

end FileTree
end BlockEngine
