import BlockEngine.Graph
import BlockEngine.Registry

/-!
# Sites: blocks in execution

* `Context` : where an execution comes from;
* `Generation` : one parse of a tab;
* `Settings` : the limits of the engine;
* `Site` : a block of a generation at a depth of nesting, run under a context. `Site.child?`,
  `Site.next?` and `Site.parent?` follow the links of its block.
-/

namespace BlockEngine

/-- Named value that holds the last result of a block. -/
def valueKey : String := "value"

/-- Named value that holds the iteration number of a loop, counted from zero. -/
def indexKey : String := "INDEX"

/-- Where an execution comes from: its own number, its tab, and the context it was started in. -/
structure Context where
  id : Nat
  tab : Option String
  parent : Option Nat
deriving DecidableEq, Inhabited

/-- The context of an execution started in this one. -/
def Context.child (c : Context) (id : Nat) : Context := ⟨id, c.tab, some c.id⟩

/-- One parse of a tab. The number tells it from every other one. -/
structure Generation where
  number : Nat
  tab : String
  tabName : String
  graph : Graph

/-- The pause between iterations is never shorter than this many milliseconds. -/
def minLoopInterval : Nat := 100

/-- The limits of the engine; intervals are in milliseconds. -/
structure Settings where
  loopInterval : Nat
  pollInterval : Nat
  maxDepth : Nat
deriving DecidableEq

/-- Settings with the loop interval and the depth raised to their least values. -/
def Settings.normalized (s : Settings) : Settings :=
  { s with loopInterval := max s.loopInterval minLoopInterval, maxDepth := max s.maxDepth 1 }

/-- A block in execution. -/
structure Site where
  generation : Generation
  block : Block
  depth : Nat
  context : Context

namespace Site

def id (s : Site) : String := s.block.id

def tab (s : Site) : String := s.generation.tab

/-- What the tasks of this block are called. -/
def description (s : Site) : String := s.generation.tabName ++ ": " ++ s.block.opcode.describe

/-- The block of an id where an execution starts. -/
def root (g : Generation) (context : Context) (id : String) : Except EngineError Site := do
  return ⟨g, ← g.graph.block id, 0, context⟩

/-- Another block of the graph at a depth, which must not pass the limit. -/
def goTo (s : Site) (limit : Nat) (id : String) (depth : Nat) : Except EngineError Site :=
  if limit < depth then .error (.malformedGraph (.tooDeep limit id))
  else do return { s with block := ← s.generation.graph.block id, depth }

/-- A block nested in this one. -/
def child (s : Site) (limit : Nat) (id : String) : Except EngineError Site :=
  s.goTo limit id (s.depth + 1)

/-- The block linked after this one, at the same depth; none where the link leads nowhere. -/
def next? (s : Site) (limit : Nat) : Option Site :=
  s.block.next.bind fun id => (s.goTo limit id s.depth).toOption

/-- The block this one is nested in. -/
def parent? (s : Site) (limit : Nat) : Option Site :=
  s.block.parent.bind fun id => (s.goTo limit id (s.depth - 1)).toOption

def withContext (s : Site) (c : Context) : Site := { s with context := c }

/-- An error as raised in this block. -/
def annotate (s : Site) (e : EngineError) : EngineError := e.inBlock s.tab s.id s.block.opcode

end Site
end BlockEngine
