import BlockEngine.Graph.Block

/-!
# Block graphs

The blocks of one tab in document order, each id once.

* `Graph.get?`, `Graph.nextOf?`, `Graph.parentOf?` : following links;
* `Graph.chain` : the ids along the `next` links, cut at the first repeated one;
* `Graph.roots` : the blocks that start a tree;
* `Graph.ensure` : the graph with a placeholder for an id it lacks;
* `Graph.declaredVariables` : the variables the document declares.
-/

namespace BlockEngine

/-- The blocks of a tab and the rest of its document. -/
structure Graph where
  blocks : List Block
  extra : Keyed Json

namespace Graph

def get? (g : Graph) (id : String) : Option Block := g.blocks.find? (·.id = id)

def contains (g : Graph) (id : String) : Bool := g.blocks.any (·.id = id)

def size (g : Graph) : Nat := g.blocks.length

def ids (g : Graph) : List String := g.blocks.map (·.id)

/-- The block with an id, or the error that there is none. -/
def block (g : Graph) (id : String) : Except EngineError Block :=
  match g.get? id with
  | some b => .ok b
  | none => .error (.malformedGraph (.blockNotFound id))

def nextOf? (g : Graph) (id : String) : Option Block :=
  (g.get? id).bind fun b => b.next.bind g.get?

def parentOf? (g : Graph) (id : String) : Option Block :=
  (g.get? id).bind fun b => b.parent.bind g.get?

/-- The blocks that start a tree, in document order. -/
def roots (g : Graph) : List Block := g.blocks.filter Block.isRoot

/-- The ids from `current` on along `next`, as long as they are new; no more than `fuel`. -/
def chainFrom (g : Graph) : Nat → List String → Option Block → List String
  | 0, _, _ => []
  | _, _, none => []
  | fuel + 1, seen, some b =>
    if seen.contains b.id then []
    else b.id :: g.chainFrom fuel (b.id :: seen) (b.next.bind g.get?)

/-- The ids along the `next` links from `start`, cut at the first repeated one. A chain is no
longer than the graph. -/
def chain (g : Graph) (start : String) : List String :=
  g.chainFrom (g.size + 1) [] (g.get? start)

/-- The graph with a placeholder at its end if it lacks the id. -/
def ensure (g : Graph) (id : String) : Graph :=
  if g.contains id then g else { g with blocks := g.blocks ++ [.placeholder id] }

/-- The graph with the block put in the place of the one with its id. -/
def define (g : Graph) (b : Block) : Graph :=
  { g with blocks := g.blocks.map fun old => if old.id = b.id then b else old }

/-- The variables a document declares, as id, name and first value, in the order of their ids. -/
def declaredVariables (g : Graph) : List (String × String × Json) :=
  match Keyed.get? "variables" g.extra with
  | some (.obj declared) =>
    declared.filterMap fun (id, entry) =>
      match entry with
      | .arr (name :: rest) => some (id, name.toText, rest.head?.getD .null)
      | _ => none
  | _ => []

end Graph
end BlockEngine
