import BlockEngine.Graph

/-!
# Writing graphs

`Graph.toJson` is the document of a graph, `Graph.text` its JSON text. What the engine reads is
written from the blocks, the editor's own data as it was read.
-/

namespace BlockEngine

def Field.toJson (f : Field) : Json := .arr [f.value, Json.ofOption f.id]

/-- A block as a member of a document. -/
def Block.toJson (b : Block) : Json :=
  let own :=
    [("opcode", Json.str b.opcode.text), ("shadow", .bool b.shadow), ("topLevel", .bool b.topLevel),
     ("parent", Json.ofOption b.parent), ("next", Json.ofOption b.next),
     ("fields", .object (b.fields.map fun (k, f) => (k, f.toJson))),
     ("inputs", .object (b.inputs.map fun (k, items) => (k, .arr items)))]
  let mutation :=
    match b.mutation with
    | some m => [("mutation", Json.obj m.members)]
    | none => []
  .object (b.extra ++ own ++ mutation)

namespace Graph

/-- The blocks of a graph as an object, in key order. -/
def blocksJson (g : Graph) : Json := .object (g.blocks.map fun b => (b.id, b.toJson))

/-- The document of a graph. -/
def toJson (g : Graph) : Json :=
  .object [("target", .obj (Keyed.insert "blocks" g.blocksJson g.extra))]

/-- The text of the document of a graph. -/
def text (g : Graph) : String := g.toJson.text

end Graph
end BlockEngine
