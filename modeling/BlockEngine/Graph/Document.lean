import BlockEngine.Graph
import BlockEngine.Text.Quoted

/-!
# Documents of tabs

A document is an object with a member `target`; the target has the blocks under `blocks` and the
editor's groups beside them.

* `Document.ofText?` : the document of a text; the blocks keep the order of the text;
* `Document.ofValue` : the document of a value, with the reason when its shape is wrong;
* `Document.graph` : the block graph of a document, or the first fault in it;
* `Graph.parse` : the graph of a text;
* `isEmptyContent` : whether a text holds nothing worth keeping.
-/

namespace BlockEngine

/-- The target of a document: its blocks in order, each id once, and everything else. -/
structure Document where
  blocks : List (String × Json)
  extra : Keyed Json

/-! ## Shapes -/

/-- What a value is, as error messages name it. -/
def Json.typeName : Json → String
  | .null => "null"
  | .bool true => "boolean `true`"
  | .bool false => "boolean `false`"
  | .num (.int i) => s!"integer `{i}`"
  | .num (.real d) => s!"floating point `{d.text}`"
  | .str s => s!"string {quoteVisible s}"
  | .arr _ => "sequence"
  | .obj _ => "map"

/-- The message for a value of the wrong type. -/
def wrongType (j : Json) (expected : String) : String :=
  s!"invalid type: {j.typeName}, expected {expected}"

/-! ## From a value -/

namespace Document

/-- The target of a document given as a value. -/
def targetOfValue : Json → Except String Document
  | .obj members => do
    let blocks ←
      match Keyed.get? "blocks" members with
      | none => pure []
      | some (.obj blocks) => pure blocks
      | some j => throw (wrongType j "a map")
    return ⟨blocks, Keyed.erase "blocks" members⟩
  | j => throw (wrongType j "struct Target")

/-- The document of a value; a list of one element stands for its target. -/
def shapeOfValue : Json → Except String Document
  | .obj members =>
    match Keyed.get? "target" members with
    | some target => targetOfValue target
    | none => throw "missing field `target`"
  | .arr [] => throw "invalid length 0, expected struct WorkspaceContent with 1 element"
  | .arr [target] => targetOfValue target
  | .arr (target :: rest) => do
    let _ ← targetOfValue target
    throw s!"invalid length {rest.length + 1}, expected fewer elements in array"
  | j => throw (wrongType j "struct WorkspaceContent")

/-- The document of a value, or what is wrong with its shape. -/
def ofValue (j : Json) : Except EngineError Document :=
  (shapeOfValue j).mapError fun reason => .malformedGraph (.shape reason)

/-! ## From a text -/

open Json (Written)

/-- Names and values in order; of a repeated name the first place and the last value stay. -/
def dedupe (members : List (String × Json)) : List (String × Json) :=
  members.foldl (fun done m =>
    if done.any (·.1 = m.1) then done.map fun d => if d.1 = m.1 then m else d
    else done ++ [m]) []

/-- The members of an object as written, if every name is a text. -/
def namedMembers? (members : List (Option String × Written)) : Option (List (String × Written)) :=
  members.mapM fun (name, w) => name.map (·, w)

/-- The one member of a name: `some none` without it, nothing if it is repeated. -/
def single? (name : String) (members : List (String × Written)) : Option (Option Written) :=
  match members.filter (·.1 = name) with
  | [] => some none
  | [m] => some (some m.2)
  | _ => none

/-- The blocks of a target as written, which may nest less than `limit` deep. -/
def blocksOfWritten? (limit : Nat) : Option Written → Option (List (String × Json))
  | none => some []
  | some (.obj members) => (Written.membersToJson? (limit - 1) members).map dedupe
  | some _ => none

/-- The target of a document as written, which may nest less than `limit` deep. -/
def targetOfWritten? (limit : Nat) : Written → Option Document
  | .obj members => do
    let members ← namedMembers? members
    let blocks ← blocksOfWritten? (limit - 1) (← single? "blocks" members)
    let others := members.filter (·.1 ≠ "blocks")
    let extra ← Written.membersToJson? (limit - 1) (others.map fun (k, w) => (some k, w))
    return ⟨blocks, Keyed.ofList extra⟩
  | _ => none

/-- The document of a text, or nothing if it has another shape. Members beside the target are
passed over unread. -/
def ofText? (content : String) : Option Document := do
  match ← Written.read? content with
  | .obj members =>
    let target ← single? "target" (← namedMembers? members)
    targetOfWritten? (Json.nestingLimit - 1) (← target)
  | .arr [target] => targetOfWritten? (Json.nestingLimit - 1) target
  | _ => none

/-- The document of a text. -/
def ofText (content : String) : Except EngineError Document :=
  match ofText? content with
  | some d => .ok d
  | none => .error (.malformedGraph .notJson)

end Document

/-! ## Blocks -/

/-- The members of a block by name and type; nothing has been required yet. -/
structure RawBlock where
  opcode : Option String
  shadow : Bool
  topLevel : Option Bool
  parent : Option String
  next : Option String
  fields : Keyed Json
  inputs : Keyed Json
  mutation : Option (Keyed Json)
  extra : Keyed Json

namespace RawBlock

/-- The names of a block's own members. -/
def memberNames : List String :=
  ["fields", "inputs", "mutation", "next", "opcode", "parent", "shadow", "topLevel"]

/-- A text, or nothing where the member is missing or null. -/
def optionalText (m : Keyed Json) (name : String) : Except String (Option String) :=
  match Keyed.get? name m with
  | none | some .null => pure none
  | some (.str s) => pure (some s)
  | some j => throw (wrongType j "a string")

/-- An object, empty where the member is missing. -/
def objectMember (m : Keyed Json) (name : String) : Except String (Keyed Json) :=
  match Keyed.get? name m with
  | none => pure []
  | some (.obj members) => pure members
  | some j => throw (wrongType j "a map")

/-- The typed members of a block, looked at in the order of their names. -/
def ofMembers (m : Keyed Json) : Except String RawBlock := do
  let fields ← objectMember m "fields"
  let inputs ← objectMember m "inputs"
  let mutation ←
    match Keyed.get? "mutation" m with
    | none | some .null => pure none
    | some (.obj members) => pure (some members)
    | some j => throw (wrongType j "a map")
  let next ← optionalText m "next"
  let opcode ← optionalText m "opcode"
  let parent ← optionalText m "parent"
  let shadow ←
    match Keyed.get? "shadow" m with
    | none => pure false
    | some (.bool b) => pure b
    | some j => throw (wrongType j "a boolean")
  let topLevel ←
    match Keyed.get? "topLevel" m with
    | none | some .null => pure none
    | some (.bool b) => pure (some b)
    | some j => throw (wrongType j "a boolean")
  return { opcode, shadow, topLevel, parent, next, fields, inputs, mutation
           extra := m.filter fun p => !memberNames.contains p.1 }

/-- The field of an entry of `fields`. -/
def readField (name : String) : Json → Except EngineError Field
  | .arr items => .ok ⟨(items[0]?).getD .null, (items[1]?).bind Json.str?⟩
  | _ => .error (.malformedGraph (.fieldNotArray name))

/-- The block with an id: its opcode and its top level flag have to be there, its fields and
inputs have to be arrays. -/
def toBlock (id : String) (raw : RawBlock) : Except EngineError Block := do
  let some opcode := raw.opcode | throw (.malformedGraph (.noOpcode id))
  let some topLevel := raw.topLevel | throw (.malformedGraph (.noTopLevel id))
  let fields ← raw.fields.mapM fun (name, j) => return (name, ← readField name j)
  let inputs ← raw.inputs.mapM fun (name, j) =>
    match j with
    | .arr items => .ok (name, items)
    | _ => .error (.malformedGraph (.inputNotArray name id))
  return { id
           opcode := .ofText opcode
           shadow := raw.shadow
           topLevel
           parent := raw.parent
           next := raw.next
           fields
           inputs
           mutation := raw.mutation.map Mutation.mk
           extra := raw.extra
           defined := true }

end RawBlock

/-! ## The graph -/

namespace Document

/-- The entries of a document that are blocks. -/
def blockEntries (d : Document) : List (String × Keyed Json) :=
  d.blocks.filterMap fun (id, j) =>
    match j with
    | .obj members => some (id, members)
    | _ => none

/-- Take in one block: placeholders for its links, parent before next, then the block itself. -/
def addBlock (g : Graph) (entry : String × Keyed Json) : Except EngineError Graph := do
  let (id, members) := entry
  let raw ← (RawBlock.ofMembers members).mapError fun reason =>
    .malformedGraph (.shape s!"block '{id}': {reason}")
  let g := (raw.parent.toList ++ raw.next.toList).foldl Graph.ensure g
  return g.define (← raw.toBlock id)

/-- The graph of a document. Every block has its place before the first is read, so the graph
keeps document order; an id that only links name ends up behind them, and is an error. -/
def graph (d : Document) : Except EngineError Graph := do
  let entries := d.blockEntries
  let start : Graph := ⟨entries.map fun e => .placeholder e.1, d.extra⟩
  let g ← entries.foldlM addBlock start
  match g.blocks.find? (!·.defined) with
  | some b => throw (.malformedGraph (.dangling b.id))
  | none => return g

end Document

/-- The graph of a tab's content. -/
def Graph.parse (content : String) : Except EngineError Graph := do
  (← Document.ofText content).graph

/-- The graph of a document given as a value. -/
def Graph.ofValue (j : Json) : Except EngineError Graph := do
  (← Document.ofValue j).graph

/-! ## Emptiness -/

/-- The groups of a target that make a tab worth keeping. -/
def contentGroups : List String :=
  ["variables", "lists", "backup_lists", "bool_variables", "group_variables", "blocks"]

/-- Whether a group holds anything. -/
def holdsAnything : Option Json → Bool
  | some (.obj members) => !members.isEmpty
  | some (.arr items) => !items.isEmpty
  | _ => false

/-- Whether a document has nothing in any of the content groups. -/
def isEmptyDocument (document : Json) : Bool :=
  match document.get? "target" with
  | none => true
  | some target => contentGroups.all fun name => !holdsAnything (target.get? name)

/-- Whether the content of a tab holds nothing worth keeping: it is blank, or no group of its
target holds anything. Content that is no JSON text is an error. -/
def isEmptyContent (content : String) : Except EngineError Bool :=
  if isAllBlank content then .ok true
  else
    match Json.parse? content with
    | some document => .ok (isEmptyDocument document)
    | none => .error (.malformedGraph .notJson)

end BlockEngine
