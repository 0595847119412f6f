import BlockEngine.Graph.Input
import BlockEngine.Json.Written

/-!
# Blocks

A block of a program graph as documents hold it: its opcode, its links, its fields and inputs in
key order, the signature it may carry, and the editor's own data.
-/

namespace BlockEngine

/-- A field `[value, id?]`. -/
structure Field where
  value : Json
  id : Option String

/-- The signature data of a block that defines or calls a procedure, kept as it was read. -/
structure Mutation where
  members : List (String × Json)

namespace Mutation

/-- The signature. -/
def signature? (m : Mutation) : Option String :=
  (Keyed.get? "proccode" m.members).bind Json.str?

/-- The texts of a list of arguments; the list may be written as JSON text. -/
def texts (list : Option Json) : List String :=
  let value :=
    match list with
    | some (.str s) => Json.parse? s
    | other => other
  match value with
  | some (.arr items) => items.map Json.toText
  | _ => []

def argumentIds (m : Mutation) : List String := texts (Keyed.get? "argumentids" m.members)

def argumentNames (m : Mutation) : List String := texts (Keyed.get? "argumentnames" m.members)

/-- The arguments as pairs of an id and a name. -/
def arguments (m : Mutation) : List (String × String) := m.argumentIds.zip m.argumentNames

end Mutation

/-- A block. `defined` is false for one that was only named by a link. -/
structure Block where
  id : String
  opcode : Opcode
  shadow : Bool
  topLevel : Bool
  parent : Option String
  next : Option String
  fields : Keyed Field
  inputs : Keyed (List Json)
  mutation : Option Mutation
  extra : Keyed Json
  defined : Bool
deriving Inhabited

namespace Block

/-- A block known by its id only. -/
def placeholder (id : String) : Block where
  id
  opcode := ⟨"", ""⟩
  shadow := false
  topLevel := false
  parent := none
  next := none
  fields := []
  inputs := []
  mutation := none
  extra := []
  defined := false

def hasField (b : Block) (name : String) : Bool := Keyed.contains name b.fields

/-- The text of a field. -/
def fieldValue? (b : Block) (name : String) : Option String :=
  (Keyed.get? name b.fields).map (·.value.toText)

/-- The reference id of a field. -/
def fieldId? (b : Block) (name : String) : Option String :=
  (Keyed.get? name b.fields).bind (·.id)

/-- The first field. -/
def firstField? (b : Block) : Option (String × Field) := b.fields.head?

/-- The text of a field, empty when there is none. -/
def field (b : Block) (name : String) : String := (b.fieldValue? name).getD ""

/-- The reference id of a field, or else its text. -/
def fieldRef (b : Block) (name : String) : String := (b.fieldId? name).getD (b.field name)

/-- An input as documents hold it. -/
def rawInput? (b : Block) (name : String) : Option (List Json) := Keyed.get? name b.inputs

/-- A decoded input, if the block has it. -/
def input? (b : Block) (name : String) : Except EngineError (Option Input) :=
  match b.rawInput? name with
  | none => .ok none
  | some raw => (Input.decode name raw).map some

/-- Whether the block has the input and it counts as present. -/
def hasInput (b : Block) (name : String) : Bool :=
  ((b.rawInput? name).map Input.isPresent).getD false

/-- The signature the block carries. -/
def signature? (b : Block) : Option String := b.mutation.bind (·.signature?)

/-- Whether the block starts a tree of its own. -/
def isRoot (b : Block) : Bool := b.topLevel && !b.shadow

end Block
end BlockEngine
