import BlockEngine.Error
import BlockEngine.Value

/-!
# Inputs of a block

Documents hold an input as an array `[tag, payload, ...]`. The tag says how the payload is shaped:
a literal, the id of another block, or a primitive array `[kind, value, id?]`.

* `Input.decode` : the input an array stands for, or why it stands for none;
* `Input.isPresent` : whether an array counts as an input that is there;
* `PrimitiveKind.reference`, `PrimitiveKind.value` : the two readings of a primitive array.
-/

namespace BlockEngine

/-- The tag of an input. -/
inductive InputTag where
  /-- A menu or shadow value, always read as a reference. -/
  | shadow
  /-- The id of another block. -/
  | reference
  /-- A block that covers a primitive. -/
  | obscured
  /-- A literal. -/
  | literal
deriving DecidableEq

namespace InputTag

def ofCode? (code : Int) : Option InputTag :=
  if code = 1 then some .shadow
  else if code = 2 then some .reference
  else if code = 3 then some .obscured
  else if code = 5 then some .literal
  else none

def code : InputTag → Int
  | .shadow => 1
  | .reference => 2
  | .obscured => 3
  | .literal => 5

def name : InputTag → String
  | .shadow => "Shadow"
  | .reference => "Reference"
  | .obscured => "Obscured"
  | .literal => "Literal"

end InputTag

/-- The kind of a primitive array. -/
inductive PrimitiveKind where
  | undefined
  | inputSameBlockShadow
  | inputBlockNoShadow
  | inputDiffBlockShadow
  | mathNumber
  | positiveNumber
  | wholeNumber
  | integerNumber
  | checkboxNumber
  | colorPicker
  | text
  | broadcast
  | variableRef
  | list
  | fontAwesome
deriving DecidableEq

/-- What a primitive array stands for when it is read as a value. -/
inductive PrimitiveValue where
  /-- The value itself. -/
  | literal (value : Json)
  /-- The variable that holds the value. -/
  | stored (name id : String)

namespace PrimitiveKind

/-- The kinds in the order of their ordinals, with their names. -/
def all : List (PrimitiveKind × String) :=
  [(undefined, "Undefined"), (inputSameBlockShadow, "InputSameBlockShadow"),
   (inputBlockNoShadow, "InputBlockNoShadow"), (inputDiffBlockShadow, "InputDiffBlockShadow"),
   (mathNumber, "MathNumber"), (positiveNumber, "PositiveNumber"), (wholeNumber, "WholeNumber"),
   (integerNumber, "IntegerNumber"), (checkboxNumber, "CheckboxNumber"),
   (colorPicker, "ColorPicker"), (text, "Text"), (broadcast, "Broadcast"),
   (variableRef, "Variable"), (list, "List"), (fontAwesome, "FontAwesome")]

def ofOrdinal? (n : Nat) : Option PrimitiveKind := (all[n]?).map (·.1)

def ordinal (k : PrimitiveKind) : Nat := all.findIdx (·.1 = k)

def name (k : PrimitiveKind) : String := ((all.find? (·.1 = k)).map (·.2)).getD ""

/-- The text of an element, empty when it is missing. -/
def element (payload : List Json) (i : Nat) : String := ((payload[i]?).map Json.toText).getD ""

/-- The name or id that a primitive array points at. -/
def reference (k : PrimitiveKind) (payload : List Json) : String :=
  match k with
  | .broadcast => element payload 2
  | _ => element payload 1

/-- The value that a primitive array stands for. -/
def value (k : PrimitiveKind) (payload : List Json) : PrimitiveValue :=
  match k with
  | .checkboxNumber => .literal ((payload[2]?).getD .null)
  | .broadcast => .literal (.str (element payload 2))
  | .variableRef => .stored (element payload 1) (element payload 2)
  | _ => .literal ((payload[1]?).getD .null)

end PrimitiveKind

/-- What an input holds. -/
inductive InputContent where
  | literal (value : Json)
  | block (id : String)
  | primitive (kind : PrimitiveKind) (payload : List Json)

/-- A decoded input. -/
structure Input where
  tag : InputTag
  content : InputContent

namespace Input

/-- Shadows are read as references whatever the reader asks for. -/
def alwaysReference (i : Input) : Bool := i.tag = .shadow

/-- The tag code of an array. -/
def codeOf (raw : List Json) : Option Int := (raw.head?).bind Json.int64?

/-- Whether an array counts as an input: a known tag, and for a shadow a payload that is not
null. -/
def isPresent (raw : List Json) : Bool :=
  match (codeOf raw).bind InputTag.ofCode? with
  | some .shadow => ((raw[1]?).map (!·.isNull)).getD false
  | some _ => true
  | none => false

/-- The primitive array of a payload. -/
def decodePrimitive (items : List Json) : Except InputFault InputContent :=
  match (items.head?).bind Json.uint64? with
  | none => .error .noPrimitiveKind
  | some n =>
    match PrimitiveKind.ofOrdinal? n with
    | none => .error (.unknownPrimitiveKind n)
    | some k => .ok (.primitive k items)

/-- What the payload holds under a tag. -/
def decodePayload (tag : InputTag) (payload : Json) : Except InputFault InputContent :=
  match tag, payload with
  | .literal, payload => .ok (.literal payload)
  | _, .str id => .ok (.block id)
  | .shadow, .arr items | .obscured, .arr items => decodePrimitive items
  | _, .null => .error .noValue
  | _, payload => .error (.unexpectedPayload payload.text)

/-- The input that an array stands for. -/
def decodeRaw (raw : List Json) : Except InputFault Input := do
  let some code := codeOf raw | throw .missingTag
  let some tag := InputTag.ofCode? code | throw (.unknownTag code)
  let content ← decodePayload tag ((raw[1]?).getD .null)
  return ⟨tag, content⟩

/-- The input of the given name that an array stands for. -/
def decode (name : String) (raw : List Json) : Except EngineError Input :=
  (decodeRaw raw).mapError (.malformedInput name)

end Input
end BlockEngine
