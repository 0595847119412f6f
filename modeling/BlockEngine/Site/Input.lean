import BlockEngine.Execution

/-!
# Reading the inputs of a block

* `Site.input` : an input as a value, which evaluates the block plugged in, or as a reference,
  which executes nothing;
* `inputText`, `inputDouble`, `inputInt`, `inputBool`, `inputJson` : the value as what is needed;
* `inputBlock?` : the block plugged in.
-/

namespace BlockEngine

/-- The input a loop or a wait looks at. -/
def conditionInput : String := "CONDITION"

/-- The input a variable is set to, changed by or compared with. -/
def itemInput : String := "ITEM"

/-- How an input is read. -/
inductive ReadMode where
  /-- Blocks are evaluated and variables looked up. -/
  | value
  /-- Only ids and names are read. -/
  | reference
deriving DecidableEq

namespace Site

/-- The value of a variable; one that holds nothing reads as the text `0`. -/
def variableValue (name id : String) : Attempt Json := do
  let w ← (Execution.look : Execution World)
  match w.vars.value? id with
  | none => throw (.unresolvedVariable name id)
  | some v => return if v.isEmpty then .str "0" else v

/-- The decoded input of a name, which the block has to have. -/
def decodedInput (s : Site) (key : String) : Except EngineError Input := do
  match ← s.block.input? key with
  | some i => return i
  | none => throw (.malformedInput key .absent)

/-- An input read in a mode. Shadows are read as references in either. -/
def input (env : Environment) (s : Site) (key : String) (mode : ReadMode) : Attempt Json := do
  let i ← Attempt.ofExcept (s.decodedInput key)
  let mode := if i.alwaysReference then .reference else mode
  match i.content, mode with
  | .literal v, _ => return v
  | .block id, .reference => return .str id
  | .block id, .value => Attempt.evaluate (← Attempt.ofExcept (s.child env.settings.maxDepth id))
  | .primitive kind payload, .reference => return .str (kind.reference payload)
  | .primitive kind payload, .value =>
    match kind.value payload with
    | .literal v => return v
    | .stored name id => variableValue name id

def hasInput (s : Site) (key : String) : Bool := s.block.hasInput key

def inputValue (env : Environment) (s : Site) (key : String) : Attempt Json :=
  s.input env key .value

def inputText (env : Environment) (s : Site) (key : String) : Attempt String := do
  return (← s.inputValue env key).toText

def inputDouble (env : Environment) (s : Site) (key : String) : Attempt Double := do
  let v ← s.inputValue env key
  match v.toDouble? with
  | some d => return d
  | none => throw (.invalidNumericInput key v.toText)

/-- A number without its fraction, clamped to 64 bits. -/
def inputInt (env : Environment) (s : Site) (key : String) : Attempt Int := do
  return (← s.inputDouble env key).toInt64

/-- The truth of an input; an input that is not there is false. -/
def inputBool (env : Environment) (s : Site) (key : String) : Attempt Bool := do
  if s.hasInput key then return (← s.inputValue env key).toBool else return false

/-- An input as JSON; a text that is JSON text stands for its value. -/
def inputJson (env : Environment) (s : Site) (key : String) : Attempt Json := do
  match ← s.inputValue env key with
  | .str text => return (Json.parse? text).getD (.str text)
  | v => return v

/-- The block plugged into an input, if there is one. -/
def inputBlock? (env : Environment) (s : Site) (key : String) :
    Except EngineError (Option Site) := do
  if s.hasInput key then
    match ← s.block.input? key with
    | some ⟨_, .block id⟩ => return some (← s.child env.settings.maxDepth id)
    | _ => return none
  else return none

/-- Run the chain plugged into an input; nothing is plugged in, nothing happens. -/
def handleInput (env : Environment) (s : Site) (key : String) : Attempt Signal := do
  match ← Attempt.ofExcept (s.inputBlock? env key) with
  | some body => Attempt.handle body
  | none => return .proceed

end Site
end BlockEngine
