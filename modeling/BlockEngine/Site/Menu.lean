import BlockEngine.Site.Input
import BlockEngine.Text.Parts
import BlockEngine.Text.Quoted

/-!
# Menu selections

A menu input points to a menu block, and the selected option is in a field of it: the field of the
declared menu, or the first field where no menu is declared.

* `Site.menuValue` : the selection as a target type;
* `Site.menuValues` : the parts of a selection with several options.
-/

namespace BlockEngine

/-- What a selection is turned into. -/
inductive MenuTarget where
  | text
  | integer
  /-- One of some options. -/
  | oneOf (members : List String)
  /-- The entity that the host knows by the option. -/
  | entity
  /-- Some other type, which the engine can not make. -/
  | custom (name : String)

namespace Site

/-- The menu declared for an input of the block. -/
def declaredMenu? (env : Environment) (s : Site) (key : String) : Option Menu :=
  env.menu? s.block.opcode key

/-- The selected option of a menu input. A required menu needs one. -/
def menuSelection (s : Site) (key : String) (menu : Option Menu) : Except EngineError String := do
  let some reference := ((s.block.rawInput? key).bind (·[1]?)).bind Json.str?
    | throw (.malformedInput key .noMenuBlock)
  let block ← s.generation.graph.block reference
  let selection :=
    match menu with
    | some m => (block.fieldValue? m.field).getD ""
    | none => ((block.firstField?).map (·.2.value.toText)).getD ""
  if (menu.map (·.isRequired)).getD false && (selection = "" || selection = "-") then
    throw (.malformedInput key .menuValueNotFound)
  return selection

/-- An option as a target type. -/
def convertItem (env : Environment) (key item : String) (target : MenuTarget) :
    Except EngineError Json :=
  match target with
  | .text => .ok (.str item)
  | .integer =>
    match readInt64? (trim item) with
    | some i => .ok (.ofInt i)
    | none => .error (.invalidNumericInput key item)
  | .oneOf members =>
    if members.contains item then .ok (.str item)
    else .error (.malformedInput key (.notMember item (quoteVisibleList members)))
  | .entity =>
    match env.entities with
    | none => .error (.unsupportedMenuType "entity")
    | some resolve =>
      match resolve item with
      | some v => .ok v
      | none => .error (.malformedInput key (.entityNotFound item))
  | .custom name => .error (.unsupportedMenuType name)

/-- The selection of a menu input. -/
def menuValue (env : Environment) (s : Site) (key : String) (target : MenuTarget) :
    Except EngineError Json := do
  convertItem env key (← s.menuSelection key (s.declaredMenu? env key)) target

/-- The parts of the selection of a menu input, empty ones left out. -/
def menuValues (env : Environment) (s : Site) (key : String) (target : MenuTarget)
    (delimiter : String) : Except EngineError (List Json) := do
  let selection ← s.menuSelection key (s.declaredMenu? env key)
  let items := (splitText selection delimiter).filter (· ≠ "")
  items.mapM fun item => convertItem env key item target

end Site
end BlockEngine
