import BlockEngine.Site.Input

/-!
# Variables in blocks

A block names its variable by the reference id of its field `VARIABLE`. Every write signals the
lock of the variable in all tabs; change hats react to it and keep the value that fired them, which
`prev_variable` reads inside their chains. Links copy what a block reports to a variable.
-/

namespace BlockEngine.Library

/-- The id of the variable a block names. -/
def variableId (s : Site) : String := s.block.fieldRef "VARIABLE"

def readVariable (_env : Environment) (s : Site) : Attempt Json := do
  let w ← (Execution.look : Execution World)
  return (w.vars.value? (variableId s)).getD .null

/-- The last value kept by the closest block around this one that keeps one. -/
def readKept (env : Environment) (s : Site) : Attempt Json := do
  let w ← (Execution.look : Execution World)
  match s.parent? env.settings.maxDepth with
  | some parent => return (w.value? parent.generation parent.id valueKey).getD .null
  | none => return .null

/-- Set the variable to an item; null changes nothing. -/
def setVariable (env : Environment) (s : Site) : Attempt Signal := do
  let item ← s.inputValue env itemInput
  if !item.isNull then
    let _ ← Execution.writeVariable (variableId s) item
  return .proceed

/-- Add an item to the variable; one that holds no number counts as zero. The value is read and
written without a pause in between. -/
def changeVariable (env : Environment) (s : Site) : Attempt Signal := do
  let delta ← s.inputDouble env itemInput
  let w ← (Execution.look : Execution World)
  let current := ((w.vars.value? (variableId s)).bind Json.toDouble?).getD Double.zero
  let _ ← Execution.writeVariable (variableId s) (.ofDouble (current.add delta))
  return .proceed

/-! ## Hats -/

/-- React to every write of the variable of a hat. -/
def listenToVariable (s : Site) (reaction : Reaction) : Execution Unit := do
  let lock ← Execution.obtainLock s (.variableWrite (variableId s))
  Execution.listen s lock reaction

def onChange (_env : Environment) (s : Site) : Attempt Signal := do
  listenToVariable s (.keepAndStart s)
  return .proceed

/-- Start the chain of the hat on every write that its operator lets pass. -/
def onChangeTo (_env : Environment) (s : Site) : Attempt Signal := do
  let operator ← Attempt.ofExcept (ChangeOperator.ofText (s.block.field "OPERATOR"))
  listenToVariable s (.keepAndStartIf s operator)
  return .proceed

/-! ## Links -/

/-- Copy what the source block reports, or the truth of it, to the variable of a field. -/
def linkVariable (field : String) (asTruth : Bool) (env : Environment) (s : Site) :
    Attempt Signal := do
  let source := (← s.input env "SOURCE" .reference).toText
  if source.isEmpty then throw (.malformedInput "SOURCE" .noSourceBlock)
  let _ ← Attempt.ofExcept (s.generation.graph.block source)
  let lock ← Execution.obtainLock s (.value source)
  Execution.listen s lock (.link (s.block.fieldRef field) asTruth)
  return .proceed

/-- The variable blocks. -/
def dataExtension : Extension StatementHandler ExpressionHandler :=
  (Extension.empty "data")
    |>.reporter "variable" readVariable
    |>.reporter "prev_variable" readKept
    |>.command "setvariableto" setVariable
    |>.command "changevariableby" changeVariable
    |>.hat "onchange_variable" onChange
    |>.hat "onchange_variable_to" onChangeTo
    |>.hat "group_variable_link" (linkVariable "group_variables_group" false)
    |>.hat "boolean_link" (linkVariable "bool_variables_group" true)

end BlockEngine.Library
