import BlockEngine.Site.Input

/-!
# Arguments of procedures

Inside a body an argument is the value that the definition keeps under the argument's name.
-/

namespace BlockEngine.Library

/-- The value kept under the name in the field `VALUE`. -/
def argument? (s : Site) : Execution (Option Json) := do
  let w ← Execution.look
  return w.value? s.generation s.id (s.block.field "VALUE")

def readArgument (_env : Environment) (s : Site) : Attempt Json := do
  return (← (argument? s : Execution (Option Json))).getD .null

def readArgumentTruth (_env : Environment) (s : Site) : Attempt Json := do
  return .bool (((← (argument? s : Execution (Option Json))).map Json.toBool).getD false)

/-- The argument blocks. -/
def argumentExtension : Extension StatementHandler ExpressionHandler :=
  (Extension.empty "argument")
    |>.reporter "reporter_string_number" readArgument
    |>.reporter "reporter_boolean" readArgumentTruth

end BlockEngine.Library
