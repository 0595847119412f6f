import BlockEngine.Site.Input

/-!
# Printing
-/

namespace BlockEngine.Library

/-- Show a text to the person who runs the engine. -/
def print (env : Environment) (s : Site) : Attempt Signal := do
  let text ← s.inputText env "TEXT"
  Execution.change fun w => w.notify .info (some s.tab) text
  return .proceed

/-- The block that prints. -/
def debugExtension : Extension StatementHandler ExpressionHandler :=
  (Extension.empty "debug")
    |>.command "print" print

end BlockEngine.Library
