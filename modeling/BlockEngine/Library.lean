import BlockEngine.Library.Argument
import BlockEngine.Library.Control
import BlockEngine.Library.Data
import BlockEngine.Library.Debug
import BlockEngine.Library.Event
import BlockEngine.Library.Operator
import BlockEngine.Library.Procedures

/-!
# The core library

* `Library.core` : the extensions every engine has, in the order they are registered;
* `Library.isOnce` : the blocks that run once while their tab is loaded.
-/

namespace BlockEngine.Library

/-- The extensions of the core library. -/
def core : List (Extension StatementHandler ExpressionHandler) :=
  [controlExtension, eventExtension, dataExtension, operatorExtension, proceduresExtension,
   argumentExtension, debugExtension]

/-- The written opcodes of the blocks that are handled while a tab is loaded and get no task. -/
def onceOpcodes : List String :=
  ["procedures_definition", "data_boolean_link", "data_group_variable_link"]

/-- Whether a block at the top level runs once while its tab is loaded. -/
def isOnce (o : Opcode) : Bool := onceOpcodes.contains o.text

end BlockEngine.Library
