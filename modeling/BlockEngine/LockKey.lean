import BlockEngine.Json.Text
import BlockEngine.Text.Hash

/-!
# Keys of locks

What a lock stands for and the text it goes by. A procedure is known by the hash of its signature.
-/

namespace BlockEngine

/-- What the parts of the engine meet on. -/
inductive LockKey where
  | broadcast (message : String)
  | variableWrite (id : String)
  | value (block : String)
  | event (block : String)
  | procedure (signature : String)
  | procedureReturn (signature : String)
deriving DecidableEq

/-- The hash of a signature as sixteen hexadecimal digits. -/
def signatureHash (signature : String) : String :=
  String.ofList (hexDigits 16 (SipHash.hashText signature).toNat)

/-- The text of a key. -/
def LockKey.text : LockKey → String
  | .broadcast m => "broadcast:" ++ m
  | .variableWrite id => "variable:" ++ id
  | .value b => "value:" ++ b
  | .event b => "event:" ++ b
  | .procedure s => "procedure:" ++ signatureHash s
  | .procedureReturn s => "procedure_return:" ++ signatureHash s

end BlockEngine
