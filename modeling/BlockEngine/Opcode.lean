import BlockEngine.Text.Chars

/-!
# Opcodes

A block's opcode names an extension and a block in it. Documents write it as one text, split at the
first underscore; a text without one names a block of the nameless extension.
-/

namespace BlockEngine

structure Opcode where
  extension : String
  name : String
deriving DecidableEq, Inhabited

namespace Opcode

/-- Split the written form at its first underscore. -/
def ofText (raw : String) : Opcode :=
  let cs := chars raw
  match cs.dropWhile (· ≠ '_') with
  | [] => ⟨"", raw⟩
  | _ :: rest => ⟨String.ofList (cs.takeWhile (· ≠ '_')), String.ofList rest⟩

/-- The written form. -/
def text (o : Opcode) : String :=
  if o.extension.isEmpty then o.name else o.extension ++ "_" ++ o.name

/-- The form shown to people. -/
def describe (o : Opcode) : String := o.extension ++ " -> " ++ o.name

end Opcode
end BlockEngine
