import BlockEngine.Site.Input

/-!
# Operators

Reporters of arithmetic, comparison, logic and text. Numbers are doubles; a result that is integral
becomes an integer again (`Json.ofDouble`).
-/

namespace BlockEngine.Library

def arithmetic (op : Double → Double → Double) (env : Environment) (s : Site) : Attempt Json := do
  let a ← s.inputDouble env "NUM1"
  let b ← s.inputDouble env "NUM2"
  return .ofDouble (op a b)

def compare (op : Double → Double → Bool) (env : Environment) (s : Site) : Attempt Json := do
  let a ← s.inputDouble env "OPERAND1"
  let b ← s.inputDouble env "OPERAND2"
  return .bool (op a b)

/-- A whole number between `FROM` and `TO`, both included, in either order. -/
def random (env : Environment) (s : Site) : Attempt Json := do
  let a ← s.inputInt env "FROM"
  let b ← s.inputInt env "TO"
  let number ← (Execution.draw : Execution Nat)
  let low := min a b
  let span := (max a b - low).toNat + 1
  return .ofInt (low + ((SipHash.hashText (identText number)).toNat % span : Nat))

/-- Both operands; the second is read only if the first holds. -/
def both (env : Environment) (s : Site) : Attempt Json := do
  if ← s.inputBool env "OPERAND1" then return .bool (← s.inputBool env "OPERAND2")
  else return .bool false

/-- One of the operands; the second is read only if the first does not hold. -/
def either (env : Environment) (s : Site) : Attempt Json := do
  if ← s.inputBool env "OPERAND1" then return .bool true
  else return .bool (← s.inputBool env "OPERAND2")

def negation (env : Environment) (s : Site) : Attempt Json := do
  return .bool (!(← s.inputBool env "OPERAND"))

def join (env : Environment) (s : Site) : Attempt Json := do
  let a ← s.inputText env "STRING1"
  let b ← s.inputText env "STRING2"
  return .str (a ++ b)

/-- The function that the field of a `mathop` block names. -/
def mathFunction? (name : String) : Option (Double → Double) :=
  match name with
  | "abs" => some Double.abs
  | "round" => some Double.round
  | "floor" => some Double.floor
  | "ceiling" => some Double.ceiling
  | "sqrt" => some (Double.lift Float.sqrt)
  | "sin" => some (Double.lift Float.sin)
  | "cos" => some (Double.lift Float.cos)
  | "tan" => some (Double.lift Float.tan)
  | "asin" => some (Double.lift Float.asin)
  | "acos" => some (Double.lift Float.acos)
  | "atan" => some (Double.lift Float.atan)
  | "log" => some (Double.lift Float.log)
  | _ => none

/-- A function of one number. The function is looked up before the number is read. -/
def mathOp (env : Environment) (s : Site) : Attempt Json := do
  let name := s.block.field "OPERATOR"
  match mathFunction? name with
  | some f => return .ofDouble (f (← s.inputDouble env "NUM"))
  | none => throw (.malformedInput "OPERATOR" (.unknownMathFunction name))

def boolToNumber (env : Environment) (s : Site) : Attempt Json := do
  return .ofInt (if ← s.inputBool env "OPERAND" then 1 else 0)

/-- One of two numbers; the other one is not read. -/
def boolChoice (env : Environment) (s : Site) : Attempt Json := do
  let holds ← s.inputBool env "OPERAND"
  return .ofDouble (← s.inputDouble env (if holds then "THEN" else "ELSE"))

/-- The operators. -/
def operatorExtension : Extension StatementHandler ExpressionHandler :=
  (Extension.empty "operator")
    |>.reporter "add" (arithmetic Double.add)
    |>.reporter "subtract" (arithmetic Double.sub)
    |>.reporter "multiply" (arithmetic Double.mul)
    |>.reporter "divide" (arithmetic Double.div)
    |>.reporter "random" random
    |>.reporter "lt" (compare Double.lt)
    |>.reporter "gt" (compare fun a b => b.lt a)
    |>.reporter "equals" (compare Double.eq)
    |>.reporter "and" both
    |>.reporter "or" either
    |>.reporter "not" negation
    |>.reporter "join" join
    |>.reporter "mathop" mathOp
    |>.reporter "bool_to_num" boolToNumber
    |>.reporter "bool_if_else" boolChoice

end BlockEngine.Library
