/-!
# Identities as text

Contexts, generations and calls are told apart by numbers drawn one after the other. Where one is
seen outside it is a text of 26 digits and capital letters.
-/

namespace BlockEngine

/-- The 32 digits: no `I`, `L`, `O` and `U`. -/
def identDigit (n : Nat) : Char := "0123456789ABCDEFGHJKMNPQRSTVWXYZ".toList.getD (n % 32) '0'

/-- The last `width` digits of `n`. -/
def identDigits : Nat → Nat → List Char
  | 0, _ => []
  | width + 1, n => identDigits width (n / 32) ++ [identDigit n]

/-- The text of an identity. -/
def identText (n : Nat) : String := String.ofList (identDigits 26 n)

end BlockEngine
