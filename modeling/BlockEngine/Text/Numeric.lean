import BlockEngine.Double.Decimal
import BlockEngine.Text.Blank
import BlockEngine.Text.Digits

/-!
# Numbers in text

* `readDouble?` : a decimal number or the name of an infinity or a NaN, the nearest double;
* `readInt64?`, `readInt?` : a decimal integer with an optional sign.
-/

namespace BlockEngine

/-- The sign at the head of a text, and what follows. -/
def splitSign (cs : List Char) : Bool × List Char :=
  match cs with
  | '-' :: rest => (true, rest)
  | '+' :: rest => (false, rest)
  | cs => (false, cs)

/-- `E` or `e` and an integer up to the end of the text; nothing is the exponent zero. -/
def readExponent? (cs : List Char) : Option Int :=
  match cs with
  | [] => some 0
  | c :: rest =>
    if c = 'e' || c = 'E' then
      let (negative, ds) := splitSign rest
      if ds.isEmpty || !ds.all Char.isDigit then none
      else
        let n : Int := digitsValue ds
        some (if negative then -n else n)
    else none

/-- The double written by a text: `digits[.digits]`, `.digits` or `digits.` with an optional sign
and exponent, or one of `inf`, `infinity` and `nan` in any case. -/
def readDouble? (s : String) : Option Double :=
  let (negative, cs) := splitSign s.toList
  let lower := String.ofList (cs.map Char.toLower)
  if lower = "inf" || lower = "infinity" then some (Double.infinity negative)
  else if lower = "nan" then some (if negative then Double.nan.neg else Double.nan)
  else
    let whole := cs.takeWhile Char.isDigit
    let rest := cs.dropWhile Char.isDigit
    let (fraction, rest) :=
      match rest with
      | '.' :: r => (r.takeWhile Char.isDigit, r.dropWhile Char.isDigit)
      | r => ([], r)
    if whole.isEmpty && fraction.isEmpty then none
    else
      (readExponent? rest).map fun e =>
        Double.ofDecimal negative (digitsValue (whole ++ fraction)) (e - fraction.length)

/-- The integer written by decimal digits with an optional sign. -/
def readInt? (s : String) : Option Int :=
  let (negative, ds) := splitSign s.toList
  if ds.isEmpty || !ds.all Char.isDigit then none
  else
    let n : Int := digitsValue ds
    some (if negative then -n else n)

/-- The signed 64-bit integer written by a text. -/
def readInt64? (s : String) : Option Int :=
  (readInt? s).filter fun i => -(Nat.pow 2 63 : Int) ≤ i && i < Nat.pow 2 63

end BlockEngine
