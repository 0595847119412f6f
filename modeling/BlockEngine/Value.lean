import BlockEngine.Json.Text
import BlockEngine.Text.Numeric

/-!
# Reading values loosely

Blocks exchange JSON values and every consumer reads them as what it needs.

* `Json.toText`, `Json.textOr` : the text of a value;
* `Json.toBool`, `isTruthy` : its truth;
* `Json.toDouble?` : its number, if it has one;
* `Json.ofDouble` : the value of a computed number.
-/

namespace BlockEngine

/-- The texts that count as false, apart from blank ones. -/
def falseWords : List String := ["false", "no", "off", "0", "none"]

/-- The truth of a text: false for blank texts and for `falseWords` in any case. No letter beyond
ASCII has one of the letters of these words as its lower case, so lowering ASCII is enough. -/
def isTruthy (s : String) : Bool :=
  let word := String.ofList ((trimChars s.toList).map Char.toLower)
  !word.isEmpty && !falseWords.contains word

/-- The integer a double stands for, if it is integral and below `2 ^ 63` in absolute value. -/
def Double.smallInt? (d : Double) : Option Int :=
  if d.isIntegral then d.truncate?.filter fun i => i.natAbs < Nat.pow 2 63 else none

/-- The text of a number: integral values below `2 ^ 63` without a fraction. -/
def Number.display : Number → String
  | .int i => toString i
  | .real d =>
    match d.smallInt? with
    | some i => toString i
    | none => d.text

namespace Json

/-- The text of a value: strings as they are, `ifNull` for null, JSON text for containers. -/
def textOr (ifNull : String) : Json → String
  | .null => ifNull
  | .bool b => if b then "true" else "false"
  | .num n => n.display
  | .str s => s
  | j => j.text

/-- The text of a value, empty for null. -/
def toText (j : Json) : String := j.textOr ""

/-- Whether a value is null or the empty string. -/
def isEmpty : Json → Bool
  | .null => true
  | .str s => s.isEmpty
  | _ => false

/-- The truth of a value: of a number whether it differs from zero, of a container whether it
holds anything. -/
def toBool : Json → Bool
  | .null => false
  | .bool b => b
  | .num n => !n.toDouble.isZero
  | .str s => isTruthy s
  | .arr items => !items.isEmpty
  | .obj members => !members.isEmpty

/-- The number of a value: numbers, truth values and texts that write a number. -/
def toDouble? : Json → Option Double
  | .num n => some n.toDouble
  | .bool b => some (Double.ofNat (if b then 1 else 0))
  | .str s => readDouble? (trim s)
  | _ => none

/-- The value of a computed number: an integer if it is integral and below `2 ^ 63`, null for NaN
and the infinities. -/
def ofDouble (d : Double) : Json :=
  match d.smallInt? with
  | some i => .num (.int i)
  | none => if d.isFinite then .num (.real d) else .null

end Json
end BlockEngine
