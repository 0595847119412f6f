/-!
# Binary64 numbers held by their bits

* `Double` : a binary64 word; `Double.View` : what the word stands for, a NaN, an infinity or a
  finite value `± mantissa * 2 ^ exponent`;
* `Double.nearest` : the double nearest to a ratio of natural numbers, ties to even;
* `add`, `sub`, `mul`, `div` : the exact result, then `nearest`;
* `lt`, `eq` : the order of the values, false as soon as a NaN takes part;
* `isIntegral`, `truncate?`, `toInt64` : the integer part of a value;
* `abs`, `floor`, `ceiling`, `round` : values near a value.

Everything is integer arithmetic on the decoded word, so that it can be reasoned about.
-/

namespace BlockEngine

/-- A binary64 number, held by its 64 bits. -/
structure Double where
  bits : UInt64
deriving DecidableEq, Inhabited

namespace Double

/-- What the bits of a double stand for. A finite one is `± mantissa * 2 ^ exponent`. -/
inductive View where
  | nan
  | infinity (negative : Bool)
  | finite (negative : Bool) (mantissa : Nat) (exponent : Int)
deriving DecidableEq

/-! ## Fields of the word -/

def isNegative (x : Double) : Bool := Nat.pow 2 63 ≤ x.bits.toNat

def exponentField (x : Double) : Nat := x.bits.toNat / Nat.pow 2 52 % Nat.pow 2 11

def fractionField (x : Double) : Nat := x.bits.toNat % Nat.pow 2 52

/-- The meaning of the word: exponent field `2047` is for the infinities and NaNs, field `0` for
the numbers without the hidden bit. -/
def view (x : Double) : View :=
  if x.exponentField = 2047 then
    if x.fractionField = 0 then .infinity x.isNegative else .nan
  else if x.exponentField = 0 then
    .finite x.isNegative x.fractionField (-1074)
  else
    .finite x.isNegative (Nat.pow 2 52 + x.fractionField) ((x.exponentField : Int) - 1075)

/-- The word without its sign bit that stands for infinity. -/
def infinityMagnitude : Nat := 2047 * Nat.pow 2 52

/-- The double with the given sign and remaining 63 bits. -/
def ofMagnitude (negative : Bool) (magnitude : Nat) : Double :=
  ⟨UInt64.ofNat ((if negative then Nat.pow 2 63 else 0) + magnitude)⟩

def nan : Double := ⟨0x7ff8000000000000⟩

def infinity (negative : Bool) : Double := ofMagnitude negative infinityMagnitude

def zero : Double := ⟨0⟩

def isNan (x : Double) : Bool := x.view = .nan

def isFinite (x : Double) : Bool := x.exponentField ≠ 2047

/-! ## Rounding -/

/-- `num / den` rounded to a natural number, a half goes to the even neighbour. -/
def roundDiv (num den : Nat) : Nat :=
  let q := num / den
  let r := num % den
  if 2 * r < den then q
  else if den < 2 * r then q + 1
  else if q % 2 = 0 then q else q + 1

/-- `num / den` divided by `2 ^ e`, again as a ratio. -/
def scale (num den : Nat) (e : Int) : Nat × Nat :=
  if 0 ≤ e then (num, den * Nat.pow 2 e.toNat) else (num * Nat.pow 2 (-e).toNat, den)

/-- The exponent of the last place of a double near `num / den`: the quotient by that power of two
has 53 bits, or fewer where the least exponent is reached. -/
def lastPlace (num den : Nat) : Int :=
  let l : Int := (Nat.log2 num : Int) - (Nat.log2 den : Int) - 52
  let (n, d) := scale num den l
  max (if n / d < Nat.pow 2 52 then l - 1 else l) (-1074)

/-- The word without its sign bit of the double nearest to `num / den`. The hidden bit of the
rounded quotient adds one to the exponent field, and so does a carry out of the 53 bits. -/
def nearestMagnitude (num den : Nat) : Nat :=
  if num = 0 then 0 else
    let e := lastPlace num den
    let (n, d) := scale num den e
    min ((e + 1074).toNat * Nat.pow 2 52 + roundDiv n d) infinityMagnitude

/-- The double nearest to `± num / den`, ties to even; too large a ratio gives an infinity. -/
def nearest (negative : Bool) (num den : Nat) : Double :=
  ofMagnitude negative (nearestMagnitude num den)

/-- The double nearest to `v * 2 ^ e`, with the given sign for a zero `v`. -/
def ofScaled (zeroNegative : Bool) (v : Int) (e : Int) : Double :=
  if v = 0 then ofMagnitude zeroNegative 0
  else if 0 ≤ e then nearest (v < 0) (v.natAbs * Nat.pow 2 e.toNat) 1
  else nearest (v < 0) v.natAbs (Nat.pow 2 (-e).toNat)

def ofInt (i : Int) : Double := ofScaled false i 0

def ofNat (n : Nat) : Double := ofInt n

/-! ## Arithmetic -/

/-- `± mantissa * 2 ^ exponent` as a signed count of units `2 ^ unit`, for `unit ≤ exponent`. -/
def inUnits (negative : Bool) (mantissa : Nat) (exponent unit : Int) : Int :=
  let n : Int := (mantissa * Nat.pow 2 (exponent - unit).toNat : Nat)
  if negative then -n else n

def neg (x : Double) : Double := ⟨x.bits ^^^ 0x8000000000000000⟩

/-- The exact sum, rounded. A zero sum is negative only if both operands are. -/
def add (x y : Double) : Double :=
  match x.view, y.view with
  | .nan, _ | _, .nan => nan
  | .infinity s, .infinity t => if s = t then infinity s else nan
  | .infinity s, .finite .. | .finite .., .infinity s => infinity s
  | .finite s m e, .finite t n f =>
    let unit := min e f
    ofScaled (s && t) (inUnits s m e unit + inUnits t n f unit) unit

def sub (x y : Double) : Double := x.add y.neg

/-- The exact product, rounded. -/
def mul (x y : Double) : Double :=
  match x.view, y.view with
  | .nan, _ | _, .nan => nan
  | .infinity s, .infinity t => infinity (s != t)
  | .infinity s, .finite t m _ | .finite t m _, .infinity s =>
    if m = 0 then nan else infinity (s != t)
  | .finite s m e, .finite t n f =>
    ofScaled (s != t) (if s != t then -(m * n : Int) else (m * n : Int)) (e + f)

/-- The exact quotient, rounded; a division by zero gives an infinity, or a NaN for `0 / 0`. -/
def div (x y : Double) : Double :=
  match x.view, y.view with
  | .nan, _ | _, .nan => nan
  | .infinity _, .infinity _ => nan
  | .infinity s, .finite t _ _ => infinity (s != t)
  | .finite s _ _, .infinity t => ofMagnitude (s != t) 0
  | .finite s m e, .finite t n f =>
    if n = 0 then if m = 0 then nan else infinity (s != t)
    else if f ≤ e then nearest (s != t) (m * Nat.pow 2 (e - f).toNat) n
    else nearest (s != t) m (n * Nat.pow 2 (f - e).toNat)

/-! ## Comparison -/

/-- Whether the value of `x` is below that of `y`. -/
def lt (x y : Double) : Bool :=
  match x.view, y.view with
  | .nan, _ | _, .nan => false
  | .infinity s, .infinity t => s && !t
  | .infinity s, .finite .. => s
  | .finite .., .infinity t => !t
  | .finite s m e, .finite t n f =>
    let unit := min e f
    inUnits s m e unit < inUnits t n f unit

/-- Whether two doubles have the same value; both zeros do, a NaN differs from itself. -/
def eq (x y : Double) : Bool := !x.isNan && !y.isNan && !x.lt y && !y.lt x

def isZero (x : Double) : Bool := x.exponentField = 0 && x.fractionField = 0

/-! ## Integer part -/

/-- Whether the value is an integer. -/
def isIntegral (x : Double) : Bool :=
  match x.view with
  | .finite _ m e => 0 ≤ e || m % Nat.pow 2 (-e).toNat = 0
  | _ => false

/-- The value without its fraction; `none` for NaN and the infinities. -/
def truncate? (x : Double) : Option Int :=
  match x.view with
  | .finite s m e =>
    let n : Int :=
      if 0 ≤ e then (m * Nat.pow 2 e.toNat : Nat) else (m / Nat.pow 2 (-e).toNat : Nat)
    some (if s then -n else n)
  | _ => none

/-- The value without its fraction, clamped to the 64-bit signed integers; NaN counts as zero. -/
def toInt64 (x : Double) : Int :=
  match x.view with
  | .nan => 0
  | .infinity s => if s then -(Nat.pow 2 63 : Int) else Nat.pow 2 63 - 1
  | .finite .. => max (-(Nat.pow 2 63 : Int)) (min (Nat.pow 2 63 - 1) (x.truncate?.getD 0))

/-! ## Integral neighbours -/

/-- The value without its sign. -/
def abs (x : Double) : Double := ofMagnitude false (x.bits.toNat % Nat.pow 2 63)

/-- The greatest integral value that is not above the value. -/
def floor (x : Double) : Double :=
  match x.view with
  | .finite s m e =>
    if x.isIntegral then x
    else
      let n : Int := (m / Nat.pow 2 (-e).toNat : Nat)
      ofInt (if s then -n - 1 else n)
  | _ => x

/-- The least integral value that is not below the value. -/
def ceiling (x : Double) : Double := x.neg.floor.neg

/-- One half. -/
def half : Double := nearest false 1 2

/-- The nearest integral value; a half goes up. -/
def round (x : Double) : Double := (x.add half).floor

/-! ## Bridge to the machine's functions -/

def toFloat (x : Double) : Float := Float.ofBits x.bits

def ofFloat (x : Float) : Double := ⟨x.toBits⟩

/-- A function of the machine's floating point unit, on doubles. -/
def lift (f : Float → Float) (x : Double) : Double := ofFloat (f x.toFloat)

end Double
end BlockEngine
