import BlockEngine.Double

/-!
# Doubles in decimal

* `Double.shortest` : the shortest decimal that reads back as a positive double, the nearest of
  them where several have that length;
* `DecimalLayout` : where positional notation ends and what an exponent looks like;
* `Double.text` : the text of a finite double under `DecimalLayout.standard`;
* `Double.ofDecimal` : the double nearest to `± digits * 10 ^ exponent`.
-/

namespace BlockEngine

/-- Number of decimal digits of `n`, none for zero. -/
def digitCount (n : Nat) : Nat :=
  if n = 0 then 0 else digitCount (n / 10) + 1

namespace Double

/-! ## Shortest digits -/

/-- The numbers that round to a positive double, as ratios: from `low` to `high`, the value itself
at `value`, the ends included or not. -/
structure Neighbourhood where
  low : Nat
  value : Nat
  high : Nat
  den : Nat
  closed : Bool

/-- The neighbourhood of `mantissa * 2 ^ exponent`. The gap below a power of two is half the gap
above it, unless the exponent is the least. -/
def neighbourhood (mantissa : Nat) (exponent : Int) : Neighbourhood :=
  let below := if mantissa = Nat.pow 2 52 && exponent ≠ -1074 then 1 else 2
  let (num, den) := scale 1 1 (-(exponent - 2))
  { low := (4 * mantissa - below) * num
    value := 4 * mantissa * num
    high := (4 * mantissa + 2) * num
    den
    closed := mantissa % 2 = 0 }

/-- Whether `n * 10 ^ p` lies in the neighbourhood. -/
def Neighbourhood.contains (b : Neighbourhood) (n : Nat) (p : Int) : Bool :=
  let x := n * Nat.pow 10 p.toNat * b.den
  let unit := Nat.pow 10 (-p).toNat
  if b.closed then b.low * unit ≤ x && x ≤ b.high * unit
  else b.low * unit < x && x < b.high * unit

/-- The `k` with `10 ^ (k - 1) ≤ num / den < 10 ^ k`, for positive numbers. -/
def magnitudeOf (num den : Nat) : Int :=
  if den ≤ num then digitCount (num / den)
  else 1 - (digitCount ((den + num - 1) / num - 1) : Int)

/-- The point of the grid of multiples of `10 ^ p` inside the neighbourhood that is nearest to its
value, if one of the value's two neighbours on the grid lies inside; a tie goes to the even one. -/
def Neighbourhood.onGrid (b : Neighbourhood) (p : Int) : Option Nat :=
  let num := b.value * Nat.pow 10 (-p).toNat
  let den := b.den * Nat.pow 10 p.toNat
  let n := num / den
  let r := num % den
  match b.contains n p, b.contains (n + 1) p with
  | true, true =>
    if 2 * r < den then some n
    else if den < 2 * r then some (n + 1)
    else if n % 2 = 0 then some n else some (n + 1)
  | true, false => some n
  | false, true => some (n + 1)
  | false, false => none

/-- The first grid with a hit, trying `count` more digits from the grid of `10 ^ p` on. -/
def Neighbourhood.search (b : Neighbourhood) : Nat → Int → Nat × Int
  | 0, p => (b.value / b.den, p)
  | count + 1, p =>
    match b.onGrid p with
    | some n => (n, p)
    | none => b.search count (p - 1)

/-- The shortest decimal `digits * 10 ^ exponent` for the positive double
`mantissa * 2 ^ exponent`; seventeen digits always suffice. -/
def shortest (mantissa : Nat) (exponent : Int) : Nat × Int :=
  let b := neighbourhood mantissa exponent
  b.search 17 (magnitudeOf b.value b.den - 1)

end Double

/-! ## Text -/

/-- How a decimal is laid out. A value `0.DDD * 10 ^ k` is written positionally for
`lowest < k ≤ highest`, otherwise with an exponent. -/
structure DecimalLayout where
  lowest : Int
  highest : Int
  mark : String
  positiveSign : String
  fraction : String

/-- Positional up to `10 ^ 16` and down to `10 ^ -5`, always with a fraction there; exponents
carry their sign. -/
def DecimalLayout.standard : DecimalLayout where
  lowest := -5
  highest := 16
  mark := "e"
  positiveSign := "+"
  fraction := ".0"

/-- Drop the trailing zeros of a positive number of units `10 ^ p`. -/
def stripZeros : Nat → Nat → Int → Nat × Int
  | 0, n, p => (n, p)
  | fuel + 1, n, p => if n % 10 = 0 && n ≠ 0 then stripZeros fuel (n / 10) (p + 1) else (n, p)

def zeros (n : Nat) : String := String.ofList (List.replicate n '0')

/-- The text of the positive decimal `digits * 10 ^ p`. -/
def DecimalLayout.render (l : DecimalLayout) (digits : Nat) (p : Int) : String :=
  let (digits, p) := stripZeros (digitCount digits) digits p
  let cs := (toString digits).toList
  let k := p + cs.length
  if l.lowest < k && k ≤ l.highest then
    if 0 ≤ p then String.ofList cs ++ zeros p.toNat ++ l.fraction
    else if 0 < k then
      String.ofList (cs.take k.toNat) ++ "." ++ String.ofList (cs.drop k.toNat)
    else "0." ++ zeros (-k).toNat ++ String.ofList cs
  else
    let lead := String.ofList (cs.take 1)
    let rest := if cs.length = 1 then "" else "." ++ String.ofList (cs.drop 1)
    let e := k - 1
    let sign := if e < 0 then "-" else l.positiveSign
    lead ++ rest ++ l.mark ++ sign ++ toString e.natAbs

namespace Double

/-- The text of a finite double: the shortest digits that read back, in the standard layout. -/
def text (x : Double) : String :=
  match x.view with
  | .nan => "NaN"
  | .infinity s => if s then "-inf" else "inf"
  | .finite s m e =>
    let body :=
      if m = 0 then "0" ++ DecimalLayout.standard.fraction
      else
        let (digits, p) := shortest m e
        DecimalLayout.standard.render digits p
    if s then "-" ++ body else body

/-! ## Reading -/

/-- The double nearest to `± digits * 10 ^ exponent`. Beyond the range of the exponents of
doubles the answer is an infinity or a zero, whatever the digits. -/
def ofDecimal (negative : Bool) (digits : Nat) (exponent : Int) : Double :=
  let k := exponent + digitCount digits
  if digits = 0 || k < -400 then ofMagnitude negative 0
  else if 400 < k then infinity negative
  else if 0 ≤ exponent then nearest negative (digits * Nat.pow 10 exponent.toNat) 1
  else nearest negative digits (Nat.pow 10 (-exponent).toNat)

end Double
end BlockEngine
