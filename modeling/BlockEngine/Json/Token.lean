import BlockEngine.Double.Decimal
import BlockEngine.Json
import BlockEngine.Text.Chars
import BlockEngine.Text.Digits

/-!
# Tokens of JSON text

* `Numeral` : a number as written; `Numeral.number?` its value, none beyond the range of doubles;
* `Json.Token.scan` : the tokens of a text, none if some part of it is no token.

A string token holds its text, or nothing when one of its escapes is half of a surrogate pair:
such a string is well formed but stands for no text.
-/

namespace BlockEngine

/-- A number as written: `± digits * 10 ^ exponent`; `plain` without a fraction or an exponent. -/
structure Numeral where
  negative : Bool
  digits : Nat
  exponent : Int
  plain : Bool
deriving DecidableEq

/-- The value of a written number. Plain numbers in the 64-bit ranges are integers, except a
negative zero; all others are the nearest double, which has to be finite. -/
def Numeral.number? (n : Numeral) : Option Number :=
  if n.plain && !n.negative && n.digits < Nat.pow 2 64 then some (.int n.digits)
  else if n.plain && n.negative && 0 < n.digits && n.digits ≤ Nat.pow 2 63 then
    some (.int (-(n.digits : Int)))
  else
    let d := Double.ofDecimal n.negative n.digits n.exponent
    if d.isFinite then some (.real d) else none

namespace Json

inductive Token where
  | openArray
  | closeArray
  | openObject
  | closeObject
  | comma
  | colon
  | null
  | bool (b : Bool)
  | number (n : Numeral)
  | string (text : Option String)
deriving DecidableEq

namespace Token

def isBlank (c : Char) : Bool := c = ' ' || c = '\n' || c = '\t' || c = '\r'

/-- The 16-bit unit written by four hexadecimal digits. -/
def hexUnit? (a b c d : Char) : Option Nat := do
  return (← hexValue? a) * 4096 + (← hexValue? b) * 256 + (← hexValue? c) * 16 + (← hexValue? d)

/-- What a string holds so far: its characters in reverse, whether all of them are characters, and
the first half of a surrogate pair that waits for the second. -/
structure StringState where
  reversed : List Char
  valid : Bool
  half : Option Nat

def StringState.push (s : StringState) (c : Char) : StringState :=
  { reversed := c :: s.reversed, valid := s.valid && s.half.isNone, half := none }

/-- Add the unit of a four digit escape. -/
def StringState.pushUnit (s : StringState) (u : Nat) : StringState :=
  match s.half with
  | some h =>
    if 0xdc00 ≤ u && u < 0xe000 then
      { s with
        reversed := Char.ofNat (0x10000 + (h - 0xd800) * 0x400 + (u - 0xdc00)) :: s.reversed
        half := none }
    else { s with valid := false, half := none }
  | none =>
    if 0xd800 ≤ u && u < 0xdc00 then { s with half := some u }
    else if 0xdc00 ≤ u && u < 0xe000 then { s with valid := false }
    else s.push (Char.ofNat u)

def StringState.text (s : StringState) : Option String :=
  if s.valid && s.half.isNone then some (String.ofList s.reversed.reverse) else none

/-- The character of a one letter escape. -/
def escaped? (c : Char) : Option Char :=
  match c with
  | '"' => some '"'
  | '\\' => some '\\'
  | '/' => some '/'
  | 'b' => some '\x08'
  | 'f' => some '\x0c'
  | 'n' => some '\n'
  | 'r' => some '\r'
  | 't' => some '\t'
  | _ => none

/-- The rest of a string after its opening quote, and the text that follows it. -/
def scanString (s : StringState) : List Char → Option (Option String × List Char)
  | [] => none
  | '"' :: rest => some (s.text, rest)
  | '\\' :: 'u' :: a :: b :: c :: d :: rest =>
    match hexUnit? a b c d with
    | some u => scanString (s.pushUnit u) rest
    | none => none
  | '\\' :: c :: rest =>
    match escaped? c with
    | some e => scanString (s.push e) rest
    | none => none
  | c :: rest => if c = '\\' || c.toNat < 0x20 then none else scanString (s.push c) rest

/-- The digits at the head of a text, at least one, and what follows. -/
def scanDigits (cs : List Char) : Option (List Char × List Char) :=
  match cs.takeWhile Char.isDigit with
  | [] => none
  | ds => some (ds, cs.dropWhile Char.isDigit)

/-- The exponent part at the head of a text, if there is one. -/
def scanExponent (cs : List Char) : Option (Option Int × List Char) :=
  match cs with
  | c :: rest =>
    if c = 'e' || c = 'E' then do
      let (negative, rest) :=
        match rest with
        | '+' :: rest => (false, rest)
        | '-' :: rest => (true, rest)
        | rest => (false, rest)
      let (ds, rest) ← scanDigits rest
      let n : Int := digitsValue ds
      return (some (if negative then -n else n), rest)
    else some (none, cs)
  | [] => some (none, [])

/-- Whether a number starts with a minus, and what follows. -/
def scanSign (cs : List Char) : Bool × List Char :=
  match cs with
  | '-' :: rest => (true, rest)
  | cs => (false, cs)

/-- The digits before the point. A leading zero stands alone there. -/
def scanWhole (cs : List Char) : Option (List Char × List Char) :=
  match cs with
  | '0' :: rest => some (['0'], rest)
  | cs => scanDigits cs

/-- The digits after the point, none without a point. -/
def scanFraction (cs : List Char) : Option (List Char × List Char) :=
  match cs with
  | '.' :: rest => scanDigits rest
  | cs => some ([], cs)

/-- A number at the head of a text. -/
def scanNumber (cs : List Char) : Option (Numeral × List Char) := do
  let (negative, cs) := scanSign cs
  let (whole, cs) ← scanWhole cs
  let (fraction, cs) ← scanFraction cs
  let (exponent, cs) ← scanExponent cs
  return ({ negative
            digits := digitsValue (whole ++ fraction)
            exponent := exponent.getD 0 - fraction.length
            plain := fraction.isEmpty && exponent.isNone }, cs)

/-- The token at the head of a text that does not start with a blank. -/
def scanOne (cs : List Char) : Option (Token × List Char) :=
  match cs with
  | '[' :: rest => some (.openArray, rest)
  | ']' :: rest => some (.closeArray, rest)
  | '\x7b' :: rest => some (.openObject, rest)
  | '\x7d' :: rest => some (.closeObject, rest)
  | ',' :: rest => some (.comma, rest)
  | ':' :: rest => some (.colon, rest)
  | 'n' :: 'u' :: 'l' :: 'l' :: rest => some (.null, rest)
  | 't' :: 'r' :: 'u' :: 'e' :: rest => some (.bool true, rest)
  | 'f' :: 'a' :: 'l' :: 's' :: 'e' :: rest => some (.bool false, rest)
  | '"' :: rest =>
    (scanString ⟨[], true, none⟩ rest).map fun (text, rest) => (.string text, rest)
  | cs => (scanNumber cs).map fun (n, rest) => (.number n, rest)

/-- The tokens of a text of at most `fuel` characters, in reverse before `done`. -/
def scanAll : Nat → List Token → List Char → Option (List Token)
  | _, done, [] => some done.reverse
  | 0, _, _ :: _ => none
  | fuel + 1, done, c :: cs =>
    if isBlank c then scanAll fuel done cs
    else
      match scanOne (c :: cs) with
      | some (t, rest) => scanAll fuel (t :: done) rest
      | none => none

/-- The tokens of a text. -/
def scan (s : String) : Option (List Token) :=
  let cs := chars s
  scanAll cs.length [] cs

end Token
end Json
end BlockEngine
