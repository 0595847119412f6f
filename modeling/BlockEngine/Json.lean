import BlockEngine.Double
import BlockEngine.Keyed

/-!
# JSON values

The values that blocks exchange and documents hold. Integers between `-2 ^ 63` and `2 ^ 64` are
kept apart from doubles, so `1` and `1.0` are different values; the members of an object are in key
order and each name occurs once.
-/

namespace BlockEngine

/-- A JSON number: an integer of the 64-bit ranges, signed or unsigned, or a finite double. -/
inductive Number where
  | int (i : Int)
  | real (d : Double)
deriving DecidableEq, Inhabited

namespace Number

/-- Equality of numbers: integers and doubles never agree, doubles agree by value. -/
def same : Number → Number → Bool
  | .int i, .int j => i = j
  | .real x, .real y => x.eq y
  | _, _ => false

/-- The nearest double. -/
def toDouble : Number → Double
  | .int i => Double.ofInt i
  | .real d => d

/-- The number as a signed 64-bit integer; doubles are none. -/
def toInt64? : Number → Option Int
  | .int i => if i < Nat.pow 2 63 then some i else none
  | .real _ => none

/-- The number as an unsigned 64-bit integer; doubles are none. -/
def toUInt64? : Number → Option Nat
  | .int i => if 0 ≤ i then some i.toNat else none
  | .real _ => none

end Number

/-- A JSON value. The members of an object are in key order. -/
inductive Json where
  | null
  | bool (b : Bool)
  | num (n : Number)
  | str (s : String)
  | arr (items : List Json)
  | obj (members : List (String × Json))
deriving Inhabited

namespace Json

/-! ## Building -/

def ofInt (i : Int) : Json := .num (.int i)

def ofNat (n : Nat) : Json := .num (.int n)

/-- The object with the given members; of two members of one name the later stays. -/
def object (members : List (String × Json)) : Json := .obj (Keyed.ofList members)

/-- Text or null. -/
def ofOption : Option String → Json
  | some s => .str s
  | none => .null

/-! ## Looking inside -/

def isNull : Json → Bool
  | .null => true
  | _ => false

def isObject : Json → Bool
  | .obj _ => true
  | _ => false

def str? : Json → Option String
  | .str s => some s
  | _ => none

def bool? : Json → Option Bool
  | .bool b => some b
  | _ => none

def arr? : Json → Option (List Json)
  | .arr items => some items
  | _ => none

/-- The value as a signed 64-bit integer, if it is one. -/
def int64? : Json → Option Int
  | .num n => n.toInt64?
  | _ => none

/-- The value as an unsigned 64-bit integer, if it is one. -/
def uint64? : Json → Option Nat
  | .num n => n.toUInt64?
  | _ => none

/-- The member of an object; nothing has members but objects. -/
def get? (j : Json) (name : String) : Option Json :=
  match j with
  | .obj members => Keyed.get? name members
  | _ => none

/-! ## Equality -/

mutual

/-- Equality of values, with numbers compared by `Number.same`. -/
def same : Json → Json → Bool
  | .null, .null => true
  | .bool a, .bool b => a == b
  | .num a, .num b => a.same b
  | .str a, .str b => a == b
  | .arr a, .arr b => sameItems a b
  | .obj a, .obj b => sameMembers a b
  | _, _ => false

def sameItems : List Json → List Json → Bool
  | [], [] => true
  | a :: as, b :: bs => same a b && sameItems as bs
  | _, _ => false

def sameMembers : List (String × Json) → List (String × Json) → Bool
  | [], [] => true
  | (k, a) :: as, (l, b) :: bs => k == l && same a b && sameMembers as bs
  | _, _ => false

end

end Json
end BlockEngine
