import BlockEngine.Text.Blank
import BlockEngine.Text.Fold
import BlockEngine.Text.Word

/-!
# Sets of characters

The classes of a pattern, and `CharSet.contains`, which says what is in them.
-/

namespace BlockEngine

/-- A class of characters. -/
inductive CharSet where
  | empty
  /-- The code points from `low` to `high`. -/
  | range (low high : Nat)
  | categories (cs : List Category)
  | alphabetic
  | word
  | blank
  | complement (s : CharSet)
  | union (s t : CharSet)
  | inter (s t : CharSet)
  /-- The characters with a case variant in the set. -/
  | folded (s : CharSet)

namespace CharSet

def contains : CharSet → Char → Bool
  | .empty, _ => false
  | .range low high, c => low ≤ c.toNat && c.toNat ≤ high
  | .categories cs, c => cs.contains (.ofChar c)
  | .alphabetic, c => isAlphabetic c
  | .word, c => isWordChar c
  | .blank, c => isBlank c
  | .complement s, c => !s.contains c
  | .union s t, c => s.contains c || t.contains c
  | .inter s t, c => s.contains c && t.contains c
  | .folded s, c => (caseVariants c).any s.contains

def single (c : Char) : CharSet := .range c.toNat c.toNat

def ofRanges (rs : List (Nat × Nat)) : CharSet :=
  rs.foldl (fun s r => .union s (.range r.1 r.2)) .empty

def all : CharSet := .complement .empty

def diff (s t : CharSet) : CharSet := .inter s (.complement t)

def symmDiff (s t : CharSet) : CharSet := .union (s.diff t) (t.diff s)

/-- The set, or its complement. -/
def negateIf (negated : Bool) (s : CharSet) : CharSet := if negated then .complement s else s

/-- Whether a set written in ASCII terms stays inside ASCII. -/
def isAscii : CharSet → Bool
  | .empty => true
  | .range _ high => high < 128
  | .union s t => s.isAscii && t.isAscii
  | .inter s t => s.isAscii || t.isAscii
  | .folded s => s.isAscii
  | _ => false

/-- A rough size of the automaton for a set, in bytes. -/
def weight : CharSet → Nat
  | .empty => 32
  | .range low high => if high < 128 then 32 else if low = high then 96 else 160
  | .categories _ => 10000
  | .alphabetic => 20000
  | .word => 20000
  | .blank => 600
  | .complement s => s.weight + 160
  | .union s t => s.weight + t.weight
  | .inter s t => s.weight + t.weight
  | .folded s => 2 * s.weight

end CharSet
end BlockEngine
