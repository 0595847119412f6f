import BlockEngine.Pattern.CharSet

/-!
# Patterns

* `Pattern` : a regular expression over characters, with assertions about positions;
* `Pattern.reach` : from a set of positions of a text to the positions a match can end at;
* `Pattern.isMatch` : whether the pattern matches some part of a text.

Sets of positions are numbers: position `i` is in the set if bit `i` is set.
-/

namespace BlockEngine

/-- What an assertion says about a position. -/
inductive Assertion where
  | textStart
  | textEnd
  | lineStart
  | lineEnd
  /-- Lines end at a carriage return, a line feed, or both together. -/
  | anyLineStart
  | anyLineEnd
  | wordBoundary
  | notWordBoundary
  | wordStart
  | wordEnd
  | wordStartHalf
  | wordEndHalf
deriving DecidableEq

/-- A regular expression. -/
inductive Pattern where
  | empty
  | set (s : CharSet)
  /-- An assertion, with what counts as a word. -/
  | assert (a : Assertion) (letters : CharSet)
  | concat (p q : Pattern)
  | alternate (p q : Pattern)
  /-- From `least` to `most` repetitions. -/
  | repeated (least : Nat) (most : Option Nat) (p : Pattern)
  | group (p : Pattern)

/-- Whether an assertion holds between two characters; an end of the text has none beside it. -/
def Assertion.holds (a : Assertion) (letters : CharSet) (before after : Option Char) : Bool :=
  let wordBefore := (before.map letters.contains).getD false
  let wordAfter := (after.map letters.contains).getD false
  match a with
  | .textStart => before.isNone
  | .textEnd => after.isNone
  | .lineStart => before.isNone || before = some '\n'
  | .lineEnd => after.isNone || after = some '\n'
  | .anyLineStart =>
    before.isNone || before = some '\n' || (before = some '\r' && after ≠ some '\n')
  | .anyLineEnd =>
    after.isNone || after = some '\r' || (after = some '\n' && before ≠ some '\r')
  | .wordBoundary => wordBefore != wordAfter
  | .notWordBoundary => wordBefore == wordAfter
  | .wordStart => !wordBefore && wordAfter
  | .wordEnd => wordBefore && !wordAfter
  | .wordStartHalf => !wordBefore
  | .wordEndHalf => !wordAfter

/-! ## Sets of positions -/

/-- The positions before the characters that satisfy `p`, counted from `i`. -/
def charMask (p : Char → Bool) : Nat → List Char → Nat
  | _, [] => 0
  | i, c :: cs => (if p c then Nat.pow 2 i else 0) ||| charMask p (i + 1) cs

/-- The positions where `p` holds of the characters before and after, counted from `i`. -/
def gapMask (p : Option Char → Option Char → Bool) : Option Char → Nat → List Char → Nat
  | before, i, [] => if p before none then Nat.pow 2 i else 0
  | before, i, c :: cs =>
    (if p before (some c) then Nat.pow 2 i else 0) ||| gapMask p (some c) (i + 1) cs

/-- Apply `f` up to `n` times, stopping at the empty set. -/
def iterateSet (f : Nat → Nat) : Nat → Nat → Nat
  | 0, s => s
  | n + 1, s => if s = 0 then 0 else iterateSet f n (f s)

/-- The union of `s` and what `f` reaches from it in up to `n` steps. -/
def closeSet (f : Nat → Nat) : Nat → Nat → Nat
  | 0, s => s
  | n + 1, s =>
    let t := s ||| f s
    if t = s then s else closeSet f n t

namespace Pattern

/-- The positions where a match that starts in `from` can end. A set of positions grows at most
as often as there are positions, which bounds an unbounded repetition. -/
def reach (text : List Char) : Pattern → Nat → Nat
  | .empty, s => s
  | .set cs, s => (s &&& charMask cs.contains 0 text) <<< 1
  | .assert a letters, s => s &&& gapMask (a.holds letters) none 0 text
  | .concat p q, s => q.reach text (p.reach text s)
  | .alternate p q, s => p.reach text s ||| q.reach text s
  | .repeated least most p, s =>
    let s := iterateSet (p.reach text) least s
    match most with
    | none => closeSet (p.reach text) (text.length + 1) s
    | some n => closeSet (p.reach text) (n - least) s
  | .group p, s => p.reach text s

/-- Whether the pattern matches some part of a text. -/
def isMatch (p : Pattern) (text : String) : Bool :=
  let cs := text.toList
  p.reach cs (Nat.pow 2 (cs.length + 1) - 1) ≠ 0

/-- How deep a pattern nests. -/
def nesting : Pattern → Nat
  | .empty | .set _ | .assert .. => 0
  | .concat p q | .alternate p q => max p.nesting q.nesting
  | .repeated _ _ p => p.nesting + 1
  | .group p => p.nesting + 1

/-- A rough size of the automaton for a pattern, in bytes. -/
def weight : Pattern → Nat
  | .empty => 0
  | .set s => s.weight
  | .assert .. => 32
  | .concat p q => p.weight + q.weight
  | .alternate p q => p.weight + q.weight + 48
  | .repeated least most p =>
    match most with
    | none => (max least 1) * p.weight + 48
    | some n => n * p.weight + (n - least) * 48
  | .group p => p.weight

end Pattern
end BlockEngine
