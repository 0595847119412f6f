import BlockEngine.Pattern
import BlockEngine.Pattern.Property
import BlockEngine.Text.Digits

/-!
# Reading patterns

`Pattern.parse?` reads a regular expression: literals and escapes, classes with set operations,
groups with flags and names, greedy and lazy repetitions, and assertions. There are no
back-references and no look-around. None is the answer for a text that is no pattern, that nests
too deep or that stands for too large an automaton.
-/

namespace BlockEngine.Pattern

/-- The flags in force at a place of a pattern. -/
structure Flags where
  ignoreCase : Bool
  multiLine : Bool
  dotAll : Bool
  swapGreed : Bool
  unicode : Bool
  anyLineEnd : Bool
  verbose : Bool

def Flags.default : Flags := ⟨false, false, false, false, true, false, false⟩

/-- What is left to read, the flags in force and the group names taken. -/
structure Reader where
  rest : List Char
  flags : Flags
  names : List String

abbrev Read (α : Type) := StateT Reader Option α

namespace Read

def refuse {α : Type} : Read α := fun _ => none

def demand (b : Bool) : Read Unit := if b then pure () else refuse

def ofOption {α : Type} (o : Option α) : Read α := fun r => o.map (·, r)

def peek? : Read (Option Char) := return (← get).rest.head?

def peekNext? : Read (Option Char) := return ((← get).rest.drop 1).head?

def bump : Read Unit := modify fun r => { r with rest := r.rest.drop 1 }

/-- The next character, which has to be there. -/
def current : Read Char := do ofOption (← peek?)

def flags : Read Flags := return (← get).flags

/-- Go on at a later place. -/
def moveTo (rest : List Char) : Read Unit := modify fun r => { r with rest }

/-- What follows blanks and comments. -/
def dropComments : Nat → List Char → List Char
  | 0, cs => cs
  | fuel + 1, cs =>
    match cs.dropWhile isBlank with
    | '#' :: rest => dropComments fuel (rest.dropWhile (· ≠ '\n'))
    | cs => cs

/-- Pass over blanks and comments if the pattern is verbose. -/
def skipSpace : Read Unit :=
  modify fun r =>
    if r.flags.verbose then { r with rest := dropComments (r.rest.length + 1) r.rest } else r

def bumpSpace : Read Unit := do
  bump
  skipSpace

/-- The character after the next one, blanks and comments passed over. -/
def peekSpace? : Read (Option Char) := do
  let r ← get
  let rest := r.rest.drop 1
  let rest := if r.flags.verbose then dropComments (rest.length + 1) rest else rest
  return rest.head?

/-- Pass over `c` if it comes next. -/
def bumpIf (c : Char) : Read Bool := do
  if (← peek?) = some c then
    bump
    return true
  else return false

end Read

open Read

/-! ## Small parts -/

/-- The characters with a meaning of their own. -/
def metaChars : List Char := "\\.+*?()|[]\x7b\x7d^$#&-~".toList

/-- Whether a character may be escaped to stand for itself. -/
def isEscapable (c : Char) : Bool :=
  metaChars.contains c ||
    (c.toNat < 128 && !(c.isDigit || c.isAlpha || c = '<' || c = '>'))

/-- A decimal number, with blanks around it. -/
def readDecimal : Read Nat := do
  modify fun r => { r with rest := r.rest.dropWhile isBlank }
  let digits := (← get).rest.takeWhile Char.isDigit
  modify fun r => { r with rest := (r.rest.dropWhile Char.isDigit).dropWhile isBlank }
  demand (!digits.isEmpty)
  let n := digitsValue digits
  demand (n < Nat.pow 2 32)
  return n

/-- Name the flag of a letter, and how to set it. -/
def flagOf? (c : Char) : Option (Bool → Flags → Flags) :=
  match c with
  | 'i' => some fun b f => { f with ignoreCase := b }
  | 'm' => some fun b f => { f with multiLine := b }
  | 's' => some fun b f => { f with dotAll := b }
  | 'U' => some fun b f => { f with swapGreed := b }
  | 'u' => some fun b f => { f with unicode := b }
  | 'R' => some fun b f => { f with anyLineEnd := b }
  | 'x' => some fun b f => { f with verbose := b }
  | _ => none

/-- The letters of a flag group up to its colon or closing parenthesis, which is left. No letter
comes twice, and something follows the one hyphen. -/
def readFlags : Nat → List Char → Bool → Flags → Read (List Char × Flags)
  | 0, _, _, _ => refuse
  | fuel + 1, seen, on, f => do
    let c ← current
    if c = ':' || c = ')' then
      demand (on || seen.head? ≠ some '-')
      return (seen, f)
    else
      demand (!seen.contains c)
      bump
      if c = '-' then readFlags fuel (c :: seen) false f
      else
        let set ← ofOption (flagOf? c)
        readFlags fuel (c :: seen) on (set on f)

/-- The name of a group after its opening angle, up to the closing one. -/
def readGroupName : Read Unit := do
  let r ← get
  let name := r.rest.takeWhile (· ≠ '>')
  let valid :=
    match name with
    | [] => false
    | c :: cs =>
      (c = '_' || isAlphabetic c) &&
        cs.all fun c => c = '_' || c = '.' || c = '[' || c = ']' || isAlphabetic c ||
          ([.decimalNumber, .letterNumber, .otherNumber] : List Category).contains (.ofChar c)
  demand (valid && name.length < r.rest.length && !r.names.contains (String.ofList name))
  moveTo (r.rest.drop (name.length + 1))
  modify fun r => { r with names := String.ofList name :: r.names }

/-! ## Sets under flags -/

/-- The case variants of a set too, if case is ignored. -/
def foldIf (f : Flags) (s : CharSet) : CharSet :=
  if f.ignoreCase then
    if f.unicode then .folded s else .inter (.folded s) (.range 0 127)
  else s

/-- A set that may be used under the flags: without Unicode it has to stay inside ASCII. -/
def checked (f : Flags) (s : CharSet) : Read CharSet := do
  demand (f.unicode || s.isAscii)
  return s

/-- The letters of words under the flags. -/
def wordSet (f : Flags) : CharSet := if f.unicode then .word else .asciiWord

/-- What an escape or a plain character stands for. -/
inductive Atom where
  | literal (c : Char)
  | chars (s : CharSet)
  | position (a : Assertion)

/-- The set of a literal. -/
def literalSet (f : Flags) (c : Char) : CharSet :=
  if f.unicode || c.toNat < 128 then foldIf f (.single c) else .single c

/-! ## Escapes -/

/-- The code point of a hexadecimal escape: a fixed number of digits, or any number in braces. Two
digits name a byte where Unicode is off, and only ASCII bytes are characters. -/
def readHexEscape (width : Nat) : Read Char := do
  bumpSpace
  let braced := (← current) = '\x7b'
  let digits ←
    if braced then do
      bumpSpace
      let f ← flags
      let r ← get
      let inner := r.rest.takeWhile (· ≠ '\x7d')
      demand (inner.length < r.rest.length)
      moveTo (r.rest.drop (inner.length + 1))
      skipSpace
      pure (if f.verbose then inner.filter (!isBlank ·) else inner)
    else readFixed width
  demand (!digits.isEmpty)
  let n ← ofOption (baseValue? 16 digits)
  demand (n < 0xd800 || (0xe000 ≤ n && n < 0x110000))
  demand ((← flags).unicode || braced || width ≠ 2 || n < 128)
  return Char.ofNat n
where
  readFixed : Nat → Read (List Char)
    | 0 => return []
    | n + 1 => do
      let c ← current
      bumpSpace
      return c :: (← readFixed n)

/-- The set of a property escape after its letter. -/
def readProperty : Read CharSet := do
  bumpSpace
  let c ← current
  if c = '\x7b' then
    bumpSpace
    let r ← get
    let inner := r.rest.takeWhile (· ≠ '\x7d')
    demand (inner.length < r.rest.length)
    moveTo (r.rest.drop (inner.length + 1))
    let inner := if r.flags.verbose then inner.filter (!isBlank ·) else inner
    ofOption (ofName inner)
  else
    demand (c ≠ '\\')
    bumpSpace
    ofOption (CharSet.property? (String.ofList [c]))
where
  ofName (cs : List Char) : Option CharSet :=
    let name := cs.takeWhile fun c => !(c = ':' || c = '=')
    match cs.drop name.length with
    | '=' :: value =>
      if name.getLast? = some '!' then
        (CharSet.propertyValue? (String.ofList name.dropLast) (String.ofList value)).map .complement
      else CharSet.propertyValue? (String.ofList name) (String.ofList value)
    | _ :: value => CharSet.propertyValue? (String.ofList name) (String.ofList value)
    | [] => CharSet.property? (String.ofList cs)

/-- The assertion of a name in braces after a word boundary, if there is one. -/
def readBoundaryName : Read Assertion := do
  let r ← get
  let verbose := r.flags.verbose
  match r.rest with
  | '\x7b' :: rest =>
    let rest := if verbose then dropComments (rest.length + 1) rest else rest
    let c ← ofOption rest.head?
    if !(c.isAlpha || c = '-') then return .wordBoundary
    else
      let inner := rest.takeWhile (· ≠ '\x7d')
      demand (inner.length < rest.length)
      moveTo (rest.drop (inner.length + 1))
      let inner := if verbose then inner.filter (!isBlank ·) else inner
      match String.ofList inner with
      | "start" => return .wordStart
      | "end" => return .wordEnd
      | "start-half" => return .wordStartHalf
      | "end-half" => return .wordEndHalf
      | _ => refuse
  | _ => return .wordBoundary

/-- The set of a letter escape for digits, blanks or words. -/
def perlSet? (f : Flags) (c : Char) : Option CharSet :=
  match c with
  | 'd' | 'D' => some (if f.unicode then .digit else .asciiDigit)
  | 's' | 'S' => some (if f.unicode then .blank else .asciiBlank)
  | 'w' | 'W' => some (wordSet f)
  | _ => none

/-- The characters of the one letter escapes. -/
def controlEscape? (c : Char) : Option Char :=
  match c with
  | 'a' => some '\x07'
  | 'f' => some '\x0c'
  | 't' => some '\t'
  | 'n' => some '\n'
  | 'r' => some '\r'
  | 'v' => some '\x0b'
  | _ => none

/-- What follows a backslash. -/
def readEscape : Read Atom := do
  bump
  let c ← current
  let f ← flags
  if c.isDigit then refuse
  else if c = 'x' then return .literal (← readHexEscape 2)
  else if c = 'u' then return .literal (← readHexEscape 4)
  else if c = 'U' then return .literal (← readHexEscape 8)
  else if c = 'p' || c = 'P' then
    demand f.unicode
    let s ← readProperty
    return .chars ((foldIf f s).negateIf (c = 'P'))
  else
    bump
    match perlSet? f c with
    | some s => return .chars (← checked f (s.negateIf c.isUpper))
    | none =>
      if isEscapable c then return .literal c
      else
        match controlEscape? c with
        | some e => return .literal e
        | none =>
          match c with
          | 'A' => return .position .textStart
          | 'z' => return .position .textEnd
          | 'b' => return .position (← readBoundaryName)
          | 'B' => return .position .notWordBoundary
          | '<' => return .position .wordStart
          | '>' => return .position .wordEnd
          | _ => refuse

/-- One escape or plain character outside of classes. -/
def readAtom : Read Atom := do
  let c ← current
  let f ← flags
  match c with
  | '\\' => readEscape
  | '.' =>
    bump
    demand f.unicode
    if f.dotAll then return .chars .all
    else if f.anyLineEnd then return .chars (.complement (.ofRanges [(10, 10), (13, 13)]))
    else return .chars (.complement (.single '\n'))
  | '^' =>
    bump
    return .position
      (if f.multiLine then if f.anyLineEnd then .anyLineStart else .lineStart else .textStart)
  | '$' =>
    bump
    return .position
      (if f.multiLine then if f.anyLineEnd then .anyLineEnd else .lineEnd else .textEnd)
  | c =>
    bump
    return .literal c

/-! ## Classes -/

inductive SetOp where
  | intersection
  | difference
  | symmetricDifference

/-- The set so far of a class: what stands before the last operation, and the items after it. -/
def combine (f : Flags) (left : Option (SetOp × CharSet)) (items : CharSet) : CharSet :=
  match left with
  | none => items
  | some (op, s) =>
    let s := foldIf f s
    let t := foldIf f items
    match op with
    | .intersection => .inter s t
    | .difference => s.diff t
    | .symmetricDifference => s.symmDiff t

/-- An ASCII class `[:name:]` at the head, if there is one. -/
def readAsciiClass? : Read (Option CharSet) := do
  let r ← get
  match r.rest with
  | '[' :: ':' :: rest =>
    let (negated, rest) :=
      match rest with
      | '^' :: rest => (true, rest)
      | rest => (false, rest)
    let name := rest.takeWhile (· ≠ ':')
    match rest.drop name.length with
    | ':' :: ']' :: rest =>
      match CharSet.asciiClass? (String.ofList name) with
      | some s =>
        moveTo rest
        return some ((foldIf r.flags s).negateIf negated)
      | none => return none
    | _ => return none
  | _ => return none

/-- One item of a class: a character or an escape. -/
def readClassAtom : Read Atom := do
  let c ← current
  if c = '\\' then readEscape
  else
    bump
    return .literal c

/-- One item of a class or a range of characters. A hyphen before the end of the class or another
hyphen stands for itself. -/
def readClassRange : Read CharSet := do
  let first ← readClassAtom
  skipSpace
  let c ← current
  let after ← peekSpace?
  if c ≠ '-' || after = some ']' || after = some '-' then
    match first with
    | .literal c => return .single c
    | .chars s => return s
    | .position _ => refuse
  else
    bumpSpace
    let last ← readClassAtom
    match first, last with
    | .literal low, .literal high =>
      demand (low ≤ high)
      return .range low.toNat high.toNat
    | _, _ => refuse

/-- The hyphens at the head of a class. -/
def readHyphens : Nat → CharSet → Read CharSet
  | 0, s => return s
  | fuel + 1, s => do
    if (← current) = '-' then
      bumpSpace
      readHyphens fuel (.union s (.single '-'))
    else return s

mutual

/-- A class, from its opening bracket to its closing one. -/
def readClass : Nat → Read CharSet
  | 0 => refuse
  | fuel + 1 => do
    bumpSpace
    let negated := (← current) = '^'
    if negated then bumpSpace
    let hyphens ← readHyphens ((← get).rest.length) .empty
    let c ← current
    let first ←
      match hyphens with
      | .empty =>
        if c = ']' then do
          bumpSpace
          pure (.single ']')
        else pure .empty
      | s => pure s
    let s ← readClassItems fuel none first
    let f ← flags
    checked f ((foldIf f s).negateIf negated)

/-- The items of a class up to its closing bracket. -/
def readClassItems : Nat → Option (SetOp × CharSet) → CharSet → Read CharSet
  | 0, _, _ => refuse
  | fuel + 1, left, items => do
    skipSpace
    let c ← current
    let next ← peekNext?
    let f ← flags
    let operation (op : SetOp) : Read CharSet := do
      bump
      bump
      readClassItems fuel (some (op, combine f left items)) .empty
    if c = '[' then
      match ← readAsciiClass? with
      | some s => readClassItems fuel left (.union items s)
      | none =>
        let s ← readClass fuel
        readClassItems fuel left (.union items s)
    else if c = ']' then
      bump
      return combine f left items
    else if c = '&' && next = some '&' then operation .intersection
    else if c = '-' && next = some '-' then operation .difference
    else if c = '~' && next = some '~' then operation .symmetricDifference
    else
      let s ← readClassRange
      readClassItems fuel left (.union items s)

end

/-! ## Repetitions -/

/-- A counted repetition after its opening brace. -/
def readCount : Read (Nat × Option Nat) := do
  bumpSpace
  let least ← readDecimal
  let most ←
    if ← bumpIf ',' then do
      skipSpace
      if (← current) = '\x7d' then pure none
      else
        let n ← readDecimal
        demand (least ≤ n)
        pure (some n)
    else pure (some least)
  demand (← bumpIf '\x7d')
  return (least, most)

/-! ## Sequences and groups -/

/-- The pattern of items in reverse; settings of flags stand for nothing. -/
def sequence (items : List (Option Pattern)) : Pattern :=
  items.foldl (fun p item =>
    match item with
    | none => p
    | some q =>
      match p with
      | .empty => q
      | p => .concat q p) .empty

def withAlternatives (done : Option Pattern) (p : Pattern) : Pattern :=
  match done with
  | none => p
  | some d => .alternate d p

/-- Repeat the last item, which has to be a pattern. -/
def repeatLast (least : Nat) (most : Option Nat) (items : List (Option Pattern)) :
    Read (List (Option Pattern)) :=
  match items with
  | some p :: rest => return some (.repeated least most p) :: rest
  | _ => refuse

def atomPattern (f : Flags) : Atom → Pattern
  | .literal c => .set (literalSet f c)
  | .chars s => .set s
  | .position a => .assert a (wordSet f)

mutual

/-- The alternatives up to a closing parenthesis or the end, which are left. -/
def readItems : Nat → Option Pattern → List (Option Pattern) → Read Pattern
  | 0, _, _ => refuse
  | fuel + 1, done, items => do
    skipSpace
    match ← peek? with
    | none | some ')' => return withAlternatives done (sequence items)
    | some '|' =>
      bump
      readItems fuel (some (withAlternatives done (sequence items))) []
    | some '(' =>
      let g ← readGroup fuel
      readItems fuel done (g :: items)
    | some '[' =>
      let s ← readClass fuel
      readItems fuel done (some (.set s) :: items)
    | some '?' =>
      bump
      let _ ← bumpIf '?'
      readItems fuel done (← repeatLast 0 (some 1) items)
    | some '*' =>
      bump
      let _ ← bumpIf '?'
      readItems fuel done (← repeatLast 0 none items)
    | some '+' =>
      bump
      let _ ← bumpIf '?'
      readItems fuel done (← repeatLast 1 none items)
    | some '\x7b' =>
      demand ((items.head?.bind id).isSome)
      let (least, most) ← readCount
      skipSpace
      let _ ← bumpIf '?'
      readItems fuel done (← repeatLast least most items)
    | some _ =>
      let f ← flags
      let a ← readAtom
      readItems fuel done (some (atomPattern f a) :: items)

/-- A group, from its opening parenthesis on. A group of flags alone changes the flags of what
follows and stands for nothing. -/
def readGroup : Nat → Read (Option Pattern)
  | 0 => refuse
  | fuel + 1 => do
    bumpSpace
    let outer ← flags
    let r ← get
    match r.rest with
    | '?' :: '=' :: _ | '?' :: '!' :: _ | '?' :: '<' :: '=' :: _ | '?' :: '<' :: '!' :: _ => refuse
    | '?' :: 'P' :: '<' :: rest | '?' :: '<' :: rest =>
      moveTo rest
      readGroupName
      readGroupBody fuel outer
    | '?' :: rest =>
      moveTo rest
      let (seen, inner) ← readFlags (rest.length + 1) [] true outer
      let close ← current
      bump
      modify fun r => { r with flags := inner }
      if close = ')' then
        demand (!seen.isEmpty)
        return none
      else readGroupBody fuel outer
    | _ => readGroupBody fuel outer

/-- The alternatives of a group and its closing parenthesis, after which the outer flags hold. -/
def readGroupBody : Nat → Flags → Read (Option Pattern)
  | 0, _ => refuse
  | fuel + 1, outer => do
    let p ← readItems fuel none []
    demand (← bumpIf ')')
    modify fun r => { r with flags := outer }
    return some (.group p)

end

/-- Patterns nest no deeper than this. -/
def nestingLimit : Nat := 250

/-- The automaton of a pattern takes no more bytes than this. -/
def weightLimit : Nat := 10 * Nat.pow 2 20

/-- The pattern written by a text. -/
def parse? (text : String) : Option Pattern := do
  let cs := text.toList
  let (p, r) ← (readItems (3 * cs.length + 3) none []).run ⟨cs, .default, []⟩
  if r.rest.isEmpty && p.nesting ≤ nestingLimit && p.weight ≤ weightLimit then some p else none

end BlockEngine.Pattern
