import BlockEngine.Text.Digits

/-!
# YAML scalars

A text is read as a list of lines without their breaks. Reading a scalar at the head of the lines
gives its text and the lines that follow, the first of which is the rest of the scalar's last line.

* `Style` : how a scalar is written;
* `Scalar.plain?`, `Scalar.quoted?`, `Scalar.block?` : scalars read in the styles;
* `foldBreaks` : what line breaks inside a scalar become.
-/

namespace BlockEngine.Yaml

abbrev Line := List Char

/-- How a scalar is written. -/
inductive Style where
  | plain
  | quoted
  /-- As a block whose breaks stay. -/
  | literal
  /-- As a block whose lines are joined. -/
  | folded
deriving DecidableEq

/-- A text and how it is written. -/
structure Scalar where
  text : String
  style : Style
deriving DecidableEq

/-! ## Characters and lines -/

def isSpaceOrTab (c : Char) : Bool := c = ' ' || c = '\t'

/-- Whether a line is over or goes on with a blank. -/
def startsBlank : Line → Bool
  | [] => true
  | c :: _ => isSpaceOrTab c

def skipBlanks (l : Line) : Line := l.dropWhile isSpaceOrTab

/-- The line without blanks at its end. -/
def dropBlanksRight (l : Line) : Line := (l.reverse.dropWhile isSpaceOrTab).reverse

/-- The number of spaces a line begins with. -/
def indentOf (l : Line) : Nat := (l.takeWhile (· = ' ')).length

/-- Whether nothing but a comment is left on a line. -/
def isFinished (l : Line) : Bool :=
  match skipBlanks l with
  | [] => true
  | c :: _ => c = '#'

/-- Whether a line is the marker of a document's start or end. -/
def isMarker (mark : Char) (l : Line) : Bool :=
  l.take 3 = [mark, mark, mark] && startsBlank (l.drop 3)

def isDocumentMarker (l : Line) : Bool := isMarker '-' l || isMarker '.' l

/-- What a break followed by `blank` empty lines becomes inside a flowing scalar. -/
def foldBreaks (blank : Nat) : List Char :=
  if blank = 0 then [' '] else List.replicate blank '\n'

/-- The number of blank lines at the head, and the lines after them. -/
def splitBlankLines : List Line → Nat × List Line
  | [] => (0, [])
  | l :: rest =>
    if (skipBlanks l).isEmpty then
      let (n, rest) := splitBlankLines rest
      (n + 1, rest)
    else (0, l :: rest)

/-- The number of characters in lines, with a break after each. -/
def lineSize (lines : List Line) : Nat := lines.foldl (fun n l => n + l.length + 1) 0

namespace Scalar

/-! ## Plain scalars -/

def isFlowIndicator (c : Char) : Bool :=
  c = ',' || c = '[' || c = ']' || c = '\x7b' || c = '\x7d'

/-- Whether a plain scalar may begin with a character that is followed by `rest`. -/
def mayBeginPlain (flow : Bool) (c : Char) (rest : Line) : Bool :=
  if c = '-' then !startsBlank rest
  else if c = '?' || c = ':' then !flow && !startsBlank rest
  else !isSpaceOrTab c && !isFlowIndicator c && !"#&*!|>'\"%@`".toList.contains c

/-- The part of a plain scalar on one line, and the rest of the line. A colon before a blank ends
it, and so does a comment; in a flow collection its indicators do. -/
def plainOnLine (flow : Bool) : Line → Line × Line
  | [] => ([], [])
  | c :: rest =>
    if c = ':' && startsBlank rest then ([], c :: rest)
    else if flow && (isFlowIndicator c || (c = ':' && (rest.head?.map isFlowIndicator).getD false))
    then ([], c :: rest)
    else if isSpaceOrTab c && rest.head? = some '#' then ([], c :: rest)
    else
      let (part, left) := plainOnLine flow rest
      (c :: part, left)

/-- Whether a line is blank, with tabs only where content could begin. -/
def isPlainGap (indent : Nat) (l : Line) : Bool :=
  l.all (· = ' ') || ((skipBlanks l).isEmpty && indent ≤ indentOf l)

/-- The later lines of a plain scalar: they are indented at least by `indent`. Blank lines after it
belong to it as well, but not from one on that has a tab too far to the left. -/
def plainBelow (flow : Bool) (indent : Nat) (fuel : Nat) (text : Line) (rest : Line)
    (below : List Line) : Line × List Line :=
  match fuel with
  | 0 => (text, rest :: below)
  | fuel + 1 =>
    if !(skipBlanks rest).isEmpty then (text, rest :: below)
    else
      match below.takeWhile (isPlainGap indent), below.dropWhile (isPlainGap indent) with
      | _, [] => (text, [rest])
      | gaps, l :: more =>
        let content := skipBlanks l
        let (part, left) := plainOnLine flow content
        if isDocumentMarker l || indentOf l < indent || content.head? = some '#' ||
            part.isEmpty then (text, rest :: l :: more)
        else
          plainBelow flow indent fuel
            (text ++ foldBreaks gaps.length ++ dropBlanksRight part) left more

/-- A plain scalar at the head of the lines. -/
def plain? (flow : Bool) (indent : Nat) : List Line → Option (Scalar × List Line)
  | (c :: cs) :: below =>
    if mayBeginPlain flow c cs then
      let (part, rest) := plainOnLine flow (c :: cs)
      let (text, left) := plainBelow flow indent below.length (dropBlanksRight part) rest below
      some (⟨String.ofList text, .plain⟩, left)
    else none
  | _ => none

/-! ## Quoted scalars -/

/-- What is read inside quotes. -/
inductive QuotedPart where
  /-- Characters that stay as they are. -/
  | chars (cs : List Char)
  /-- A blank, which goes if the line ends after it. -/
  | blank (c : Char)
  /-- The break of a line that is to be left out. -/
  | joined
  /-- The end of the scalar. -/
  | close

/-- The character of an escape, by one letter. -/
def escaped? (c : Char) : Option Char :=
  match c with
  | '0' => some '\x00'
  | 'a' => some '\x07'
  | 'b' => some '\x08'
  | 't' | '\t' => some '\t'
  | 'n' => some '\n'
  | 'v' => some '\x0b'
  | 'f' => some '\x0c'
  | 'r' => some '\r'
  | 'e' => some '\x1b'
  | ' ' | '"' | '/' | '\\' => some c
  | 'N' => some '\u0085'
  | '_' => some '\u00a0'
  | 'L' => some '\u2028'
  | 'P' => some '\u2029'
  | _ => none

/-- The character written by a number of hexadecimal digits. -/
def hexEscape? (width : Nat) (cs : Line) : Option (List Char × Line) := do
  let digits := cs.take width
  if digits.length ≠ width then none
  let n ← baseValue? 16 digits
  if Nat.isValidChar n then some ([Char.ofNat n], cs.drop width) else none

/-- The next part inside double quotes on a line that is not over. -/
def doublePart? : Line → Option (QuotedPart × Line)
  | [] => none
  | '"' :: rest => some (.close, rest)
  | ['\\'] => some (.joined, [])
  | '\\' :: c :: rest =>
    let hex (width : Nat) := (hexEscape? width rest).map fun (cs, rest) => (.chars cs, rest)
    match c with
    | 'x' => hex 2
    | 'u' => hex 4
    | 'U' => hex 8
    | c => (escaped? c).map fun c => (.chars [c], rest)
  | c :: rest => some (if isSpaceOrTab c then .blank c else .chars [c], rest)

/-- The next part inside single quotes on a line that is not over. -/
def singlePart? : Line → Option (QuotedPart × Line)
  | [] => none
  | '\'' :: '\'' :: rest => some (.chars ['\''], rest)
  | '\'' :: rest => some (.close, rest)
  | c :: rest => some (if isSpaceOrTab c then .blank c else .chars [c], rest)

/-- The rest of a quoted scalar. `text` has been read, `blanks` after it go with a line break. -/
def quotedRest? (next? : Line → Option (QuotedPart × Line)) (fuel : Nat) (text blanks : List Char)
    (line : Line) (below : List Line) : Option (String × List Line) :=
  match fuel with
  | 0 => none
  | fuel + 1 =>
    match line with
    | [] =>
      match splitBlankLines below with
      | (_, []) => none
      | (blank, l :: more) =>
        if isDocumentMarker l then none
        else quotedRest? next? fuel (text ++ foldBreaks blank) [] (skipBlanks l) more
    | line =>
      match next? line with
      | none => none
      | some (.close, rest) => some (String.ofList (text ++ blanks), rest :: below)
      | some (.chars cs, rest) => quotedRest? next? fuel (text ++ blanks ++ cs) [] rest below
      | some (.blank c, rest) => quotedRest? next? fuel text (blanks ++ [c]) rest below
      | some (.joined, _) =>
        match splitBlankLines below with
        | (_, []) => none
        | (blank, l :: more) =>
          if isDocumentMarker l then none
          else
            quotedRest? next? fuel (text ++ blanks ++ List.replicate blank '\n') [] (skipBlanks l)
              more

/-- A quoted scalar after its opening quote. -/
def quoted? (next? : Line → Option (QuotedPart × Line)) (line : Line) (below : List Line) :
    Option (Scalar × List Line) :=
  let size := line.length + lineSize below + 1
  (quotedRest? next? (2 * size) [] [] line below).map fun (text, rest) =>
    (⟨text, .quoted⟩, rest)

/-! ## Block scalars -/

/-- What happens to the breaks at the end of a block scalar. -/
inductive Chomping where
  | strip
  | clip
  | keep
deriving DecidableEq

/-- The header of a block scalar after its indicator: the chomping and the indentation it gives. -/
def blockHeader? (l : Line) : Option (Chomping × Option Nat) :=
  let marks := l.takeWhile fun c => !isSpaceOrTab c && c ≠ '#'
  let rest := l.drop marks.length
  if !isFinished rest || (rest.head? = some '#') then none
  else
    match marks with
    | [] => some (.clip, none)
    | [c] =>
      if c = '-' then some (.strip, none)
      else if c = '+' then some (.keep, none)
      else (digit? c).map fun d => (.clip, some d)
    | [c, d] =>
      if c = '-' || c = '+' then (digit? d).map fun n => (sign c, some n)
      else if d = '-' || d = '+' then (digit? c).map fun n => (sign d, some n)
      else none
    | _ => none
where
  sign (c : Char) : Chomping := if c = '-' then .strip else .keep
  digit? (c : Char) : Option Nat :=
    if '1' ≤ c && c ≤ '9' then some (c.toNat - '0'.toNat) else none

/-- The lines of a block scalar and those after it. The last line of a text has no break: it does
not count when it is empty. -/
def blockLines (indent : Nat) : List Line → List Line × List Line
  | [] => ([], [])
  | l :: rest =>
    if l.all (· = ' ') && l.length ≤ indent then
      if rest.isEmpty then ([], l :: rest)
      else
        let (mine, left) := blockLines indent rest
        ([] :: mine, left)
    else if indent ≤ indentOf l then
      let (mine, left) := blockLines indent rest
      (l.drop indent :: mine, left)
    else ([], l :: rest)

/-- The lines of a block scalar as one text. `breaks` is what stands between the text and the next
line: the break after the last line, if there was one, and the empty lines after it. -/
def joinBlock (literal : Bool) (text : List Char) (lastBreak : Bool) (empties : Nat)
    (lastBlank : Bool) : List Line → List Char × Bool × Nat
  | [] => (text, lastBreak, empties)
  | l :: rest =>
    if l.isEmpty then joinBlock literal text lastBreak (empties + 1) lastBlank rest
    else
      let blank := startsBlank l
      let between :=
        if !literal && lastBreak && !lastBlank && !blank then
          if empties = 0 then [' '] else []
        else if lastBreak then ['\n'] else []
      let text := text ++ between ++ List.replicate empties '\n' ++ l
      joinBlock literal text true 0 blank rest

/-- A block scalar after its indicator, inside a mapping at column `parent`. -/
def block? (literal : Bool) (parent : Nat) (header : Line) (below : List Line) :
    Option (Scalar × List Line) := do
  let (chomping, given) ← blockHeader? header
  let indent :=
    match given with
    | some n => parent + n
    | none =>
      let blanks := below.takeWhile fun l => l.all (· = ' ')
      let first := (below.drop blanks.length).head?
      max (parent + 1) (max ((blanks.map List.length).foldl max 0) ((first.map indentOf).getD 0))
  let (mine, left) := blockLines indent below
  let (text, lastBreak, empties) := joinBlock literal [] false 0 false mine
  let ended := lastBreak && !left.isEmpty
  let tail :=
    match chomping with
    | .strip => []
    | .clip => if ended then ['\n'] else []
    | .keep => (if ended then ['\n'] else []) ++ List.replicate empties '\n'
  return (⟨String.ofList (text ++ tail), if literal then .literal else .folded⟩, [] :: left)

end Scalar
end BlockEngine.Yaml
