import BlockEngine.Yaml.Scalar

/-!
# Flat YAML mappings

`Yaml.mapping?` reads a document that is one mapping of scalars to scalars, in block or in flow
style; an empty document is the empty mapping. Collections inside the mapping, keys of several
lines, and a second document are none.

* `Node` : a value, with its tag; `Node.natural?` : the natural number it stands for.
-/

namespace BlockEngine.Yaml

/-- A value of a mapping. -/
structure Node where
  tag : Option String
  scalar : Scalar
deriving DecidableEq

/-- What an entry without a value has. -/
def Node.absent : Node := ⟨none, ⟨"", .plain⟩⟩

def Node.text (n : Node) : String := n.scalar.text

/-! ## Integers -/

/-- The number written by digits after `mark`, in a base. -/
def radix? (mark : Char) (base : Nat) : List Char → Option Nat
  | '0' :: m :: ds => if m = mark && !ds.isEmpty then baseValue? base ds else none
  | _ => none

/-- A number written without a sign. Decimal digits after a leading zero are no number. -/
def magnitude? (cs : List Char) : Option Nat :=
  (radix? 'x' 16 cs).or <| (radix? 'o' 8 cs).or <| (radix? 'b' 2 cs).or <|
    if cs.isEmpty || (1 < cs.length && cs.head? = some '0') then none else baseValue? 10 cs

/-- The natural number a text writes. -/
def natural? (s : String) : Option Nat :=
  match s.toList with
  | '+' :: ds =>
    if 1 < ds.length && ds.head? = some '0' && ds.all Char.isDigit then none else magnitude? ds
  | ds => magnitude? ds

/-- The tag of integers. -/
def integerTag : String := "!!int"

/-- The natural number a value stands for. Only plain scalars are read as numbers, whatever their
tag says, and literal ones with the tag of integers. -/
def Node.natural? (n : Node) : Option Nat :=
  match n.scalar.style with
  | .plain => Yaml.natural? n.text
  | .literal => if n.tag = some integerTag then Yaml.natural? n.text else none
  | _ => none

/-! ## Values -/

/-- The values that have been given a name. -/
abbrev Anchors := List (String × Node)

/-- A value that was read: the value, the names given so far, and the lines after it. -/
abbrev Reading := Node × Anchors × List Line

/-- The word at the head of a line, in a flow collection up to its indicators. -/
def takeWord (flow : Bool) (l : Line) : Line × Line :=
  let word := l.takeWhile fun c => !isSpaceOrTab c && !(flow && Scalar.isFlowIndicator c)
  (word, skipBlanks (l.drop word.length))

/-- Whether a word is a tag: a local or a general one, or one in angles. -/
def isTag (word : Line) : Bool :=
  match word with
  | ['!'] => true
  | '!' :: '<' :: rest => 1 < rest.length && rest.getLast? = some '>'
  | '!' :: '!' :: rest => !rest.isEmpty && !rest.contains '!'
  | '!' :: rest => !rest.contains '!'
  | _ => false

/-- The tag and the anchor before a scalar, each at most once, and what follows on the line. -/
def properties? (flow : Bool) : Nat → Option String → Option String → Line →
    Option (Option String × Option String × Line)
  | 0, _, _, _ => none
  | fuel + 1, tag, anchor, l =>
    match l with
    | '!' :: _ =>
      let (word, rest) := takeWord flow l
      if tag.isSome || !isTag word then none
      else properties? flow fuel (some (String.ofList word)) anchor rest
    | '&' :: cs =>
      let (word, rest) := takeWord flow cs
      if anchor.isSome || word.isEmpty then none
      else properties? flow fuel tag (some (String.ofList word)) rest
    | l => some (tag, anchor, l)

/-- A scalar in any style at the head of the lines. -/
def scalar? (flow : Bool) (parent : Nat) : List Line → Option (Scalar × List Line)
  | [] => none
  | ('"' :: rest) :: below => Scalar.quoted? Scalar.doublePart? rest below
  | ('\'' :: rest) :: below => Scalar.quoted? Scalar.singlePart? rest below
  | ('|' :: rest) :: below => if flow then none else Scalar.block? true parent rest below
  | ('>' :: rest) :: below => if flow then none else Scalar.block? false parent rest below
  | lines => Scalar.plain? flow (if flow then 0 else parent + 1) lines

/-- A value at the head of the lines: the name of one before it, or a scalar with properties.
`onNext` finds the scalar when the line ends before it. -/
def value? (flow : Bool) (parent : Nat) (onNext : List Line → Option (List Line))
    (anchors : Anchors) : List Line → Option Reading
  | [] => none
  | ('*' :: cs) :: below => do
    let (word, rest) := takeWord flow cs
    let node ← anchors.lookup (String.ofList word)
    return (node, anchors, rest :: below)
  | line :: below => do
    let (tag, anchor, rest) ← properties? flow 3 none none line
    let name (n : Node) : Anchors :=
      match anchor with
      | some a => (a, n) :: anchors
      | none => anchors
    if isFinished rest then
      match onNext (rest :: below) with
      | none =>
        let n : Node := { Node.absent with tag }
        return (n, name n, rest :: below)
      | some lines =>
        let (s, left) ← scalar? flow parent lines
        return (⟨tag, s⟩, name ⟨tag, s⟩, left)
    else
      let (s, left) ← scalar? flow parent (rest :: below)
      return (⟨tag, s⟩, name ⟨tag, s⟩, left)

/-! ## Block style -/

/-- Whether a line holds neither content nor a tab where content could begin. -/
def isEmptyLine (l : Line) : Bool :=
  match l.dropWhile (· = ' ') with
  | [] => true
  | c :: _ => c = '#'

/-- The lines from the first with content on. -/
def skipEmptyLines (lines : List Line) : List Line := lines.dropWhile isEmptyLine

/-- The scalar below a line, if the next content is indented more than `parent`. -/
def indentedBelow (parent : Nat) (lines : List Line) : Option (List Line) :=
  match skipEmptyLines (lines.drop 1) with
  | [] => none
  | l :: rest =>
    if isDocumentMarker l || indentOf l ≤ parent then none
    else some (l.dropWhile (· = ' ') :: rest)

/-- Whether a document is over: nothing is left but the markers of its end. -/
def isOver (lines : List Line) : Bool :=
  lines.all fun l => isEmptyLine l || (isMarker '.' l && isFinished (l.drop 3))

/-- The key at the head of a line, and the rest of the line after the colon. -/
def key? (line : Line) : Option (String × Line) := do
  let (s, left) ← scalar? false 0 [line]
  match left.map skipBlanks with
  | [':' :: rest] => if startsBlank rest then some (s.text, skipBlanks rest) else none
  | _ => none

/-- The entries of a block mapping, all of them at one column. -/
def blockEntries? (column : Nat) : Nat → Anchors → List Line → Option (List (String × Node))
  | 0, _, _ => none
  | fuel + 1, anchors, lines =>
    if isOver lines then some []
    else
      match skipEmptyLines lines with
      | [] => some []
      | l :: rest => do
        if isDocumentMarker l || indentOf l ≠ column then none
        let (key, line) ← key? (l.drop column)
        let (node, anchors, left) ←
          value? false column (indentedBelow column) anchors (line :: rest)
        match left with
        | [] => some [(key, node)]
        | end' :: left =>
          if !isFinished end' then none
          let entries ← blockEntries? column fuel anchors left
          return (key, node) :: entries

/-! ## Flow style -/

/-- The lines from the next content on, inside a flow collection. -/
def skipFlow (lines : List Line) : List Line :=
  match lines.dropWhile isFinished with
  | [] => []
  | l :: rest => skipBlanks l :: rest

/-- A value of a flow mapping; none is there before a comma or the end. -/
def flowValue? (anchors : Anchors) (lines : List Line) : Option Reading :=
  match skipFlow lines with
  | (',' :: rest) :: below => some (.absent, anchors, (',' :: rest) :: below)
  | ('\x7d' :: rest) :: below => some (.absent, anchors, ('\x7d' :: rest) :: below)
  | lines => value? true 0 (fun lines => some (skipFlow lines)) anchors lines

/-- The entries of a flow mapping after its opening brace, and the lines after the closing one. -/
def flowEntries? : Nat → Anchors → List Line → Option (List (String × Node) × List Line)
  | 0, _, _ => none
  | fuel + 1, anchors, lines =>
    match skipFlow lines with
    | ('\x7d' :: rest) :: below => some ([], rest :: below)
    | lines => do
      let (key, left) ← scalar? true 0 lines
      let (node, anchors, left) ←
        match skipFlow left with
        | (':' :: rest) :: below => flowValue? anchors (rest :: below)
        | left => some (Node.absent, anchors, left)
      match skipFlow left with
      | (',' :: rest) :: below =>
        let (entries, left) ← flowEntries? fuel anchors (rest :: below)
        return ((key.text, node) :: entries, left)
      | ('\x7d' :: rest) :: below => return ([(key.text, node)], rest :: below)
      | _ => none

/-! ## Documents -/

/-- Lines without their breaks. -/
def splitLines (line : Line) : List Char → List Line
  | [] => [line.reverse]
  | '\r' :: '\n' :: rest => line.reverse :: splitLines [] rest
  | c :: rest =>
    if c = '\n' || c = '\r' || c = '\u0085' || c = '\u2028' || c = '\u2029' then
      line.reverse :: splitLines [] rest
    else splitLines (c :: line) rest

/-- Whether a character may occur in a document. -/
def isAllowed (c : Char) : Bool :=
  let n := c.toNat
  n = 0x9 || n = 0xa || n = 0xd || (0x20 ≤ n && n ≤ 0x7e) || n = 0x85 ||
    (0xa0 ≤ n && n ≤ 0xfffd && n ≠ 0xfeff) || 0x10000 ≤ n

/-- The mapping at the head of the lines. -/
def content? (lines : List Line) : Option (List (String × Node)) :=
  match skipEmptyLines lines with
  | [] => some []
  | l :: rest =>
    let size := lineSize lines
    match l.dropWhile (· = ' ') with
    | '\x7b' :: inside =>
      match flowEntries? size [] (inside :: rest) with
      | some (entries, end' :: left) =>
        if isFinished end' && isOver left then some entries else none
      | _ => none
    | _ => blockEntries? (indentOf l) size [] lines

/-- The mapping on the line of a start marker: only a flow mapping can stand there. -/
def contentAfterMarker? (line : Line) (rest : List Line) : Option (List (String × Node)) :=
  match skipBlanks line with
  | '\x7b' :: _ => content? (skipBlanks line :: rest)
  | _ => if isFinished line then content? rest else none

/-- Whether a line gives the version of the format. -/
def isVersion (l : Line) : Bool :=
  let version := l.take 9
  (version = "%YAML 1.1".toList || version = "%YAML 1.2".toList) && isFinished (l.drop 9)

/-- The entries of a document that is a flat mapping. -/
def mapping? (text : String) : Option (List (String × Node)) :=
  let cs :=
    match text.toList with
    | '\ufeff' :: cs => cs
    | cs => cs
  if !cs.all isAllowed then none
  else
    let lines := skipEmptyLines (splitLines [] cs)
    let body := lines.dropWhile fun l => isEmptyLine l || isVersion l
    match body with
    | [] => if lines.isEmpty then some [] else none
    | l :: rest =>
      if isMarker '-' l then contentAfterMarker? (l.drop 3) rest
      else if lines.any isVersion || isMarker '.' l then none
      else content? body

end BlockEngine.Yaml
