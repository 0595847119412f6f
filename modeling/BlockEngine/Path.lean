/-!
# Paths

Paths are texts of segments between slashes; a path that begins with a slash is absolute.

* `Path.join`, `Path.parent?`, `Path.relativeTo?` : combining and taking apart;
* `Path.segments` : the segments that count;
* `Path.stem`, `Path.extension?` : the parts of a file name.
-/

namespace BlockEngine.Path

def isAbsolute (p : String) : Bool := p.toList.head? = some '/'

/-- A path seen from another one; an absolute path stays as it is. -/
def join (base p : String) : String :=
  if isAbsolute p || base.isEmpty then p
  else if base.toList.getLast? = some '/' then base ++ p
  else base ++ "/" ++ p

/-- The path, last character first, without slashes and segments `.` at its end. -/
def trimEnd : List Char → List Char
  | '/' :: rest => trimEnd rest
  | '.' :: '/' :: rest => trimEnd rest
  | cs => cs

/-- The path without slashes and segments `.` at its start. -/
def trimStart : List Char → List Char
  | '/' :: rest => trimStart rest
  | '.' :: '/' :: rest => trimStart rest
  | ['.'] => []
  | cs => cs

/-- The path of the directory a path is in. -/
def parent? (p : String) : Option String :=
  match trimEnd p.toList.reverse with
  | [] => none
  | cs =>
    match trimEnd (cs.dropWhile (· ≠ '/')) with
    | [] => some (if isAbsolute p then "/" else "")
    | cs => some (String.ofList cs.reverse)

/-- The path as seen from a directory it is in. -/
def relativeTo? (base p : String) : Option String :=
  let cs := p.toList
  let start := (base ++ "/").toList
  if p = base then some ""
  else if start.isPrefixOf cs then
    some (String.ofList (trimEnd (trimStart (cs.drop start.length)).reverse).reverse)
  else none

/-- The segments of a path, without empty ones and `.`; a segment `..` takes back the one before. -/
def segments (p : String) : List String :=
  ((p.splitOn "/").filter fun s => s ≠ "" && s ≠ ".").foldl
    (fun done s => if s = ".." then done.dropLast else done ++ [s]) []

/-- The place of the last dot of a file name, which does not count at its start. -/
def lastDot? (name : String) : Option Nat :=
  let cs := name.toList
  let after := (cs.reverse.takeWhile (· ≠ '.')).length
  if after + 1 < cs.length then some (cs.length - after - 1) else none

/-- A file name without its extension. -/
def stem (name : String) : String :=
  match lastDot? name with
  | some i => String.ofList (name.toList.take i)
  | none => name

/-- What follows the last dot of a file name. -/
def extension? (name : String) : Option String :=
  (lastDot? name).map fun i => String.ofList (name.toList.drop (i + 1))

end BlockEngine.Path
