import BlockEngine.Json.Token

/-!
# JSON texts as written

* `Json.Written` : the tree of a text before names are sorted, repeated names dropped, numbers
  rounded and the nesting limited;
* `Written.read?` : the tree of a text, read with a stack of open containers;
* `Written.toJson?` : the value of a tree that nests less than the given limit;
* `Json.parse?` : the value of a text.
-/

namespace BlockEngine.Json

/-- A JSON text as written: members in order, names that stand for no text kept as `none`. -/
inductive Written where
  | null
  | bool (b : Bool)
  | num (n : Numeral)
  | str (s : Option String)
  | arr (items : List Written)
  | obj (members : List (Option String × Written))
deriving Inhabited

namespace Written

/-- A container still open: its parts so far, last first, and in an object the name whose value is
being read. -/
inductive Frame where
  | array (items : List Written)
  | object (members : List (Option String × Written)) (name : Option String)

/-- What may come next. -/
inductive Expect where
  | value
  | itemOrClose
  | nameOrClose (members : List (Option String × Written))
  | name (members : List (Option String × Written))
  | colon (members : List (Option String × Written)) (name : Option String)
  | commaOrClose
  | finished (w : Written)

structure State where
  frames : List Frame
  expect : Expect

/-- Hand a finished value to the innermost open container. -/
def State.give (frames : List Frame) (w : Written) : State :=
  match frames with
  | [] => ⟨[], .finished w⟩
  | .array items :: rest => ⟨.array (w :: items) :: rest, .commaOrClose⟩
  | .object members name :: rest => ⟨.object ((name, w) :: members) none :: rest, .commaOrClose⟩

/-- Read a token where a value starts. -/
def State.startValue (frames : List Frame) (t : Token) : Option State :=
  match t with
  | .null => some (give frames .null)
  | .bool b => some (give frames (.bool b))
  | .number n => some (give frames (.num n))
  | .string s => some (give frames (.str s))
  | .openArray => some ⟨.array [] :: frames, .itemOrClose⟩
  | .openObject => some ⟨frames, .nameOrClose []⟩
  | _ => none

/-- Read one token. -/
def State.step (s : State) (t : Token) : Option State :=
  match s.expect, t, s.frames with
  | .itemOrClose, .closeArray, .array items :: rest => some (give rest (.arr items.reverse))
  | .itemOrClose, t, frames => startValue frames t
  | .value, t, frames => startValue frames t
  | .nameOrClose members, .closeObject, frames => some (give frames (.obj members.reverse))
  | .nameOrClose members, .string k, frames => some ⟨frames, .colon members k⟩
  | .name members, .string k, frames => some ⟨frames, .colon members k⟩
  | .colon members k, .colon, frames => some ⟨.object members k :: frames, .value⟩
  | .commaOrClose, .comma, .array items :: rest => some ⟨.array items :: rest, .value⟩
  | .commaOrClose, .comma, .object members _ :: rest => some ⟨rest, .name members⟩
  | .commaOrClose, .closeArray, .array items :: rest => some (give rest (.arr items.reverse))
  | .commaOrClose, .closeObject, .object members _ :: rest =>
    some (give rest (.obj members.reverse))
  | _, _, _ => none

/-- Read all tokens; only a single finished value is a text. -/
def State.run : State → List Token → Option Written
  | ⟨_, .finished w⟩, [] => some w
  | _, [] => none
  | s, t :: ts =>
    match s.step t with
    | some s => s.run ts
    | none => none

/-- The tree of a text. -/
def read? (s : String) : Option Written := do
  (State.mk [] .value).run (← Token.scan s)

mutual

/-- The value of a tree whose containers nest less than `limit` deep. -/
def toJson? (limit : Nat) : Written → Option Json
  | .null => some .null
  | .bool b => some (.bool b)
  | .num n => n.number?.map .num
  | .str s => s.map .str
  | .arr items => if limit ≤ 1 then none else (itemsToJson? (limit - 1) items).map .arr
  | .obj members => if limit ≤ 1 then none else (membersToJson? (limit - 1) members).map .object

def itemsToJson? (limit : Nat) : List Written → Option (List Json)
  | [] => some []
  | w :: rest => do
    let j ← toJson? limit w
    let js ← itemsToJson? limit rest
    return j :: js

def membersToJson? (limit : Nat) : List (Option String × Written) → Option (List (String × Json))
  | [] => some []
  | (name, w) :: rest => do
    let k ← name
    let j ← toJson? limit w
    let js ← membersToJson? limit rest
    return (k, j) :: js

end

end Written

/-- Containers may nest less than this deep. -/
def nestingLimit : Nat := 128

/-- The value of a JSON text; none for text that is not JSON, nests too deep, holds a number out
of range or a string that stands for no text. -/
def parse? (s : String) : Option Json := do
  (← Written.read? s).toJson? nestingLimit

end BlockEngine.Json
