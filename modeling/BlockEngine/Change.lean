import BlockEngine.Error
import BlockEngine.Pattern.Parser
import BlockEngine.Value

/-!
# Changes a hat listens to

* `ChangeOperator` : how a new value is compared with an item;
* `ChangeOperator.filter` : the filter of an operator and an item, an error if the item does not
  fit the operator;
* `ChangeFilter.accepts` : whether a new value passes.
-/

namespace BlockEngine

inductive ChangeOperator where
  | greater
  | less
  | equal
  | notEqual
  | regex
  | any
deriving DecidableEq

/-- A test of new values. -/
inductive ChangeFilter where
  | any
  | equal (text : String)
  | notEqual (text : String)
  | greater (bound : Double)
  | less (bound : Double)
  | matching (pattern : Pattern)

namespace ChangeOperator

def ofText? (s : String) : Option ChangeOperator :=
  match s with
  | ">" => some .greater
  | "<" => some .less
  | "=" => some .equal
  | "!=" => some .notEqual
  | "regex" => some .regex
  | "any" => some .any
  | _ => none

/-- The operator written in a block's field. -/
def ofText (s : String) : Except EngineError ChangeOperator :=
  match ofText? s with
  | some op => .ok op
  | none => .error (.malformedInput "OPERATOR" (.unknownOperator s))

/-- The item as the bound of a comparison of numbers. -/
def bound (item : Json) : Except EngineError Double :=
  match item.toDouble? with
  | some d => .ok d
  | none => .error (.invalidNumericInput "ITEM" item.toText)

/-- The text of the pattern that matches a whole value by an item. -/
def anchored (item : String) : String := "^(?:" ++ item ++ ")$"

/-- The filter that compares new values with an item. Comparisons of numbers need a numeric item,
`regex` needs an item that is a pattern. -/
def filter (op : ChangeOperator) (item : Json) : Except EngineError ChangeFilter :=
  match op with
  | .any => .ok .any
  | .equal => .ok (.equal item.toText)
  | .notEqual => .ok (.notEqual item.toText)
  | .greater => (bound item).map .greater
  | .less => (bound item).map .less
  | .regex =>
    match Pattern.parse? (anchored item.toText) with
    | some p => .ok (.matching p)
    | none => .error (.handler (.invalidPattern item.toText))

end ChangeOperator

/-- Whether a new value passes. A value that is no number passes no comparison of numbers. -/
def ChangeFilter.accepts (f : ChangeFilter) (v : Json) : Bool :=
  match f with
  | .any => true
  | .equal text => v.toText = text
  | .notEqual text => v.toText ≠ text
  | .greater bound => (v.toDouble?.map bound.lt).getD false
  | .less bound => (v.toDouble?.map (·.lt bound)).getD false
  | .matching pattern => pattern.isMatch v.toText

end BlockEngine
