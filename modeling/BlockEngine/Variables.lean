import BlockEngine.Json

/-!
# Variables

Named values that blocks of all tabs read and write, in the order of their ids.
-/

namespace BlockEngine

/-- A variable. -/
structure Variable where
  name : String
  value : Json

/-- The variables by id. -/
abbrev Variables := Keyed Variable

namespace Variables

def value? (vs : Variables) (id : String) : Option Json := (Keyed.get? id vs).map (·.value)

/-- Write a value; an unknown variable is named after its id. -/
def write (vs : Variables) (id : String) (v : Json) : Variables :=
  let name := ((Keyed.get? id vs).map (·.name)).getD id
  Keyed.insert id ⟨name, v⟩ vs

/-- Declare a variable. One that exists takes the name and keeps its value. -/
def declare (vs : Variables) (id name : String) (initial : Json) : Variables :=
  Keyed.insert id ⟨name, (vs.value? id).getD initial⟩ vs

end Variables
end BlockEngine
