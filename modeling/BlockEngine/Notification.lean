/-!
# Notifications

Messages for the person who runs the engine: a bounded list, oldest first; a new entry pushes out
the oldest when the list is full.
-/

namespace BlockEngine

inductive Level where
  | info
  | warning
  | error
deriving DecidableEq

def Level.text : Level → String
  | .info => "info"
  | .warning => "warning"
  | .error => "error"

/-- A message, with the tab it is about. The number tells entries apart. -/
structure Notification where
  number : Nat
  level : Level
  tab : Option String
  message : String
deriving DecidableEq

/-- The notifications kept. -/
structure Notifications where
  capacity : Nat
  issued : Nat
  entries : List Notification

namespace Notifications

/-- An empty list that keeps at least one entry. -/
def ofCapacity (capacity : Nat) : Notifications := ⟨max capacity 1, 0, []⟩

/-- Add an entry, dropping the oldest when there is no room. -/
def push (n : Notifications) (level : Level) (tab : Option String) (message : String) :
    Notifications :=
  let kept := if n.capacity ≤ n.entries.length then n.entries.drop 1 else n.entries
  { n with issued := n.issued + 1, entries := kept ++ [⟨n.issued, level, tab, message⟩] }

/-- The entries of one level. -/
def ofLevel (n : Notifications) (level : Level) : List Notification :=
  n.entries.filter (·.level = level)

/-- Remove an entry by its number; whether it was there. -/
def dismiss (n : Notifications) (number : Nat) : Notifications × Bool :=
  ({ n with entries := n.entries.filter (·.number ≠ number) },
    n.entries.any (·.number = number))

def clear (n : Notifications) : Notifications := { n with entries := [] }

end Notifications
end BlockEngine
