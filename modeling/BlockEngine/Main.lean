import BlockEngine.Server

/-!
# The command

`main [CONFIG_DIR]` runs the server of a directory until it is interrupted, and prints its
notifications.
-/

namespace BlockEngine.Command

/-- Turn a failure into an answer. -/
def attempt? {α : Type} (act : IO α) : IO (Option α) := do
  try
    return some (← act)
  catch _ => return none

/-- The file system of the machine. -/
def storage : Storage IO where
  isThere p := do ((← IO.currentDir) / p).pathExists
  isDirectory p := do ((← IO.currentDir) / p).isDir
  read? p := do attempt? (IO.FS.readFile ((← IO.currentDir) / p))
  list? p := do attempt? (return (← ((← IO.currentDir) / p).readDir).toList.map (·.fileName))
  makeDirectory p := do
    return (← attempt? (IO.FS.createDirAll ((← IO.currentDir) / p))).isSome

/-- The milliseconds between two looks at the clock. -/
def tickLength : UInt32 := 10

/-- Print a notification. -/
def show' (n : Notification) : IO Unit :=
  let tab := (n.tab.map fun t => " " ++ t).getD ""
  IO.println ("[" ++ n.level.text ++ tab ++ "] " ++ n.message)

/-- Print the notifications from a number on; the first number after them. -/
def showNew (m : Machine) (seen : Nat) : IO Nat := do
  let notes := m.world.notifications
  for n in notes.entries do
    if seen ≤ n.number then show' n
  return notes.issued

/-- Let the engine run along with the clock of the machine, as long as it lives. -/
partial def follow (e : Engine) (m : Machine) (seen time : Nat) : IO Unit := do
  let seen ← showNew m seen
  IO.sleep tickLength
  let now ← IO.monoMsNow
  match m.advance e (now - time) with
  | some m => follow e m seen now
  | none => IO.eprintln "a turn never ends"

/-- Run the server of a directory. -/
def run (dir : String) : IO UInt32 := do
  match ← Config.loadOrDefault storage dir with
  | .error e =>
    IO.eprintln e.message
    return 1
  | .ok config =>
    match ← Server.sources? storage config.tabsDir with
    | none =>
      IO.eprintln ("failed to read tabs directory " ++ config.tabsDir)
      return 1
    | some sources =>
      match Server.load config (Server.machine config) sources with
      | (.overrun, _) => IO.eprintln "a turn never ends"
      | (_, m) => follow (Server.engine config) m 0 (← IO.monoMsNow)
      return 1

end BlockEngine.Command

/-- Run the server of the directory given, or of the current one. -/
def main (args : List String) : IO UInt32 :=
  BlockEngine.Command.run (args.headD ".")
