import BlockEngine.Site
import BlockEngine.Storage
import BlockEngine.Text.Blank
import BlockEngine.Yaml

/-!
# Configuration

* `Config.ofYaml` : the configuration of a text, checked;
* `Config.settings` : the limits of the engine it asks for;
* `Config.load`, `Config.loadOrDefault` : the configuration in a storage.
-/

namespace BlockEngine

/-- The configuration of an engine; intervals are in milliseconds. -/
structure Config where
  /-- The directory with one file for each tab. -/
  tabsDir : String
  /-- The tab that always exists. -/
  generalTab : String
  logLevel : String
  loopInterval : Nat
  pollInterval : Nat
  maxDepth : Nat
  /-- The number of notifications kept. -/
  notificationCapacity : Nat
deriving DecidableEq

/-- Why there is no configuration. -/
inductive ConfigError where
  | unreadable
  | malformed
  | invalidValue (key reason : String)
deriving DecidableEq

def ConfigError.message : ConfigError → String
  | .unreadable => "failed to read the configuration"
  | .malformed => "failed to parse the configuration"
  | .invalidValue key reason => s!"invalid configuration value for '{key}': {reason}"

namespace Config

/-- What holds where nothing is configured. -/
def standard : Config where
  tabsDir := "tabs"
  generalTab := "main"
  logLevel := "info"
  loopInterval := minLoopInterval
  pollInterval := 1000
  maxDepth := 256
  notificationCapacity := 500

/-- The configuration with one entry taken over; none if no entry has this key or the value is of
another type. Numbers have 64 bits. -/
def set? (c : Config) (key : String) (n : Yaml.Node) : Option Config :=
  let natural := n.natural?.filter (· < Nat.pow 2 64)
  match key with
  | "tabs_dir" => some { c with tabsDir := n.text }
  | "general_tab" => some { c with generalTab := n.text }
  | "log_level" => some { c with logLevel := n.text }
  | "loop_interval_ms" => natural.map fun v => { c with loopInterval := v }
  | "poll_interval_ms" => natural.map fun v => { c with pollInterval := v }
  | "max_depth" => natural.map fun v => { c with maxDepth := v }
  | "notification_capacity" => natural.map fun v => { c with notificationCapacity := v }
  | _ => none

/-- The configuration of some entries, each key at most once. -/
def ofEntries? (entries : List (String × Yaml.Node)) : Option Config :=
  if (entries.map (·.1)).eraseDups.length < entries.length then none
  else entries.foldlM (fun c e => c.set? e.1 e.2) standard

/-- The first value that an engine can not run with. -/
def check (c : Config) : Except ConfigError Config :=
  let positive := "must be greater than zero"
  if isAllBlank c.generalTab then .error (.invalidValue "general_tab" "must not be empty")
  else if c.pollInterval = 0 then .error (.invalidValue "poll_interval_ms" positive)
  else if c.maxDepth = 0 then .error (.invalidValue "max_depth" positive)
  else if c.notificationCapacity = 0 then .error (.invalidValue "notification_capacity" positive)
  else .ok c

/-- The configuration of a text; a blank one asks for nothing. -/
def ofYaml (text : String) : Except ConfigError Config :=
  if isAllBlank text then standard.check
  else
    match (Yaml.mapping? text).bind ofEntries? with
    | some c => c.check
    | none => .error .malformed

/-- The limits of the engine. -/
def settings (c : Config) : Settings :=
  ⟨max c.loopInterval minLoopInterval, c.pollInterval, c.maxDepth⟩

/-! ## From a storage -/

variable {m : Type → Type} [Monad m]

/-- The configuration in a file. The tabs directory is seen from the directory of the file. -/
def load (fs : Storage m) (path : String) : m (Except ConfigError Config) := do
  match ← fs.read? path with
  | none => return .error .unreadable
  | some text =>
    return (ofYaml text).map fun c =>
      match Path.parent? path with
      | some base => { c with tabsDir := Path.join base c.tabsDir }
      | none => c

/-- The name of the configuration in its directory. -/
def fileName : String := "blockwork.yaml"

/-- The configuration in a directory, the standard one if there is none. -/
def loadOrDefault (fs : Storage m) (dir : String) : m (Except ConfigError Config) := do
  let path := Path.join dir fileName
  if ← fs.isThere path then load fs path
  else return .ok { standard with tabsDir := Path.join dir standard.tabsDir }

end Config
end BlockEngine
