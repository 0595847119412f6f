import BlockEngine.Error
import BlockEngine.Keyed
import BlockEngine.Text.Chars
import BlockEngine.Text.Word

/-!
# Extensions and their registry

An extension is a named bundle of block kinds; the registry finds the behaviour of a block by its
opcode. Both are over the type `κ` of statement handlers and the type `ρ` of expression handlers.

* `Registry.register` : add an extension, once, under a valid id;
* `Registry.lookup` : the block of an opcode, or which half of it is unknown;
* `Menu` : where the options of a menu input come from.
-/

namespace BlockEngine

/-- How a statement ended. -/
inductive Signal where
  /-- Go on with the next block. -/
  | proceed
  /-- End the chain and everything around it. -/
  | stop
deriving DecidableEq, Inhabited

/-! ## Menus -/

/-- Where the options of a menu come from. -/
inductive MenuSource where
  | items (options : List String)
  /-- Options served by the host; a required one rejects empty selections. -/
  | server (url : String) (required : Bool)
deriving DecidableEq

/-- A menu declared for an input. The selected option is in a field of the menu block. -/
structure Menu where
  name : String
  field : String
  source : MenuSource
deriving DecidableEq

/-- Whether an empty selection is an error. -/
def Menu.isRequired (m : Menu) : Bool :=
  match m.source with
  | .server _ required => required
  | .items _ => false

/-! ## Blocks -/

/-- How a block takes part in a program. -/
inductive BlockKind where
  | command
  | hat
  | reporter
deriving DecidableEq

def BlockKind.name : BlockKind → String
  | .command => "command"
  | .hat => "hat"
  | .reporter => "reporter"

/-- What a block does: statements, the hats that start chains, and expressions. -/
inductive Behaviour (κ ρ : Type) where
  | command (run : κ)
  | hat (run : κ)
  | reporter (run : ρ)

def Behaviour.kind {κ ρ : Type} : Behaviour κ ρ → BlockKind
  | .command _ => .command
  | .hat _ => .hat
  | .reporter _ => .reporter

/-- A block of an extension, with the menus of its inputs. -/
structure BlockSpec (κ ρ : Type) where
  opcode : String
  behaviour : Behaviour κ ρ
  menus : List (String × Menu)

namespace BlockSpec

variable {κ ρ : Type}

def kind (b : BlockSpec κ ρ) : BlockKind := b.behaviour.kind

/-- The menu declared for an input; the last declaration counts. -/
def menu? (b : BlockSpec κ ρ) (input : String) : Option Menu := b.menus.lookup input

end BlockSpec

/-- A bundle of blocks, in the order they were added. -/
structure Extension (κ ρ : Type) where
  id : String
  blocks : List (BlockSpec κ ρ)

namespace Extension

variable {κ ρ : Type}

def empty (id : String) : Extension κ ρ := ⟨id, []⟩

def block? (e : Extension κ ρ) (opcode : String) : Option (BlockSpec κ ρ) :=
  e.blocks.find? (·.opcode = opcode)

def opcodes (e : Extension κ ρ) : List String := e.blocks.map (·.opcode)

/-- Add a block; one of the same opcode is replaced in its place. -/
def add (e : Extension κ ρ) (opcode : String) (behaviour : Behaviour κ ρ) : Extension κ ρ :=
  let spec : BlockSpec κ ρ := ⟨opcode, behaviour, []⟩
  if (e.block? opcode).isSome then
    { e with blocks := e.blocks.map fun b => if b.opcode = opcode then spec else b }
  else { e with blocks := e.blocks ++ [spec] }

def command (e : Extension κ ρ) (opcode : String) (run : κ) : Extension κ ρ :=
  e.add opcode (.command run)

def hat (e : Extension κ ρ) (opcode : String) (run : κ) : Extension κ ρ :=
  e.add opcode (.hat run)

def reporter (e : Extension κ ρ) (opcode : String) (run : ρ) : Extension κ ρ :=
  e.add opcode (.reporter run)

/-- Declare the menu of an input of a block that was added before. -/
def menu (e : Extension κ ρ) (opcode input : String) (m : Menu) : Extension κ ρ :=
  { e with
    blocks := e.blocks.map fun b =>
      if b.opcode = opcode then { b with menus := (input, m) :: b.menus } else b }

end Extension

/-! ## The registry -/

/-- Why an extension can not be registered. -/
inductive RegistryError where
  | invalidId (id : String)
  | duplicate (id : String)
deriving DecidableEq

def RegistryError.message : RegistryError → String
  | .invalidId id =>
    s!"invalid extension id '{id}': only letters, digits, '_' and '-' are allowed"
  | .duplicate id => s!"extension '{id}' is already registered"

/-- Whether an id consists of word characters and hyphens. -/
def isExtensionId (id : String) : Bool := (chars id).all fun c => isWordChar c || c = '-'

/-- The registered extensions by id. -/
structure Registry (κ ρ : Type) where
  extensions : Keyed (Extension κ ρ)

namespace Registry

variable {κ ρ : Type}

def empty : Registry κ ρ := ⟨[]⟩

def extension? (r : Registry κ ρ) (id : String) : Option (Extension κ ρ) :=
  Keyed.get? id r.extensions

/-- The registry with one more extension. -/
def register (r : Registry κ ρ) (e : Extension κ ρ) : Except RegistryError (Registry κ ρ) :=
  if !isExtensionId e.id then .error (.invalidId e.id)
  else if (r.extension? e.id).isSome then .error (.duplicate e.id)
  else .ok ⟨Keyed.insert e.id e r.extensions⟩

/-- Register one extension after the other up to the first that fails. The registry keeps those
before it. -/
def registerAll (r : Registry κ ρ) :
    List (Extension κ ρ) → Registry κ ρ × Except RegistryError Unit
  | [] => (r, .ok ())
  | e :: rest =>
    match r.register e with
    | .ok r => r.registerAll rest
    | .error err => (r, .error err)

/-- The block of an opcode. -/
def lookup (r : Registry κ ρ) (o : Opcode) : Except EngineError (BlockSpec κ ρ) :=
  match r.extension? o.extension with
  | none => .error (.unknownExtension o.extension)
  | some e =>
    match e.block? o.name with
    | none => .error (.unknownOpcode o)
    | some b => .ok b

/-- The kind of a registered block. -/
def kind? (r : Registry κ ρ) (o : Opcode) : Option BlockKind :=
  ((r.extension? o.extension).bind (·.block? o.name)).map (·.kind)

/-- The ids in order. -/
def ids (r : Registry κ ρ) : List String := Keyed.keys r.extensions

/-- The number of registered blocks. -/
def blockCount (r : Registry κ ρ) : Nat :=
  r.extensions.foldl (fun n e => n + e.2.blocks.length) 0

end Registry
end BlockEngine
