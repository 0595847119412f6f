import BlockEngine.Graph.Document

/-!
# Which documents have a graph

A document is read block by block, and links may name blocks that are still to come. Here is what
it comes to.

* `WellFormedEntry` : the entries of a document that are blocks as they should be;
* `Block.ofEntry` : the block an entry describes;
* `readEntry_eq_ok` : reading an entry gives its block exactly if it is well formed;
* `foldlM_addBlock` : the graph while it is built, with the links still open behind the blocks;
* `Document.graph_eq_ok`, `Document.graph_eq_error` : the graph of a document, or its first fault;
* `Document.graph_spec` : both together.
-/

namespace BlockEngine

/-! ## Results -/

theorem bind_eq_ok_iff {ε α β : Type} {x : Except ε α} {f : α → Except ε β} {b : β} :
    (x >>= f) = .ok b ↔ ∃ a, x = .ok a ∧ f a = .ok b := by
  cases x <;> simp [bind, Except.bind]

theorem mapError_eq_ok_iff {ε ε' α : Type} {x : Except ε α} {f : ε → ε'} {a : α} :
    x.mapError f = .ok a ↔ x = .ok a := by
  cases x with
  | error e => exact ⟨nofun, nofun⟩
  | ok b =>
    exact ⟨fun h => congrArg Except.ok (Except.ok.inj h),
      fun h => congrArg Except.ok (Except.ok.inj h)⟩

/-- A list is read item by item: every item has to be good. -/
theorem mapM_eq_ok_iff {ε α β : Type} {f : α → Except ε β} {good : α → Prop} {g : α → β}
    (hf : ∀ a b, f a = .ok b ↔ good a ∧ b = g a) (as : List α) (bs : List β) :
    as.mapM f = .ok bs ↔ (∀ a ∈ as, good a) ∧ bs = as.map g := by
  induction as generalizing bs with
  | nil => simp [pure, Except.pure, eq_comm]
  | cons a as ih =>
    rw [List.mapM_cons, bind_eq_ok_iff]
    constructor
    · rintro ⟨b, hb, h⟩
      obtain ⟨bs', hbs, h⟩ := bind_eq_ok_iff.1 h
      obtain rfl : b :: bs' = bs := Except.ok.inj h
      obtain ⟨hgood, rfl⟩ := (hf a b).1 hb
      obtain ⟨hall, rfl⟩ := (ih bs').1 hbs
      exact ⟨List.forall_mem_cons.2 ⟨hgood, hall⟩, rfl⟩
    · rintro ⟨hall, rfl⟩
      obtain ⟨hgood, hall⟩ := List.forall_mem_cons.1 hall
      refine ⟨g a, (hf a _).2 ⟨hgood, rfl⟩, ?_⟩
      exact bind_eq_ok_iff.2 ⟨as.map g, (ih _).2 ⟨hall, rfl⟩, rfl⟩

/-! ## What an entry describes -/

/-- The text of a member, if it has one. -/
def textAt (name : String) (m : Keyed Json) : Option String := (Keyed.get? name m).bind Json.str?

/-- The truth value of a member, if it has one. -/
def flagAt (name : String) (m : Keyed Json) : Option Bool := (Keyed.get? name m).bind Json.bool?

/-- The members of a member that is an object. -/
def groupAt (name : String) (m : Keyed Json) : Option (Keyed Json) :=
  (Keyed.get? name m).bind fun j =>
    match j with
    | .obj members => some members
    | _ => none

/-- The items of a list; nothing else has any. -/
def Json.items (j : Json) : List Json := j.arr?.getD []

/-- The field that a list describes. -/
def Field.ofItems (items : List Json) : Field where
  value := (items[0]?).getD .null
  id := (items[1]?).bind Json.str?

/-- The typed members that an entry describes. -/
def RawBlock.ofEntry (m : Keyed Json) : RawBlock where
  opcode := textAt "opcode" m
  shadow := (flagAt "shadow" m).getD false
  topLevel := flagAt "topLevel" m
  parent := textAt "parent" m
  next := textAt "next" m
  fields := (groupAt "fields" m).getD []
  inputs := (groupAt "inputs" m).getD []
  mutation := groupAt "mutation" m
  extra := m.filter fun p => !RawBlock.memberNames.contains p.1

/-- The block that an entry describes. -/
def Block.ofEntry (e : String × Keyed Json) : Block where
  id := e.1
  opcode := .ofText ((textAt "opcode" e.2).getD "")
  shadow := (flagAt "shadow" e.2).getD false
  topLevel := (flagAt "topLevel" e.2).getD false
  parent := textAt "parent" e.2
  next := textAt "next" e.2
  fields := ((groupAt "fields" e.2).getD []).map fun p => (p.1, .ofItems p.2.items)
  inputs := ((groupAt "inputs" e.2).getD []).map fun p => (p.1, p.2.items)
  mutation := (groupAt "mutation" e.2).map Mutation.mk
  extra := e.2.filter fun p => !RawBlock.memberNames.contains p.1
  defined := true

/-- The links of an entry, parent before next. -/
def entryLinks (e : String × Keyed Json) : List String :=
  (textAt "parent" e.2).toList ++ (textAt "next" e.2).toList

/-! ## Well-formed entries -/

/-- Text, null or absent. -/
def IsOptionalText (j? : Option Json) : Prop := ∀ j, j? = some j → j = .null ∨ ∃ s, j = .str s

/-- An object, null or absent. -/
def IsOptionalObject (j? : Option Json) : Prop :=
  ∀ j, j? = some j → j = .null ∨ ∃ members, j = .obj members

/-- An object or absent. -/
def IsGroup (j? : Option Json) : Prop := ∀ j, j? = some j → ∃ members, j = .obj members

/-- An object whose members are lists, or absent. -/
def IsArrayGroup (j? : Option Json) : Prop :=
  ∀ j, j? = some j → ∃ members, j = .obj members ∧ ∀ p ∈ members, ∃ items, p.2 = .arr items

/-- The members of a block as they should be. -/
structure WellFormedEntry (m : Keyed Json) : Prop where
  opcode : ∃ s, Keyed.get? "opcode" m = some (.str s)
  topLevel : ∃ b, Keyed.get? "topLevel" m = some (.bool b)
  shadow : ∀ j, Keyed.get? "shadow" m = some j → ∃ b, j = .bool b
  parent : IsOptionalText (Keyed.get? "parent" m)
  next : IsOptionalText (Keyed.get? "next" m)
  fields : IsArrayGroup (Keyed.get? "fields" m)
  inputs : IsArrayGroup (Keyed.get? "inputs" m)
  mutation : IsOptionalObject (Keyed.get? "mutation" m)

/-- The members of a block by their types; nothing has to be there. -/
structure TypedEntry (m : Keyed Json) : Prop where
  fields : IsGroup (Keyed.get? "fields" m)
  inputs : IsGroup (Keyed.get? "inputs" m)
  mutation : IsOptionalObject (Keyed.get? "mutation" m)
  next : IsOptionalText (Keyed.get? "next" m)
  opcode : IsOptionalText (Keyed.get? "opcode" m)
  parent : IsOptionalText (Keyed.get? "parent" m)
  shadow : ∀ j, Keyed.get? "shadow" m = some j → ∃ b, j = .bool b
  topLevel : ∀ j, Keyed.get? "topLevel" m = some j → j = .null ∨ ∃ b, j = .bool b

namespace RawBlock

variable {m : Keyed Json} {name : String}

theorem objectMember_eq_ok {v : Keyed Json} :
    objectMember m name = .ok v ↔
      IsGroup (Keyed.get? name m) ∧ v = (groupAt name m).getD [] := by
  unfold objectMember IsGroup groupAt
  cases Keyed.get? name m with
  | none => simp [pure, Except.pure, eq_comm]
  | some j => cases j <;> simp [pure, Except.pure, throw, throwThe, MonadExceptOf.throw, eq_comm]

theorem optionalText_eq_ok {v : Option String} :
    optionalText m name = .ok v ↔ IsOptionalText (Keyed.get? name m) ∧ v = textAt name m := by
  unfold optionalText IsOptionalText textAt
  cases Keyed.get? name m with
  | none => simp [pure, Except.pure, eq_comm]
  | some j =>
    cases j <;> simp [pure, Except.pure, throw, throwThe, MonadExceptOf.throw, eq_comm, Json.str?]

/-- An object, or nothing where the member is missing or null. -/
def optionalObject (m : Keyed Json) (name : String) : Except String (Option (Keyed Json)) :=
  match Keyed.get? name m with
  | none | some .null => pure none
  | some (.obj members) => pure (some members)
  | some j => throw (wrongType j "a map")

theorem optionalObject_eq_ok {v : Option (Keyed Json)} :
    optionalObject m name = .ok v ↔ IsOptionalObject (Keyed.get? name m) ∧ v = groupAt name m := by
  unfold optionalObject IsOptionalObject groupAt
  cases Keyed.get? name m with
  | none => simp [pure, Except.pure, eq_comm]
  | some j => cases j <;> simp [pure, Except.pure, throw, throwThe, MonadExceptOf.throw, eq_comm]

/-- A truth value, false where the member is missing. -/
def flag (m : Keyed Json) (name : String) : Except String Bool :=
  match Keyed.get? name m with
  | none => pure false
  | some (.bool b) => pure b
  | some j => throw (wrongType j "a boolean")

theorem flag_eq_ok {v : Bool} :
    flag m name = .ok v ↔ (∀ j, Keyed.get? name m = some j → ∃ b, j = .bool b) ∧
      v = (flagAt name m).getD false := by
  unfold flag flagAt
  cases Keyed.get? name m with
  | none => simp [pure, Except.pure, eq_comm]
  | some j =>
    cases j <;> simp [pure, Except.pure, throw, throwThe, MonadExceptOf.throw, eq_comm, Json.bool?]

/-- A truth value, or nothing where the member is missing or null. -/
def optionalFlag (m : Keyed Json) (name : String) : Except String (Option Bool) :=
  match Keyed.get? name m with
  | none | some .null => pure none
  | some (.bool b) => pure (some b)
  | some j => throw (wrongType j "a boolean")

theorem optionalFlag_eq_ok {v : Option Bool} :
    optionalFlag m name = .ok v ↔
      (∀ j, Keyed.get? name m = some j → j = .null ∨ ∃ b, j = .bool b) ∧ v = flagAt name m := by
  unfold optionalFlag flagAt
  cases Keyed.get? name m with
  | none => simp [pure, Except.pure, eq_comm]
  | some j =>
    cases j <;> simp [pure, Except.pure, throw, throwThe, MonadExceptOf.throw, eq_comm, Json.bool?]

/-- The typed members are read one after the other. -/
theorem ofMembers_eq (m : Keyed Json) :
    ofMembers m = (do
      let fields ← objectMember m "fields"
      let inputs ← objectMember m "inputs"
      let mutation ← optionalObject m "mutation"
      let next ← optionalText m "next"
      let opcode ← optionalText m "opcode"
      let parent ← optionalText m "parent"
      let shadow ← flag m "shadow"
      let topLevel ← optionalFlag m "topLevel"
      return { opcode, shadow, topLevel, parent, next, fields, inputs, mutation
               extra := m.filter fun p => !memberNames.contains p.1 }) := by
  have hmutation : ∀ next : Option (Keyed Json) → Except String RawBlock,
      (match Keyed.get? "mutation" m with
        | none => pure none >>= next
        | some .null => pure none >>= next
        | some (.obj members) => pure (some members) >>= next
        | some j => throw (wrongType j "a map") >>= next) = optionalObject m "mutation" >>= next := by
    intro next
    unfold optionalObject
    split <;> rfl
  have hshadow : ∀ next : Bool → Except String RawBlock,
      (match Keyed.get? "shadow" m with
        | none => pure false >>= next
        | some (.bool b) => pure b >>= next
        | some j => throw (wrongType j "a boolean") >>= next) = flag m "shadow" >>= next := by
    intro next
    unfold flag
    split <;> rfl
  have htopLevel : ∀ next : Option Bool → Except String RawBlock,
      (match Keyed.get? "topLevel" m with
        | none => pure none >>= next
        | some .null => pure none >>= next
        | some (.bool b) => pure (some b) >>= next
        | some j => throw (wrongType j "a boolean") >>= next) =
          optionalFlag m "topLevel" >>= next := by
    intro next
    unfold optionalFlag
    split <;> rfl
  unfold ofMembers
  refine bind_congr fun fields => bind_congr fun inputs => (hmutation _).trans ?_
  refine bind_congr fun mutation => bind_congr fun next => bind_congr fun opcode =>
    bind_congr fun parent => (hshadow _).trans (bind_congr fun shadow => ?_)
  exact htopLevel _

/-- The typed members of an entry. -/
theorem ofMembers_eq_ok {raw : RawBlock} :
    ofMembers m = .ok raw ↔ TypedEntry m ∧ raw = .ofEntry m := by
  rw [ofMembers_eq]
  simp only [bind_eq_ok_iff, objectMember_eq_ok, optionalText_eq_ok, optionalObject_eq_ok,
    flag_eq_ok, optionalFlag_eq_ok]
  constructor
  · rintro ⟨_, ⟨h₁, rfl⟩, _, ⟨h₂, rfl⟩, _, ⟨h₃, rfl⟩, _, ⟨h₄, rfl⟩, _, ⟨h₅, rfl⟩, _, ⟨h₆, rfl⟩, _,
      ⟨h₇, rfl⟩, _, ⟨h₈, rfl⟩, h⟩
    exact ⟨⟨h₁, h₂, h₃, h₄, h₅, h₆, h₇, h₈⟩, (Except.ok.inj h).symm⟩
  · rintro ⟨h, rfl⟩
    exact ⟨_, ⟨h.fields, rfl⟩, _, ⟨h.inputs, rfl⟩, _, ⟨h.mutation, rfl⟩, _, ⟨h.next, rfl⟩, _,
      ⟨h.opcode, rfl⟩, _, ⟨h.parent, rfl⟩, _, ⟨h.shadow, rfl⟩, _, ⟨h.topLevel, rfl⟩, rfl⟩

/-- Fields are read from lists. -/
theorem readFields_eq_ok (ps : Keyed Json) (fields : Keyed Field) :
    (ps.mapM fun (name, j) => return (name, ← readField name j)) = Except.ok fields ↔
      (∀ p ∈ ps, ∃ items, p.2 = .arr items) ∧
        fields = ps.map fun p => (p.1, .ofItems p.2.items) := by
  refine mapM_eq_ok_iff (fun p field => ?_) ps fields
  obtain ⟨name, j⟩ := p
  cases j <;> simp [readField, Field.ofItems, Json.items, Json.arr?, pure, Except.pure, bind,
    Except.bind, eq_comm]

/-- Inputs are lists. -/
theorem readInputs_eq_ok (id : String) (ps : Keyed Json) (inputs : Keyed (List Json)) :
    (ps.mapM fun (name, j) =>
      match j with
      | .arr items => Except.ok (name, items)
      | _ => Except.error (EngineError.malformedGraph (.inputNotArray name id))) =
        Except.ok inputs ↔
      (∀ p ∈ ps, ∃ items, p.2 = .arr items) ∧ inputs = ps.map fun p => (p.1, p.2.items) := by
  refine mapM_eq_ok_iff (fun p input => ?_) ps inputs
  obtain ⟨name, j⟩ := p
  cases j <;> simp [Json.items, Json.arr?, eq_comm]

theorem toBlock_eq_ok {id : String} {raw : RawBlock} {b : Block} :
    raw.toBlock id = .ok b ↔
      (∃ opcode topLevel, raw.opcode = some opcode ∧ raw.topLevel = some topLevel ∧
        (∀ p ∈ raw.fields, ∃ items, p.2 = .arr items) ∧
        (∀ p ∈ raw.inputs, ∃ items, p.2 = .arr items) ∧
        b = { id
              opcode := .ofText opcode
              shadow := raw.shadow
              topLevel
              parent := raw.parent
              next := raw.next
              fields := raw.fields.map fun p => (p.1, .ofItems p.2.items)
              inputs := raw.inputs.map fun p => (p.1, p.2.items)
              mutation := raw.mutation.map Mutation.mk
              extra := raw.extra
              defined := true }) := by
  unfold toBlock
  cases hopcode : raw.opcode with
  | none => simp [throw, throwThe, MonadExceptOf.throw]
  | some opcode =>
    cases htopLevel : raw.topLevel with
    | none => simp [throw, throwThe, MonadExceptOf.throw]
    | some topLevel =>
      simp only [bind_eq_ok_iff, readFields_eq_ok]
      constructor
      · rintro ⟨_, ⟨hfields, rfl⟩, inputs, hread, h⟩
        obtain ⟨hinputs, rfl⟩ := (readInputs_eq_ok id raw.inputs inputs).1 hread
        exact ⟨opcode, topLevel, rfl, rfl, hfields, hinputs, (Except.ok.inj h).symm⟩
      · rintro ⟨opcode', topLevel', hopcode', htopLevel', hfields, hinputs, rfl⟩
        obtain rfl := Option.some.inj hopcode'
        obtain rfl := Option.some.inj htopLevel'
        exact ⟨_, ⟨hfields, rfl⟩, _, (readInputs_eq_ok id raw.inputs _).2 ⟨hinputs, rfl⟩, rfl⟩

end RawBlock

/-! ## Reading one entry -/

/-- The block of an entry, or the first fault in it. -/
def readEntry (e : String × Keyed Json) : Except EngineError Block := do
  let raw ← (RawBlock.ofMembers e.2).mapError fun reason =>
    .malformedGraph (.shape s!"block '{e.1}': {reason}")
  raw.toBlock e.1

theorem textAt_eq_some {name s : String} {m : Keyed Json} :
    textAt name m = some s ↔ Keyed.get? name m = some (.str s) := by
  unfold textAt
  cases Keyed.get? name m with
  | none => simp
  | some j => cases j <;> simp [Json.str?]

theorem flagAt_eq_some {name : String} {b : Bool} {m : Keyed Json} :
    flagAt name m = some b ↔ Keyed.get? name m = some (.bool b) := by
  unfold flagAt
  cases Keyed.get? name m with
  | none => simp
  | some j => cases j <;> simp [Json.bool?]

theorem isArrayGroup_iff {name : String} {m : Keyed Json} :
    IsArrayGroup (Keyed.get? name m) ↔
      IsGroup (Keyed.get? name m) ∧
        ∀ p ∈ (groupAt name m).getD [], ∃ items, p.2 = .arr items := by
  unfold IsArrayGroup IsGroup groupAt
  cases Keyed.get? name m with
  | none => simp
  | some j => cases j <;> simp

/-- An entry is well formed if its members have their types, what has to be there is, and fields
and inputs are lists. -/
theorem wellFormedEntry_iff {m : Keyed Json} :
    WellFormedEntry m ↔
      TypedEntry m ∧ (∃ opcode topLevel, textAt "opcode" m = some opcode ∧
        flagAt "topLevel" m = some topLevel ∧
        (∀ p ∈ (groupAt "fields" m).getD [], ∃ items, p.2 = .arr items) ∧
        ∀ p ∈ (groupAt "inputs" m).getD [], ∃ items, p.2 = .arr items) := by
  simp only [textAt_eq_some, flagAt_eq_some]
  constructor
  · intro h
    obtain ⟨opcode, hopcode⟩ := h.opcode
    obtain ⟨topLevel, htopLevel⟩ := h.topLevel
    obtain ⟨hfields, hfieldItems⟩ := isArrayGroup_iff.1 h.fields
    obtain ⟨hinputs, hinputItems⟩ := isArrayGroup_iff.1 h.inputs
    refine ⟨⟨hfields, hinputs, h.mutation, h.next, fun j hj => ?_, h.parent, h.shadow,
      fun j hj => ?_⟩, opcode, topLevel, hopcode, htopLevel, hfieldItems, hinputItems⟩
    · exact Or.inr ⟨opcode, Option.some.inj (hj.symm.trans hopcode)⟩
    · exact Or.inr ⟨topLevel, Option.some.inj (hj.symm.trans htopLevel)⟩
  · rintro ⟨h, opcode, topLevel, hopcode, htopLevel, hfieldItems, hinputItems⟩
    exact ⟨⟨opcode, hopcode⟩, ⟨topLevel, htopLevel⟩, h.shadow, h.parent, h.next,
      isArrayGroup_iff.2 ⟨h.fields, hfieldItems⟩, isArrayGroup_iff.2 ⟨h.inputs, hinputItems⟩,
      h.mutation⟩

/-- Reading an entry gives the block it describes exactly if it is well formed. -/
theorem readEntry_eq_ok {e : String × Keyed Json} {b : Block} :
    readEntry e = .ok b ↔ WellFormedEntry e.2 ∧ b = .ofEntry e := by
  unfold readEntry
  simp only [bind_eq_ok_iff, mapError_eq_ok_iff, RawBlock.ofMembers_eq_ok, RawBlock.toBlock_eq_ok,
    wellFormedEntry_iff]
  constructor
  · rintro ⟨_, ⟨htyped, rfl⟩, opcode, topLevel, hopcode, htopLevel, hfields, hinputs, rfl⟩
    change textAt "opcode" e.2 = _ at hopcode
    change flagAt "topLevel" e.2 = _ at htopLevel
    refine ⟨⟨htyped, opcode, topLevel, hopcode, htopLevel, hfields, hinputs⟩, ?_⟩
    simp [Block.ofEntry, RawBlock.ofEntry, hopcode, htopLevel]
  · rintro ⟨⟨htyped, opcode, topLevel, hopcode, htopLevel, hfields, hinputs⟩, rfl⟩
    refine ⟨_, ⟨htyped, rfl⟩, opcode, topLevel, hopcode, htopLevel, hfields, hinputs, ?_⟩
    simp [Block.ofEntry, RawBlock.ofEntry, hopcode, htopLevel]

/-- A malformed entry has a fault. -/
theorem exists_readEntry_eq_error {e : String × Keyed Json} (h : ¬ WellFormedEntry e.2) :
    ∃ err, readEntry e = .error err := by
  cases hread : readEntry e with
  | error err => exact ⟨err, rfl⟩
  | ok b => exact absurd (readEntry_eq_ok.1 hread).1 h

/-! ## Taking in one entry -/

namespace Graph

/-- The links of `links` that are not known, each once, in order. -/
def missing (known : List String) : List String → List String
  | [] => []
  | id :: rest =>
    if id ∈ known then missing known rest else id :: missing (known ++ [id]) rest

theorem missing_append (known links links' : List String) :
    missing known (links ++ links') =
      missing known links ++ missing (known ++ missing known links) links' := by
  induction links generalizing known with
  | nil => simp [missing]
  | cons id rest ih =>
    rw [List.cons_append, missing, missing]
    split
    · rw [ih]
    · rw [ih]
      simp

theorem missing_eq_nil {known links : List String} :
    missing known links = [] ↔ ∀ id ∈ links, id ∈ known := by
  induction links with
  | nil => simp [missing]
  | cons id rest ih =>
    unfold missing
    split
    · next hid => simp [ih, hid]
    · next hid => simp [hid]

/-- The first missing link is the first one that is not known. -/
theorem missing_eq_cons {known links more : List String} {id : String}
    (h : missing known links = id :: more) :
    ∃ pre post, links = pre ++ id :: post ∧ (∀ i ∈ pre, i ∈ known) ∧ id ∉ known := by
  induction links with
  | nil => cases h
  | cons i rest ih =>
    unfold missing at h
    split at h
    · next hi =>
      obtain ⟨pre, post, rfl, hpre, hid⟩ := ih h
      exact ⟨i :: pre, post, rfl, List.forall_mem_cons.2 ⟨hi, hpre⟩, hid⟩
    · next hi =>
      obtain ⟨rfl, -⟩ := List.cons.inj h
      exact ⟨[], rest, rfl, nofun, hi⟩

theorem not_mem_missing {known : List String} {id : String} (h : id ∈ known)
    (links : List String) : id ∉ missing known links := by
  induction links generalizing known with
  | nil => exact List.not_mem_nil
  | cons i rest ih =>
    unfold missing
    split
    · exact ih h
    · next hi =>
      rw [List.mem_cons, not_or]
      exact ⟨fun he => hi (he ▸ h), ih (List.mem_append_left _ h)⟩

theorem contains_iff (g : Graph) (id : String) : g.contains id = true ↔ id ∈ g.ids := by
  simp [contains, ids]

/-- Placeholders are made for the links that are missing. -/
theorem foldl_ensure (g : Graph) (links : List String) :
    links.foldl Graph.ensure g =
      { g with blocks := g.blocks ++ (missing g.ids links).map Block.placeholder } := by
  induction links generalizing g with
  | nil => simp [missing]
  | cons id rest ih =>
    rw [List.foldl_cons, ih, missing, ensure]
    by_cases hid : id ∈ g.ids
    · rw [if_pos ((g.contains_iff id).2 hid), if_pos hid]
    · rw [if_neg fun h => hid ((g.contains_iff id).1 h), if_neg hid]
      simp [ids, Block.placeholder]

/-- A block takes the place of the one with its id. -/
theorem define_append (g : Graph) (before after : List Block) (old b : Block)
    (hblocks : g.blocks = before ++ old :: after) (hid : old.id = b.id)
    (hbefore : ∀ x ∈ before, x.id ≠ b.id) (hafter : ∀ x ∈ after, x.id ≠ b.id) :
    g.define b = { g with blocks := before ++ b :: after } := by
  have hkeep : ∀ xs : List Block, (∀ x ∈ xs, x.id ≠ b.id) →
      (xs.map fun old => if old.id = b.id then b else old) = xs := by
    intro xs hxs
    refine (List.map_congr_left fun x hx => ?_).trans (List.map_id xs)
    exact if_neg (hxs x hx)
  unfold define
  rw [hblocks, List.map_append, List.map_cons, hkeep before hbefore, hkeep after hafter, if_pos hid]

end Graph

namespace Document

/-- An entry that can be read is taken in: placeholders for its links first. -/
theorem addBlock_of_ok {g : Graph} {e : String × Keyed Json} (h : WellFormedEntry e.2) :
    addBlock g e = .ok (((entryLinks e).foldl Graph.ensure g).define (.ofEntry e)) := by
  have hread := readEntry_eq_ok.2 ⟨h, rfl⟩
  unfold readEntry at hread
  obtain ⟨raw, hraw, hblock⟩ := bind_eq_ok_iff.1 hread
  obtain ⟨-, rfl⟩ := RawBlock.ofMembers_eq_ok.1 (mapError_eq_ok_iff.1 hraw)
  refine bind_eq_ok_iff.2 ⟨_, hraw, ?_⟩
  exact bind_eq_ok_iff.2 ⟨_, hblock, rfl⟩

/-- An entry with a fault stops the reading. -/
theorem addBlock_of_error {g : Graph} {e : String × Keyed Json} {err : EngineError}
    (h : readEntry e = .error err) : addBlock g e = .error err := by
  unfold readEntry at h
  unfold addBlock
  cases hraw : (RawBlock.ofMembers e.2).mapError fun reason =>
      EngineError.malformedGraph (.shape s!"block '{e.1}': {reason}") with
  | error err' =>
    rw [hraw] at h
    have hsame : err' = err := Except.error.inj h
    simp only
    rw [hraw, hsame]
    rfl
  | ok raw =>
    rw [hraw] at h
    have hblock : raw.toBlock e.1 = .error err := h
    simp only
    rw [hraw]
    show (do let b ← raw.toBlock e.1; _) = _
    rw [hblock]
    rfl

/-! ## The graph while it is built -/

/-- The ids of the blocks of a document. -/
def entryIds (d : Document) : List String := d.blockEntries.map (·.1)

/-- The links of a document, entry by entry, parent before next. -/
def links (d : Document) : List String := d.blockEntries.flatMap entryLinks

/-- Each id of the document stands once, as every reader leaves it. -/
def Distinct (d : Document) : Prop := (d.blocks.map (·.1)).Nodup

/-- The graph after the entries `done` with `rest` still to come: the blocks read so far, then the
places of those to come, then the links that are still open. -/
def building (extra : Keyed Json) (done rest : List (String × Keyed Json)) (opened : List String) :
    Graph where
  blocks := done.map Block.ofEntry ++
    (rest.map (fun e => Block.placeholder e.1) ++ opened.map Block.placeholder)
  extra

theorem ids_building (extra : Keyed Json) (done rest : List (String × Keyed Json))
    (opened : List String) :
    (building extra done rest opened).ids =
      (done ++ rest).map (·.1) ++ opened := by
  simp [building, Graph.ids, Block.ofEntry, Block.placeholder, Function.comp_def]

/-- One entry takes its place, and its new links are opened behind all blocks. -/
theorem addBlock_building (extra : Keyed Json) {done : List (String × Keyed Json)}
    (rest : List (String × Keyed Json)) {e : String × Keyed Json} {opened : List String}
    (he : WellFormedEntry e.2) (hids : ((done ++ e :: rest).map (·.1)).Nodup)
    (hopened : ∀ id ∈ opened, id ∉ (done ++ e :: rest).map (·.1)) :
    addBlock (building extra done (e :: rest) opened) e =
      .ok (building extra (done ++ [e]) rest
        (opened ++ Graph.missing ((done ++ e :: rest).map (·.1) ++ opened) (entryLinks e))) := by
  rw [addBlock_of_ok he, Graph.foldl_ensure, ids_building]
  generalize hnew : Graph.missing ((done ++ e :: rest).map (·.1) ++ opened) (entryLinks e) = new
  have hknown : e.1 ∈ (done ++ e :: rest).map (·.1) := by simp
  have hother : ∀ p ∈ done ++ rest, p.1 ≠ e.1 := by
    rw [List.map_append, List.map_cons, List.nodup_append, List.nodup_cons] at hids
    obtain ⟨-, ⟨hrest, -⟩, hdone⟩ := hids
    intro p hp hpe
    rcases List.mem_append.1 hp with hp | hp
    · exact hdone _ (List.mem_map_of_mem hp) _ List.mem_cons_self hpe
    · exact hrest (hpe ▸ List.mem_map_of_mem hp)
  have hlinks : ∀ id ∈ opened ++ new, id ≠ e.1 := by
    intro id hid hie
    rcases List.mem_append.1 hid with hid | hid
    · exact hopened id hid (hie ▸ hknown)
    · rw [← hnew, hie] at hid
      exact Graph.not_mem_missing (List.mem_append_left _ hknown) _ hid
  have hplace := Graph.define_append
    ⟨(building extra done (e :: rest) opened).blocks ++ new.map Block.placeholder, extra⟩
    (done.map Block.ofEntry)
    (rest.map (fun p => Block.placeholder p.1) ++ (opened ++ new).map Block.placeholder)
    (.placeholder e.1) (.ofEntry e) ?_ rfl ?_ ?_
  · refine congrArg Except.ok (hplace.trans ?_)
    simp [building]
  · simp [building]
  · intro x hx
    obtain ⟨p, hp, rfl⟩ := List.mem_map.1 hx
    exact hother p (List.mem_append_left _ hp)
  · intro x hx
    rcases List.mem_append.1 hx with hx | hx
    · obtain ⟨p, hp, rfl⟩ := List.mem_map.1 hx
      exact hother p (List.mem_append_right _ hp)
    · obtain ⟨id, hid, rfl⟩ := List.mem_map.1 hx
      exact hlinks id hid

/-- All entries of a well-formed part take their places. -/
theorem foldlM_addBlock (extra : Keyed Json) (done rest more : List (String × Keyed Json))
    (opened : List String) (hrest : ∀ e ∈ rest, WellFormedEntry e.2)
    (hids : ((done ++ (rest ++ more)).map (·.1)).Nodup)
    (hopened : ∀ id ∈ opened, id ∉ (done ++ (rest ++ more)).map (·.1)) :
    rest.foldlM addBlock (building extra done (rest ++ more) opened) =
      .ok (building extra (done ++ rest) more
        (opened ++ Graph.missing ((done ++ (rest ++ more)).map (·.1) ++ opened)
          (rest.flatMap entryLinks))) := by
  induction rest generalizing done opened with
  | nil => simp [Graph.missing, pure, Except.pure]
  | cons e rest ih =>
    obtain ⟨he, hrest⟩ := List.forall_mem_cons.1 hrest
    have hshift : done ++ (e :: rest ++ more) = (done ++ [e]) ++ (rest ++ more) := by simp
    have hfirst := addBlock_building extra (rest ++ more) he hids hopened
    have hopened' : ∀ id ∈ opened ++ Graph.missing
        ((done ++ (e :: rest ++ more)).map (·.1) ++ opened) (entryLinks e),
        id ∉ (done ++ (e :: rest ++ more)).map (·.1) := by
      intro id hid hmem
      rcases List.mem_append.1 hid with hid | hid
      · exact hopened id hid hmem
      · exact Graph.not_mem_missing (List.mem_append_left _ hmem) _ hid
    rw [hshift] at hids hopened'
    have hrest := ih _ _ hrest hids hopened'
    rw [← hshift] at hrest
    rw [List.foldlM_cons, show e :: rest ++ more = e :: (rest ++ more) from rfl, hfirst]
    show List.foldlM addBlock (building extra (done ++ [e]) (rest ++ more) _) rest = _
    refine hrest.trans (congrArg Except.ok ?_)
    rw [List.flatMap_cons, Graph.missing_append]
    simp

/-- Of the blocks that are built the first that is not defined is the first open link. -/
theorem find?_building (extra : Keyed Json) (done : List (String × Keyed Json))
    (opened : List String) :
    (building extra done [] opened).blocks.find? (!·.defined) =
      opened.head?.map Block.placeholder := by
  have hdone : (done.map Block.ofEntry).find? (!·.defined) = none := by
    rw [List.find?_eq_none]
    intro b hb
    obtain ⟨e, -, rfl⟩ := List.mem_map.1 hb
    simp [Block.ofEntry]
  show (done.map Block.ofEntry ++ ([] ++ opened.map Block.placeholder)).find? _ = _
  rw [List.find?_append, hdone, Option.none_or]
  cases opened <;> simp [Block.placeholder]

/-! ## The graph of a document -/

theorem nodup_entryIds {d : Document} (hd : d.Distinct) : d.entryIds.Nodup := by
  refine hd.sublist ?_
  unfold entryIds blockEntries
  induction d.blocks with
  | nil => exact List.Sublist.refl _
  | cons p rest ih =>
    obtain ⟨id, j⟩ := p
    cases j with
    | obj members => exact ih.cons_cons id
    | _ => exact ih.cons id

/-- The graph of a document all of whose entries are well formed. -/
theorem graph_of_wellFormed {d : Document} (hd : d.Distinct)
    (h : ∀ e ∈ d.blockEntries, WellFormedEntry e.2) :
    d.graph =
      match Graph.missing d.entryIds d.links with
      | [] => .ok ⟨d.blockEntries.map Block.ofEntry, d.extra⟩
      | id :: _ => .error (.malformedGraph (.dangling id)) := by
  have hfold := foldlM_addBlock d.extra [] d.blockEntries [] [] h
    (by rw [List.append_nil]; exact nodup_entryIds hd) nofun
  simp only [List.append_nil, List.nil_append] at hfold
  have hstart : (⟨d.blockEntries.map fun e => .placeholder e.1, d.extra⟩ : Graph) =
      building d.extra [] d.blockEntries [] := by
    simp [building]
  unfold graph
  simp only
  rw [hstart, hfold]
  have hfind := find?_building d.extra d.blockEntries (Graph.missing d.entryIds d.links)
  simp only [bind, Except.bind]
  change List.find? _ (building d.extra d.blockEntries []
    (Graph.missing (d.blockEntries.map (·.1)) (d.blockEntries.flatMap entryLinks))).blocks = _
    at hfind
  rw [hfind]
  cases hmissing : Graph.missing d.entryIds d.links with
  | nil =>
    rw [show Graph.missing (d.blockEntries.map (·.1)) (d.blockEntries.flatMap entryLinks) = []
      from hmissing]
    simp [building, pure, Except.pure]
  | cons id more => rfl

/-- The first fault of a document stops its reading. -/
theorem graph_of_readEntry {d : Document} (hd : d.Distinct) {e : String × Keyed Json}
    {pre post : List (String × Keyed Json)} {err : EngineError}
    (hsplit : d.blockEntries = pre ++ e :: post) (hpre : ∀ p ∈ pre, WellFormedEntry p.2)
    (he : readEntry e = .error err) : d.graph = .error err := by
  have hids : ((pre ++ e :: post).map (·.1)).Nodup := hsplit ▸ nodup_entryIds hd
  have hfold := foldlM_addBlock d.extra [] pre (e :: post) [] hpre hids nofun
  have hstart : (⟨d.blockEntries.map fun e => .placeholder e.1, d.extra⟩ : Graph) =
      building d.extra [] (pre ++ e :: post) [] := by
    simp [building, hsplit]
  unfold graph
  simp only
  rw [hstart, hsplit, List.foldlM_append, hfold]
  show (do let g ← List.foldlM addBlock (building _ _ _ _) (e :: post); _) = _
  rw [List.foldlM_cons, addBlock_of_error he]
  rfl

/-- What fails for some item of a list fails for a first one. -/
theorem exists_first {α : Type} {p : α → Prop} {xs : List α} (h : ¬ ∀ x ∈ xs, p x) :
    ∃ pre x post, xs = pre ++ x :: post ∧ (∀ y ∈ pre, p y) ∧ ¬ p x := by
  induction xs with
  | nil => exact absurd nofun h
  | cons x xs ih =>
    by_cases hx : p x
    · have hxs : ¬ ∀ y ∈ xs, p y := fun hxs => h (List.forall_mem_cons.2 ⟨hx, hxs⟩)
      obtain ⟨pre, y, post, rfl, hpre, hy⟩ := ih hxs
      exact ⟨x :: pre, y, post, rfl, List.forall_mem_cons.2 ⟨hx, hpre⟩, hy⟩
    · exact ⟨[], x, xs, rfl, nofun, hx⟩

/-- A document has a graph exactly if its entries are well formed and its links name entries; then
the graph is what the entries describe. -/
theorem graph_eq_ok {d : Document} (hd : d.Distinct) {g : Graph} :
    d.graph = .ok g ↔
      ((∀ e ∈ d.blockEntries, WellFormedEntry e.2) ∧ ∀ id ∈ d.links, id ∈ d.entryIds) ∧
        g = ⟨d.blockEntries.map Block.ofEntry, d.extra⟩ := by
  by_cases h : ∀ e ∈ d.blockEntries, WellFormedEntry e.2
  · rw [graph_of_wellFormed hd h]
    cases hmissing : Graph.missing d.entryIds d.links with
    | nil =>
      have hlinks := Graph.missing_eq_nil.1 hmissing
      constructor
      · intro hg
        exact ⟨⟨h, hlinks⟩, (Except.ok.inj hg).symm⟩
      · rintro ⟨-, rfl⟩
        rfl
    | cons id more =>
      constructor
      · intro hg
        cases hg
      · rintro ⟨⟨-, hlinks⟩, -⟩
        rw [Graph.missing_eq_nil.2 hlinks] at hmissing
        cases hmissing
  · obtain ⟨pre, e, post, hsplit, hpre, he⟩ := exists_first h
    obtain ⟨err, herr⟩ := exists_readEntry_eq_error he
    rw [graph_of_readEntry hd hsplit hpre herr]
    constructor
    · intro hg
      cases hg
    · rintro ⟨⟨hall, -⟩, -⟩
      exact absurd hall h

/-- The error of a document is that of its first malformed entry, or without one it names the first
link that leads nowhere. -/
theorem graph_eq_error {d : Document} (hd : d.Distinct) {err : EngineError}
    (h : d.graph = .error err) :
    (∃ pre e post, d.blockEntries = pre ++ e :: post ∧ (∀ p ∈ pre, WellFormedEntry p.2) ∧
      ¬ WellFormedEntry e.2 ∧ readEntry e = .error err) ∨
    ((∀ e ∈ d.blockEntries, WellFormedEntry e.2) ∧
      ∃ pre id post, d.links = pre ++ id :: post ∧ (∀ i ∈ pre, i ∈ d.entryIds) ∧
        id ∉ d.entryIds ∧ err = .malformedGraph (.dangling id)) := by
  by_cases hall : ∀ e ∈ d.blockEntries, WellFormedEntry e.2
  · rw [graph_of_wellFormed hd hall] at h
    cases hmissing : Graph.missing d.entryIds d.links with
    | nil =>
      rw [hmissing] at h
      cases h
    | cons id more =>
      rw [hmissing] at h
      obtain ⟨pre, post, hsplit, hpre, hid⟩ := Graph.missing_eq_cons hmissing
      exact Or.inr ⟨hall, pre, id, post, hsplit, hpre, hid, (Except.error.inj h).symm⟩
  · obtain ⟨pre, e, post, hsplit, hpre, he⟩ := exists_first hall
    obtain ⟨err', herr⟩ := exists_readEntry_eq_error he
    have hsame : err' = err :=
      Except.error.inj ((graph_of_readEntry hd hsplit hpre herr).symm.trans h)
    exact Or.inl ⟨pre, e, post, hsplit, hpre, he, hsame ▸ herr⟩

/-- In a graph with the given ids every link to one of them resolves. -/
theorem exists_get?_of_mem {d : Document} {id : String} (h : id ∈ d.entryIds) :
    ∃ b, (⟨d.blockEntries.map Block.ofEntry, d.extra⟩ : Graph).get? id = some b := by
  obtain ⟨e, he, rfl⟩ := List.mem_map.1 h
  refine Option.isSome_iff_exists.1 (List.find?_isSome.2 ?_)
  exact ⟨.ofEntry e, List.mem_map_of_mem he, by simp [Block.ofEntry]⟩

theorem mem_links {d : Document} {e : String × Keyed Json} {id : String}
    (he : e ∈ d.blockEntries) (hid : (Block.ofEntry e).parent = some id ∨
      (Block.ofEntry e).next = some id) : id ∈ d.links := by
  refine List.mem_flatMap.2 ⟨e, he, List.mem_append.2 ?_⟩
  exact hid.imp Option.mem_toList.2 Option.mem_toList.2

/-- A document has a graph exactly if every entry is well formed and every link names an entry. The
graph holds the block of each entry, in the order of the document, and all its links resolve. The
error of any other document is that of its first malformed entry; where all are well formed it
names the first link that leads nowhere. -/
theorem graph_spec (d : Document) (hd : d.Distinct) :
    ((∃ g, d.graph = .ok g) ↔
      (∀ e ∈ d.blockEntries, WellFormedEntry e.2) ∧
        ∀ e ∈ d.blockEntries, ∀ id ∈ entryLinks e, id ∈ d.entryIds) ∧
    (∀ g, d.graph = .ok g →
      g.blocks = d.blockEntries.map Block.ofEntry ∧ g.extra = d.extra ∧
        ∀ b ∈ g.blocks, (∀ id, b.parent = some id → ∃ p, g.get? id = some p) ∧
          ∀ id, b.next = some id → ∃ n, g.get? id = some n) ∧
    ∀ err, d.graph = .error err →
      (∃ pre e post, d.blockEntries = pre ++ e :: post ∧ (∀ p ∈ pre, WellFormedEntry p.2) ∧
        ¬ WellFormedEntry e.2 ∧ readEntry e = .error err) ∨
      ((∀ e ∈ d.blockEntries, WellFormedEntry e.2) ∧
        ∃ pre id post, d.links = pre ++ id :: post ∧ (∀ i ∈ pre, i ∈ d.entryIds) ∧
          id ∉ d.entryIds ∧ err = .malformedGraph (.dangling id)) := by
  refine ⟨?_, fun g hg => ?_, fun err h => graph_eq_error hd h⟩
  · have hlinks : (∀ e ∈ d.blockEntries, ∀ id ∈ entryLinks e, id ∈ d.entryIds) ↔
        ∀ id ∈ d.links, id ∈ d.entryIds := by
      simp only [links, List.mem_flatMap]
      exact ⟨fun h id ⟨e, he, hid⟩ => h e he id hid, fun h e he id hid => h id ⟨e, he, hid⟩⟩
    rw [hlinks]
    exact ⟨fun ⟨_, hg⟩ => ((graph_eq_ok hd).1 hg).1, fun h => ⟨_, (graph_eq_ok hd).2 ⟨h, rfl⟩⟩⟩
  · obtain ⟨⟨-, hlinks⟩, rfl⟩ := (graph_eq_ok hd).1 hg
    refine ⟨rfl, rfl, fun b hb => ?_⟩
    obtain ⟨e, he, rfl⟩ := List.mem_map.1 hb
    refine ⟨fun id hid => ?_, fun id hid => ?_⟩
    · exact exists_get?_of_mem (hlinks id (mem_links he (Or.inl hid)))
    · exact exists_get?_of_mem (hlinks id (mem_links he (Or.inr hid)))

/-- A forward link to a block that stands behind an entry that is none. -/
theorem graph_of_two_entries :
    let d : Document :=
      ⟨[("a", .obj [("next", .str "b"), ("opcode", .str "x_y"), ("topLevel", .bool true)]),
        ("c", .arr []),
        ("b", .obj [("opcode", .str "x"), ("parent", .str "a"), ("topLevel", .bool false)])], []⟩
    d.Distinct ∧ ∃ g, d.graph = .ok g ∧ g.ids = ["a", "b"] := by
  intro d
  have hd : d.Distinct := by
    show ["a", "c", "b"].Nodup
    decide
  have hwell : ∀ e ∈ d.blockEntries, WellFormedEntry e.2 := by
    intro e he
    rcases List.mem_cons.1 he with rfl | he
    · constructor <;> simp [IsOptionalText, IsArrayGroup, IsOptionalObject]
    · rw [List.mem_singleton.1 he]
      constructor <;> simp [IsOptionalText, IsArrayGroup, IsOptionalObject]
  have hlinks : ∀ e ∈ d.blockEntries, ∀ id ∈ entryLinks e, id ∈ d.entryIds := by
    have hids : d.entryIds = ["a", "b"] := rfl
    intro e he id hid
    rw [hids]
    rcases List.mem_cons.1 he with rfl | he
    · obtain rfl : id = "b" := by simpa [entryLinks, textAt, Json.str?] using hid
      decide
    · rw [List.mem_singleton.1 he] at hid
      obtain rfl : id = "a" := by simpa [entryLinks, textAt, Json.str?] using hid
      decide
  obtain ⟨g, hg⟩ := (graph_spec d hd).1.2 ⟨hwell, hlinks⟩
  refine ⟨hd, g, hg, ?_⟩
  rw [Graph.ids, ((graph_spec d hd).2.1 g hg).1]
  rfl

/-! ## Each id once -/

theorem mem_map_dedupe_step (done : List (String × Json)) (m : String × Json) :
    ((if done.any (·.1 = m.1) then done.map fun d => if d.1 = m.1 then m else d
      else done ++ [m]).map (·.1)) =
      if m.1 ∈ done.map (·.1) then done.map (·.1) else done.map (·.1) ++ [m.1] := by
  by_cases hm : m.1 ∈ done.map (·.1)
  · have hany : done.any (·.1 = m.1) = true := by
      obtain ⟨d, hd, hdm⟩ := List.mem_map.1 hm
      exact List.any_eq_true.2 ⟨d, hd, decide_eq_true hdm⟩
    rw [if_pos hm, if_pos hany, List.map_map]
    refine List.map_congr_left fun d _ => ?_
    simp only [Function.comp_apply]
    split
    · next h => exact h.symm
    · rfl
  · have hany : ¬ done.any (·.1 = m.1) = true := by
      intro h
      obtain ⟨d, hd, hdm⟩ := List.any_eq_true.1 h
      exact hm (List.mem_map.2 ⟨d, hd, of_decide_eq_true hdm⟩)
    rw [if_neg hm, if_neg hany]
    simp

theorem nodup_dedupe (members : List (String × Json)) : ((dedupe members).map (·.1)).Nodup := by
  unfold dedupe
  suffices h : ∀ done : List (String × Json), (done.map (·.1)).Nodup →
      ((members.foldl (fun done m =>
        if done.any (·.1 = m.1) then done.map fun d => if d.1 = m.1 then m else d
        else done ++ [m]) done).map (·.1)).Nodup from h [] List.nodup_nil
  induction members with
  | nil => exact fun _ h => h
  | cons m rest ih =>
    intro done hdone
    refine ih _ ?_
    rw [mem_map_dedupe_step]
    split
    · exact hdone
    · next hm =>
      rw [List.nodup_append]
      refine ⟨hdone, by simp, fun id hid id' hid' he => hm ?_⟩
      rw [← List.mem_singleton.1 hid', ← he]
      exact hid

/-- In the document of a text each id stands once. -/
theorem distinct_of_ofText? {content : String} {d : Document} (h : ofText? content = some d) :
    d.Distinct := by
  have htarget : ∀ {limit w}, targetOfWritten? limit w = some d → d.Distinct := by
    intro limit w hw
    cases w with
    | obj members =>
      simp only [targetOfWritten?, Option.bind_eq_bind, Option.bind_eq_some_iff, Option.pure_def,
        Option.some.injEq] at hw
      obtain ⟨named, -, found, -, blocks, hblocks, extra, -, rfl⟩ := hw
      show (blocks.map (·.1)).Nodup
      unfold blocksOfWritten? at hblocks
      split at hblocks
      · rw [← Option.some.inj hblocks]
        exact List.nodup_nil
      · obtain ⟨js, -, rfl⟩ := Option.map_eq_some_iff.1 hblocks
        exact nodup_dedupe js
      · cases hblocks
    | _ => cases hw
  simp only [ofText?, Option.bind_eq_bind, Option.bind_eq_some_iff] at h
  obtain ⟨w, -, hw⟩ := h
  split at hw
  · obtain ⟨named, -, found, -, target, -, htarget'⟩ := by
      simpa only [Option.bind_eq_bind, Option.bind_eq_some_iff] using hw
    exact htarget htarget'
  · exact htarget hw
  · cases hw

end Document
end BlockEngine
