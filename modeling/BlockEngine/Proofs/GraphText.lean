import BlockEngine.Graph.Printer
import BlockEngine.Proofs.Documents
import BlockEngine.Proofs.JsonText

/-!
# Graphs read back from their texts

* `Opcode.text_ofText`, `Opcode.ofText_text` : which texts and which opcodes are kept;
* `Block.Held`, `Graph.Held` : the blocks and graphs whose data can stand in a text;
* `Block.ofEntry_members` : the members of a block are read as the block;
* `Document.ofText?_text` : the text of a graph is a text of its blocks in key order;
* `Graph.parse_text` : a graph is read back from its text, in key order and with every opcode as its
  text names it.
-/

namespace BlockEngine

/-! ## Opcodes -/

namespace Opcode

theorem ofText_of_not_mem {raw : String} (h : '_' ∉ raw.toList) : ofText raw = ⟨"", raw⟩ := by
  have hall : ∀ c ∈ raw.toList, decide (c ≠ '_') = true :=
    fun c hc => decide_eq_true fun he => h (he ▸ hc)
  have hnone : (chars raw).dropWhile (· ≠ '_') = [] := by
    rw [chars_eq_toList, ← List.append_nil raw.toList, List.dropWhile_append_of_pos hall]
    rfl
  unfold ofText
  simp only [hnone]

theorem ofText_append {pre : List Char} (h : '_' ∉ pre) (post : List Char) :
    ofText (String.ofList (pre ++ '_' :: post)) = ⟨String.ofList pre, String.ofList post⟩ := by
  have hpre : ∀ c ∈ pre, decide (c ≠ '_') = true :=
    fun c hc => decide_eq_true fun he => h (he ▸ hc)
  unfold ofText
  simp only [chars_eq_toList, String.toList_ofList]
  rw [List.dropWhile_append_of_pos hpre, List.takeWhile_append_of_pos hpre]
  simp

/-- A text either has no underscore, or it is split at its first one. -/
theorem split_cases (raw : String) : '_' ∉ raw.toList ∨
    ∃ pre post, '_' ∉ pre ∧ raw = String.ofList (pre ++ '_' :: post) := by
  by_cases h : '_' ∈ raw.toList
  · obtain ⟨pre, post, hsplit, hpre⟩ := List.eq_append_cons_of_mem h
    exact .inr ⟨pre, post, hpre, by rw [← hsplit, String.ofList_toList]⟩
  · exact .inl h

/-- The extension of an opcode that was read holds no underscore. -/
theorem extension_ofText (raw : String) : '_' ∉ (ofText raw).extension.toList := by
  rcases split_cases raw with h | ⟨pre, post, hpre, rfl⟩
  · rw [ofText_of_not_mem h]
    exact List.not_mem_nil
  · rw [ofText_append hpre, String.toList_ofList]
    exact hpre

theorem text_mk_ofList (pre post : List Char) :
    (Opcode.mk (String.ofList pre) (String.ofList post)).text =
      String.ofList (if pre = [] then post else pre ++ '_' :: post) := by
  unfold text
  cases pre with
  | nil => rfl
  | cons c pre =>
    have hne : (String.ofList (c :: pre)).isEmpty = false := by simp
    rw [if_neg (by rw [hne]; exact Bool.false_ne_true), if_neg (List.cons_ne_nil c pre)]
    refine String.toList_inj.1 ?_
    simp

/-- A text is written as it was read, unless it begins with an underscore. -/
theorem text_ofText (raw : String) : (ofText raw).text = raw ↔ raw.toList.head? ≠ some '_' := by
  rcases split_cases raw with h | ⟨pre, post, hpre, rfl⟩
  · have hhead : raw.toList.head? ≠ some '_' := fun hhead => h (List.mem_of_mem_head? hhead)
    rw [ofText_of_not_mem h]
    exact ⟨fun _ => hhead, fun _ => rfl⟩
  · rw [ofText_append hpre, text_mk_ofList, String.toList_ofList, String.ofList_inj]
    cases pre with
    | nil =>
      rw [if_pos rfl]
      exact ⟨fun h => (List.ne_cons_self h).elim, fun h => absurd rfl h⟩
    | cons c pre =>
      rw [if_neg (List.cons_ne_nil c pre)]
      refine ⟨fun _ hc => hpre ?_, fun _ => rfl⟩
      rw [← Option.some.inj hc]
      exact List.mem_cons_self

/-- An opcode is read back from its text if its extension is not empty or its name has no
underscore. -/
theorem ofText_text {o : Opcode} (ho : '_' ∉ o.extension.toList) :
    ofText o.text = o ↔ o.extension ≠ "" ∨ '_' ∉ o.name.toList := by
  obtain ⟨extension, name⟩ := o
  obtain ⟨pre, rfl⟩ := extension.exists_eq_ofList
  obtain ⟨post, rfl⟩ := name.exists_eq_ofList
  rw [String.toList_ofList] at ho
  rw [text_mk_ofList, String.toList_ofList]
  cases pre with
  | nil =>
    rw [if_pos rfl]
    rcases split_cases (String.ofList post) with h | ⟨pre', post', hpre, hsplit⟩
    · rw [ofText_of_not_mem h]
      rw [String.toList_ofList] at h
      exact ⟨fun _ => .inr h, fun _ => rfl⟩
    · obtain rfl := String.ofList_inj.1 hsplit
      rw [ofText_append hpre]
      constructor
      · intro h
        have hname := congrArg List.length (String.ofList_inj.1 (Opcode.mk.inj h).2)
        simp only [List.length_append, List.length_cons] at hname
        omega
      · rintro (h | h)
        · exact absurd rfl h
        · exact absurd (List.mem_append_right _ List.mem_cons_self) h
  | cons c pre =>
    rw [if_neg (List.cons_ne_nil c pre), ofText_append ho]
    exact ⟨fun _ => .inl (by simp), fun _ => rfl⟩

end Opcode

/-! ## Blocks -/

namespace Block

variable {limit : Nat} {b : Block}

/-- The links of a block, parent before next. -/
def links (b : Block) : List String := b.parent.toList ++ b.next.toList

/-- A block as it is read back. -/
def reread (b : Block) : Block := { b with opcode := .ofText b.opcode.text, defined := true }

/-- What a block has of its own as members of an object. -/
def ownMembers (b : Block) : List (String × Json) :=
  [("opcode", Json.str b.opcode.text), ("shadow", .bool b.shadow), ("topLevel", .bool b.topLevel),
   ("parent", Json.ofOption b.parent), ("next", Json.ofOption b.next),
   ("fields", .object (b.fields.map fun (k, f) => (k, f.toJson))),
   ("inputs", .object (b.inputs.map fun (k, items) => (k, .arr items)))] ++
  (b.mutation.map fun m => ("mutation", Json.obj m.members)).toList

/-- The members of a block, each name once. -/
def members (b : Block) : Keyed Json := Keyed.ofList (b.extra ++ b.ownMembers)

theorem toJson_eq (b : Block) : b.toJson = .obj b.members := by
  unfold toJson members ownMembers Json.object
  cases b.mutation <;> simp

/-- A block whose data can stand in an object that nests less than `limit` deep. -/
structure Held (limit : Nat) (b : Block) : Prop where
  fields : Keyed.Ordered b.fields
  inputs : Keyed.Ordered b.inputs
  mutation : ∀ m, b.mutation = some m → (Json.obj m.members).Fits (limit - 1)
  extra : Keyed.Ordered b.extra
  foreign : ∀ p ∈ b.extra, p.1 ∉ RawBlock.memberNames
  fieldValues : ∀ p ∈ b.fields, p.2.value.Fits (limit - 3)
  inputItems : ∀ p ∈ b.inputs, ∀ j ∈ p.2, j.Fits (limit - 3)
  extraValues : ∀ p ∈ b.extra, p.2.Fits (limit - 1)

theorem mem_memberNames {p : String × Json} (hp : p ∈ b.ownMembers) :
    p.1 ∈ RawBlock.memberNames := by
  unfold ownMembers at hp
  rcases List.mem_append.1 hp with hp | hp
  · simp only [List.mem_cons, List.not_mem_nil, or_false] at hp
    rcases hp with rfl | rfl | rfl | rfl | rfl | rfl | rfl <;> simp [RawBlock.memberNames]
  · obtain ⟨m, -, rfl⟩ := Option.map_eq_some_iff.1 (Option.mem_toList.1 hp)
    simp [RawBlock.memberNames]

/-- The editor's data does not hide what the block has of its own. -/
theorem get?_members (hb : b.Held limit) {name : String} (hname : name ∈ RawBlock.memberNames) :
    Keyed.get? name b.members = Keyed.get? name (Keyed.ofList b.ownMembers) := by
  have hnone : Keyed.get? name b.extra = none := by
    cases h : Keyed.get? name b.extra with
    | none => rfl
    | some j => exact absurd hname (hb.foreign _ (Keyed.mem_of_get? h))
  rw [members, Keyed.get?_ofList_append, hb.extra.ofList_eq, hnone, Option.or_none]

/-- The other members are the editor's data. -/
theorem filter_members (hb : b.Held limit) :
    b.members.filter (fun p => !RawBlock.memberNames.contains p.1) = b.extra := by
  refine Keyed.Ordered.ext ((Keyed.ordered_ofList _).filter _) hb.extra fun k => ?_
  rw [Keyed.get?_filter fun k => !RawBlock.memberNames.contains k]
  split
  · next hk =>
    have hk : k ∉ RawBlock.memberNames := by simpa using hk
    have hnone : Keyed.get? k (Keyed.ofList b.ownMembers) = none := by
      cases h : Keyed.get? k (Keyed.ofList b.ownMembers) with
      | none => rfl
      | some j =>
        exact absurd (mem_memberNames (Keyed.mem_of_mem_ofList (Keyed.mem_of_get? h))) hk
    rw [members, Keyed.get?_ofList_append, hnone, Option.none_or, hb.extra.ofList_eq]
  · next hk =>
    have hk : k ∈ RawBlock.memberNames := by simpa using hk
    cases h : Keyed.get? k b.extra with
    | none => rfl
    | some j => exact absurd hk (hb.foreign _ (Keyed.mem_of_get? h))

theorem nodup_ownMembers (b : Block) : (b.ownMembers.map (·.1)).Nodup := by
  unfold ownMembers
  cases b.mutation <;> simp

theorem get?_own (hb : b.Held limit) (name : String) (j : Json) (h : (name, j) ∈ b.ownMembers) :
    Keyed.get? name b.members = some j := by
  rw [get?_members hb (mem_memberNames h)]
  exact Keyed.get?_ofList_of_mem b.nodup_ownMembers h

theorem get?_mutation (hb : b.Held limit) :
    Keyed.get? "mutation" b.members = b.mutation.map fun m => Json.obj m.members := by
  cases hm : b.mutation with
  | some m => exact get?_own hb _ _ (by simp [ownMembers, hm])
  | none =>
    rw [get?_members hb (by decide)]
    cases h : Keyed.get? "mutation" (Keyed.ofList b.ownMembers) with
    | none => rfl
    | some j =>
      have hmem := Keyed.mem_of_mem_ofList (Keyed.mem_of_get? h)
      simp [ownMembers, hm] at hmem

theorem get?_fields (hb : b.Held limit) : Keyed.get? "fields" b.members =
    some (.obj (b.fields.map fun p => (p.1, p.2.toJson))) := by
  have h := get?_own hb "fields" (.object (b.fields.map fun p => (p.1, p.2.toJson)))
    (by simp [ownMembers])
  rwa [Json.object, Keyed.Ordered.ofList_eq (hb.fields.map Field.toJson)] at h

theorem get?_inputs (hb : b.Held limit) : Keyed.get? "inputs" b.members =
    some (.obj (b.inputs.map fun p => (p.1, .arr p.2))) := by
  have h := get?_own hb "inputs" (.object (b.inputs.map fun p => (p.1, .arr p.2)))
    (by simp [ownMembers])
  rwa [Json.object, Keyed.Ordered.ofList_eq (hb.inputs.map Json.arr)] at h

theorem textAt_ofOption {m : Keyed Json} {name : String} {s? : Option String}
    (h : Keyed.get? name m = some (Json.ofOption s?)) : textAt name m = s? := by
  rw [textAt, h]
  cases s? <;> rfl

theorem textAt_parent (hb : b.Held limit) : textAt "parent" b.members = b.parent :=
  textAt_ofOption (get?_own hb "parent" (.ofOption b.parent) (by simp [ownMembers]))

theorem textAt_next (hb : b.Held limit) : textAt "next" b.members = b.next :=
  textAt_ofOption (get?_own hb "next" (.ofOption b.next) (by simp [ownMembers]))

/-- The members of a block are those of a block as it should be. -/
theorem wellFormed_members (hb : b.Held limit) : WellFormedEntry b.members where
  opcode := ⟨_, get?_own hb "opcode" (.str b.opcode.text) (by simp [ownMembers])⟩
  topLevel := ⟨_, get?_own hb "topLevel" (.bool b.topLevel) (by simp [ownMembers])⟩
  shadow j hj := by
    have h := get?_own hb "shadow" (.bool b.shadow) (by simp [ownMembers])
    exact ⟨_, Option.some.inj (hj.symm.trans h)⟩
  parent j hj := by
    have h := get?_own hb "parent" (.ofOption b.parent) (by simp [ownMembers])
    obtain rfl := Option.some.inj (hj.symm.trans h)
    cases b.parent
    · exact .inl rfl
    · exact .inr ⟨_, rfl⟩
  next j hj := by
    have h := get?_own hb "next" (.ofOption b.next) (by simp [ownMembers])
    obtain rfl := Option.some.inj (hj.symm.trans h)
    cases b.next
    · exact .inl rfl
    · exact .inr ⟨_, rfl⟩
  fields j hj := by
    obtain rfl := Option.some.inj (hj.symm.trans (get?_fields hb))
    refine ⟨_, rfl, fun p hp => ?_⟩
    obtain ⟨q, -, rfl⟩ := List.mem_map.1 hp
    exact ⟨_, rfl⟩
  inputs j hj := by
    obtain rfl := Option.some.inj (hj.symm.trans (get?_inputs hb))
    refine ⟨_, rfl, fun p hp => ?_⟩
    obtain ⟨q, -, rfl⟩ := List.mem_map.1 hp
    exact ⟨_, rfl⟩
  mutation j hj := by
    rw [get?_mutation hb] at hj
    obtain ⟨m, -, rfl⟩ := Option.map_eq_some_iff.1 hj
    exact .inr ⟨_, rfl⟩

/-- The members of a block are read as the block. -/
theorem ofEntry_members (hb : b.Held limit) : Block.ofEntry (b.id, b.members) = b.reread := by
  have hopcode : textAt "opcode" b.members = some b.opcode.text := by
    rw [textAt, get?_own hb "opcode" (.str b.opcode.text) (by simp [ownMembers])]
    rfl
  have hshadow : flagAt "shadow" b.members = some b.shadow := by
    rw [flagAt, get?_own hb "shadow" (.bool b.shadow) (by simp [ownMembers])]
    rfl
  have htop : flagAt "topLevel" b.members = some b.topLevel := by
    rw [flagAt, get?_own hb "topLevel" (.bool b.topLevel) (by simp [ownMembers])]
    rfl
  have hfields : ((groupAt "fields" b.members).getD []).map
      (fun p => (p.1, Field.ofItems p.2.items)) = b.fields := by
    rw [groupAt, get?_fields hb]
    show (b.fields.map fun p => (p.1, p.2.toJson)).map _ = _
    rw [List.map_map]
    refine (List.map_congr_left fun p _ => ?_).trans (List.map_id _)
    obtain ⟨k, value, id⟩ := p
    cases id <;> rfl
  have hinputs : ((groupAt "inputs" b.members).getD []).map (fun p => (p.1, p.2.items)) =
      b.inputs := by
    rw [groupAt, get?_inputs hb]
    show (b.inputs.map fun p => (p.1, Json.arr p.2)).map _ = _
    rw [List.map_map]
    exact (List.map_congr_left fun p _ => rfl).trans (List.map_id _)
  have hmutation : (groupAt "mutation" b.members).map Mutation.mk = b.mutation := by
    rw [groupAt, get?_mutation hb]
    cases b.mutation <;> rfl
  unfold Block.ofEntry reread
  simp only [hopcode, hshadow, htop, textAt_parent hb, textAt_next hb, hfields, hinputs, hmutation,
    filter_members hb, Option.getD_some]

theorem entryLinks_members (hb : b.Held limit) : entryLinks (b.id, b.members) = b.links := by
  unfold entryLinks links
  rw [textAt_parent hb, textAt_next hb]

theorem fits_ofOption (s? : Option String) (limit : Nat) : (Json.ofOption s?).Fits limit := by
  cases s? <;> trivial

/-- An object of lists fits where their items do. -/
theorem fits_lists {α : Type} (items : α → List Json) {group : Keyed α} (hlimit : 2 < limit)
    (h : ∀ p ∈ group, ∀ j ∈ items p.2, j.Fits (limit - 2)) :
    (Json.object (group.map fun p => (p.1, .arr (items p.2)))).Fits limit := by
  rw [Json.object, Json.fits_obj_iff]
  refine ⟨by omega, Keyed.ordered_ofList _, fun q hq => ?_⟩
  obtain ⟨p, hp, rfl⟩ := List.mem_map.1 (Keyed.mem_of_mem_ofList hq)
  rw [Json.fits_arr_iff]
  exact ⟨by omega, h p hp⟩

/-- A block as it is written fits where its data do. -/
theorem Held.fits_toJson (hb : b.Held limit) (hlimit : 3 < limit) : b.toJson.Fits limit := by
  rw [toJson_eq, Json.fits_obj_iff]
  refine ⟨by omega, Keyed.ordered_ofList _, fun p hp => ?_⟩
  rcases List.mem_append.1 (Keyed.mem_of_mem_ofList hp) with hp | hp
  · exact hb.extraValues p hp
  · unfold ownMembers at hp
    rcases List.mem_append.1 hp with hp | hp
    · simp only [List.mem_cons, List.not_mem_nil, or_false] at hp
      rcases hp with rfl | rfl | rfl | rfl | rfl | rfl | rfl
      · trivial
      · trivial
      · trivial
      · exact fits_ofOption _ _
      · exact fits_ofOption _ _
      · show (Json.object (b.fields.map fun p => (p.1, p.2.toJson))).Fits (limit - 1)
        refine fits_lists (fun f : Field => [f.value, .ofOption f.id]) (by omega) fun p hp j hj => ?_
        rcases List.mem_cons.1 hj with rfl | hj
        · exact hb.fieldValues p hp
        · rw [List.mem_singleton.1 hj]
          exact fits_ofOption _ _
      · show (Json.object (b.inputs.map fun p => (p.1, .arr p.2))).Fits (limit - 1)
        exact fits_lists (fun items => items) (by omega) fun p hp => hb.inputItems p hp
    · obtain ⟨m, hm, rfl⟩ := Option.map_eq_some_iff.1 (Option.mem_toList.1 hp)
      exact hb.mutation m hm

end Block

/-! ## Documents -/

namespace Document

open Json (Written)

theorem namedMembers?_writtenMembers (members : List (String × Written)) :
    namedMembers? (writtenMembers members) = some members := by
  induction members with
  | nil => rfl
  | cons m rest ih =>
    unfold namedMembers? writtenMembers at ih ⊢
    rw [List.map_cons, List.mapM_cons, ih]
    rfl

theorem ofMembers_eq_writtenMembers (members : List (String × Json)) :
    Written.ofMembers members = writtenMembers (members.map fun m => (m.1, Written.ofJson m.2)) := by
  rw [Written.ofMembers_eq, writtenMembers, List.map_map]
  rfl

theorem single?_of_ordered {m : Keyed Json} (h : Keyed.Ordered m) (k : String) :
    single? k (m.map fun p => (p.1, Written.ofJson p.2)) =
      some ((Keyed.get? k m).map Written.ofJson) := by
  have hfilter : (m.map fun p => (p.1, Written.ofJson p.2)).filter (·.1 = k) =
      (((Keyed.get? k m).map fun v => (k, v)).toList).map fun p => (p.1, Written.ofJson p.2) := by
    rw [List.filter_map, ← h.filter_eq k]
    rfl
  unfold single?
  rw [hfilter]
  cases Keyed.get? k m <;> rfl

theorem dedupe_of_nodup {members : List (String × Json)} (h : (members.map (·.1)).Nodup) :
    dedupe members = members := by
  suffices hgen : ∀ done rest : List (String × Json), ((done ++ rest).map (·.1)).Nodup →
      rest.foldl (fun done m =>
        if done.any (·.1 = m.1) then done.map fun d => if d.1 = m.1 then m else d
        else done ++ [m]) done = done ++ rest from hgen [] members h
  intro done rest
  induction rest generalizing done with
  | nil => intro _; rw [List.append_nil]; rfl
  | cons m rest ih =>
    intro h
    have hnew : ¬ done.any (·.1 = m.1) = true := by
      intro hany
      obtain ⟨d, hd, hdm⟩ := List.any_eq_true.1 hany
      rw [List.map_append, List.nodup_append] at h
      exact h.2.2 d.1 (List.mem_map_of_mem hd) m.1 (List.mem_map_of_mem List.mem_cons_self)
        (of_decide_eq_true hdm)
    rw [List.foldl_cons, if_neg hnew]
    have hshift : done ++ m :: rest = (done ++ [m]) ++ rest := by simp
    rw [hshift] at h ⊢
    exact ih _ h

end Document

namespace Graph

variable {g : Graph}

/-- A graph whose data can stand in a text. -/
structure Held (g : Graph) : Prop where
  distinct : g.ids.Nodup
  links : ∀ b ∈ g.blocks, ∀ id ∈ b.links, id ∈ g.ids
  blocks : ∀ b ∈ g.blocks, b.Held (Json.nestingLimit - 3)
  extra : Keyed.Ordered g.extra
  noBlocks : Keyed.get? "blocks" g.extra = none
  extraValues : ∀ p ∈ g.extra, p.2.Fits (Json.nestingLimit - 2)

/-- The blocks of a graph by their ids. -/
def inKeyOrder (g : Graph) : Keyed Block := Keyed.ofList (g.blocks.map fun b => (b.id, b))

/-- A graph as it is read back: in key order, every block as it is read back. -/
def reread (g : Graph) : Graph := ⟨g.inKeyOrder.values.map Block.reread, g.extra⟩

theorem mem_inKeyOrder (hg : g.ids.Nodup) {p : String × Block} :
    p ∈ g.inKeyOrder ↔ p.2 ∈ g.blocks ∧ p.1 = p.2.id := by
  have hkeys : ((g.blocks.map fun b => (b.id, b)).map (·.1)).Nodup := by
    rw [List.map_map]
    exact hg
  rw [inKeyOrder, Keyed.mem_ofList hkeys, List.mem_map]
  constructor
  · rintro ⟨b, hb, rfl⟩
    exact ⟨hb, rfl⟩
  · rintro ⟨hb, hid⟩
    exact ⟨p.2, hb, by rw [← hid]⟩

/-- The blocks of a graph as they are written. -/
def written (g : Graph) : Keyed Json := g.inKeyOrder.map fun p => (p.1, p.2.toJson)

theorem ordered_written (g : Graph) : Keyed.Ordered g.written :=
  (Keyed.ordered_ofList _).map Block.toJson

theorem blocksJson_eq (g : Graph) : g.blocksJson = .obj g.written := by
  have hmap : g.blocks.map (fun b => (b.id, b.toJson)) =
      (g.blocks.map fun b => (b.id, b)).map fun p => (p.1, p.2.toJson) := by
    rw [List.map_map]
    rfl
  rw [blocksJson, hmap, Json.object, Keyed.ofList_map]
  rfl

theorem fits_blocksJson (hg : g.Held) : g.blocksJson.Fits (Json.nestingLimit - 2) := by
  rw [blocksJson_eq, Json.fits_obj_iff]
  refine ⟨by decide, g.ordered_written, fun p hp => ?_⟩
  obtain ⟨q, hq, rfl⟩ := List.mem_map.1 hp
  exact (hg.blocks q.2 ((mem_inKeyOrder hg.distinct).1 hq).1).fits_toJson (by decide)

/-- The target of a graph as it is written. -/
def target (g : Graph) : Keyed Json := Keyed.insert "blocks" g.blocksJson g.extra

theorem fits_target (hg : g.Held) : (Json.obj g.target).Fits (Json.nestingLimit - 1) := by
  rw [Json.fits_obj_iff]
  refine ⟨by decide, hg.extra.insert _ _, fun p hp => ?_⟩
  rcases Keyed.mem_insert hp with rfl | hp
  · exact fits_blocksJson hg
  · exact hg.extraValues p hp

/-- A text can hold the document of the graph. -/
theorem fits_toJson (hg : g.Held) : g.toJson.Fits Json.nestingLimit := by
  have hjson : g.toJson = .obj [("target", .obj g.target)] := rfl
  rw [hjson, Json.fits_obj_iff]
  refine ⟨by decide, List.pairwise_singleton .., fun p hp => ?_⟩
  rw [List.mem_singleton.1 hp]
  exact fits_target hg

end Graph

/-! ## Reading back -/

namespace Document

open Json (Written)

/-- The text of a graph is a text of its blocks in key order and its other data. -/
theorem ofText?_text {g : Graph} (hg : g.Held) : ofText? g.text = some ⟨g.written, g.extra⟩ := by
  have hread : Written.read? g.text = some (.obj (writtenMembers [("target",
      .obj (Written.ofMembers g.target))])) := Json.read?_text (Graph.fits_toJson hg)
  have htarget : Keyed.Ordered g.target := hg.extra.insert _ _
  have hget : Keyed.get? "blocks" g.target = some (.obj g.written) := by
    rw [Graph.target, Keyed.get?_insert, if_pos rfl, Graph.blocksJson_eq]
  have hblocks : Written.membersToJson? (Json.nestingLimit - 3) (Written.ofMembers g.written) =
      some g.written := by
    have hfits := Graph.fits_blocksJson hg
    rw [Graph.blocksJson_eq, Json.fits_obj_iff] at hfits
    rw [Written.ofMembers_eq]
    exact Written.membersToJson?_ofJson fun m hm => Written.toJson?_ofJson (hfits.2.2 m hm)
  have hdedupe : dedupe g.written = g.written := dedupe_of_nodup (Graph.ordered_written g).nodup_keys
  have hothers : (g.target.map fun m => (m.1, Written.ofJson m.2)).filter (·.1 ≠ "blocks") =
      g.extra.map fun m => (m.1, Written.ofJson m.2) := by
    have herase : Keyed.erase "blocks" g.target = g.extra := by
      refine (htarget.erase _).ext hg.extra fun k => ?_
      rw [Keyed.get?_erase, Graph.target, Keyed.get?_insert]
      split
      · next hk => rw [hk, hg.noBlocks]
      · rfl
    rw [List.filter_map, ← herase]
    rfl
  have hextra : Written.membersToJson? (Json.nestingLimit - 2)
      (g.extra.map fun m => (some m.1, Written.ofJson m.2)) = some g.extra :=
    Written.membersToJson?_ofJson fun m hm => Written.toJson?_ofJson (hg.extraValues m hm)
  have hdocument : targetOfWritten? (Json.nestingLimit - 1) (.obj (Written.ofMembers g.target)) =
      some ⟨g.written, g.extra⟩ := by
    simp only [targetOfWritten?, ofMembers_eq_writtenMembers, namedMembers?_writtenMembers,
      single?_of_ordered htarget, hget, Option.bind_eq_bind, Option.bind_some, Option.map_some,
      hothers, List.map_map]
    show ((Written.membersToJson? (Json.nestingLimit - 3) (Written.ofMembers g.written)).map
      dedupe).bind _ = _
    rw [hblocks, Option.map_some, Option.bind_some, hdedupe]
    refine (congrArg (Option.bind · _) hextra).trans ?_
    rw [Option.bind_some, hg.extra.ofList_eq]
    rfl
  unfold ofText?
  rw [hread]
  simp only [Option.bind_eq_bind, Option.bind_some, namedMembers?_writtenMembers]
  exact hdocument

end Document

namespace Graph

variable {g : Graph}

/-- A graph is read back from its text. -/
theorem parse_text (hg : g.Held) : Graph.parse g.text = .ok g.reread := by
  have hdistinct : (Document.mk g.written g.extra).Distinct := (ordered_written g).nodup_keys
  have hentries : (Document.mk g.written g.extra).blockEntries =
      g.inKeyOrder.map fun p => (p.2.id, p.2.members) := by
    have hentry : ∀ p ∈ g.inKeyOrder, (p.1, p.2.toJson) = (p.2.id, Json.obj p.2.members) := by
      intro p hp
      rw [Block.toJson_eq, ((mem_inKeyOrder hg.distinct).1 hp).2]
    rw [Document.blockEntries, written, List.map_congr_left hentry, List.filterMap_map]
    exact congrFun (List.filterMap_eq_map (f := fun p : String × Block => (p.2.id, p.2.members))) _
  have hheld : ∀ p ∈ g.inKeyOrder, p.2.Held (Json.nestingLimit - 3) := fun p hp =>
    hg.blocks p.2 ((mem_inKeyOrder hg.distinct).1 hp).1
  have hgraph : (Document.mk g.written g.extra).graph = .ok g.reread := by
    refine (Document.graph_eq_ok hdistinct).2 ⟨⟨fun e he => ?_, fun id hid => ?_⟩, ?_⟩
    · rw [hentries] at he
      obtain ⟨p, hp, rfl⟩ := List.mem_map.1 he
      exact Block.wellFormed_members (hheld p hp)
    · obtain ⟨e, he, hid⟩ := List.mem_flatMap.1 hid
      rw [hentries] at he
      obtain ⟨p, hp, rfl⟩ := List.mem_map.1 he
      rw [Block.entryLinks_members (hheld p hp)] at hid
      have hb := ((mem_inKeyOrder hg.distinct).1 hp).1
      obtain ⟨b, hb, rfl⟩ := List.mem_map.1 (hg.links p.2 hb id hid)
      rw [Document.entryIds, hentries, List.map_map]
      exact List.mem_map.2 ⟨(b.id, b), (mem_inKeyOrder hg.distinct).2 ⟨hb, rfl⟩, rfl⟩
    · rw [hentries, reread, Keyed.values, List.map_map, List.map_map]
      refine congrArg (Graph.mk · g.extra) (List.map_congr_left fun p hp => ?_)
      exact (Block.ofEntry_members (hheld p hp)).symm
  rw [Graph.parse, Document.ofText, Document.ofText?_text hg]
  exact hgraph

end Graph

end BlockEngine
