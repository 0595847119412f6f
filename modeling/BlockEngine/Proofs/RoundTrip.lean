import BlockEngine.Proofs.GraphText

/-!
# Reading, writing and reading again

* `Graph.held_of_parse`, `Graph.held_of_ofValue` : what an accepted text or value describes can stand
  in a text, and `Graph.Held.ensure` : blocks that are asked for do not change that;
* `Graph.parse_text_of_parse` : what is kept of a graph that is written and read again;
* `Graph.text_reread_iff`, `Graph.text_of_ensure` : when its text is the same again;
* `opcode_lost_by_underscore` : a text for which it is not.
-/

namespace BlockEngine

/-! ## Which graphs can stand in a text -/

namespace Document

open Json (Written)

/-- A document whose data can stand in a text. -/
structure Held (d : Document) : Prop where
  distinct : d.Distinct
  blocks : ∀ p ∈ d.blocks, p.2.Fits (Json.nestingLimit - 3)
  extra : Keyed.Ordered d.extra
  noBlocks : Keyed.get? "blocks" d.extra = none
  extraValues : ∀ p ∈ d.extra, p.2.Fits (Json.nestingLimit - 2)

theorem mem_of_mem_dedupe {members : List (String × Json)} {p : String × Json}
    (h : p ∈ dedupe members) : p ∈ members := by
  suffices hgen : ∀ done rest : List (String × Json),
      p ∈ rest.foldl (fun done m =>
        if done.any (·.1 = m.1) then done.map fun d => if d.1 = m.1 then m else d
        else done ++ [m]) done → p ∈ done ∨ p ∈ rest from (hgen [] members h).resolve_left nofun
  clear h
  intro done rest
  induction rest generalizing done with
  | nil => exact .inl
  | cons m rest ih =>
    intro h
    rw [List.foldl_cons] at h
    rcases ih _ h with h | h
    · split at h
      · obtain ⟨d, hd, hp⟩ := List.mem_map.1 h
        split at hp
        · exact .inr (hp ▸ List.mem_cons_self)
        · exact .inl (hp ▸ hd)
      · rcases List.mem_append.1 h with h | h
        · exact .inl h
        · exact .inr (List.mem_singleton.1 h ▸ List.mem_cons_self)
    · exact .inr (List.mem_cons_of_mem _ h)

theorem held_of_targetOfWritten? {w : Written} {d : Document}
    (h : targetOfWritten? (Json.nestingLimit - 1) w = some d) (hd : d.Distinct) : d.Held := by
  cases w with
  | obj members =>
    simp only [targetOfWritten?, Option.bind_eq_bind, Option.bind_eq_some_iff, Option.pure_def,
      Option.some.injEq] at h
    obtain ⟨named, -, found, -, blocks, hblocks, extra, hextra, rfl⟩ := h
    have hnames : ∀ p ∈ extra, p.1 ≠ "blocks" := by
      intro p hp
      obtain ⟨m, hm, hname, -⟩ := Written.mem_of_membersToJson? hextra hp
      obtain ⟨n, hn, rfl⟩ := List.mem_map.1 hm
      rw [← Option.some.inj hname]
      exact of_decide_eq_true (List.mem_filter.1 hn).2
    refine ⟨hd, fun p hp => ?_, Keyed.ordered_ofList _, ?_, fun p hp => ?_⟩
    · unfold blocksOfWritten? at hblocks
      split at hblocks
      · rw [← Option.some.inj hblocks] at hp
        cases hp
      · obtain ⟨js, hjs, rfl⟩ := Option.map_eq_some_iff.1 hblocks
        obtain ⟨m, -, -, hread⟩ := Written.mem_of_membersToJson? hjs (mem_of_mem_dedupe hp)
        exact Written.fits_of_toJson? hread
      · cases hblocks
    · cases hget : Keyed.get? "blocks" (Keyed.ofList extra) with
      | none => rfl
      | some j => exact absurd rfl (hnames _ (Keyed.mem_of_mem_ofList (Keyed.mem_of_get? hget)))
    · obtain ⟨m, -, -, hread⟩ := Written.mem_of_membersToJson? hextra (Keyed.mem_of_mem_ofList hp)
      exact Written.fits_of_toJson? hread
  | _ => cases h

/-- The document of a text can stand in a text. -/
theorem held_of_ofText? {content : String} {d : Document} (h : ofText? content = some d) :
    d.Held := by
  have hd := distinct_of_ofText? h
  simp only [ofText?, Option.bind_eq_bind, Option.bind_eq_some_iff] at h
  obtain ⟨w, -, hw⟩ := h
  split at hw
  · obtain ⟨named, -, found, -, target, -, htarget⟩ := by
      simpa only [Option.bind_eq_bind, Option.bind_eq_some_iff] using hw
    exact held_of_targetOfWritten? htarget hd
  · exact held_of_targetOfWritten? hw hd
  · cases hw

theorem held_of_targetOfValue {j : Json} {d : Document} (hj : j.Fits (Json.nestingLimit - 1))
    (h : targetOfValue j = .ok d) : d.Held := by
  cases j with
  | obj members =>
    obtain ⟨-, hordered, hmembers⟩ := Json.fits_obj_iff.1 hj
    obtain ⟨blocks, rfl, hfits⟩ : ∃ blocks, d = ⟨blocks, Keyed.erase "blocks" members⟩ ∧
        Keyed.Ordered blocks ∧ ∀ p ∈ blocks, p.2.Fits (Json.nestingLimit - 3) := by
      unfold targetOfValue at h
      simp only at h
      cases hget : Keyed.get? "blocks" members with
      | none =>
        rw [hget] at h
        exact ⟨[], (Except.ok.inj h).symm, .nil, nofun⟩
      | some j =>
        rw [hget] at h
        have hj := hmembers _ (Keyed.mem_of_get? hget)
        cases j with
        | obj blocks => exact ⟨blocks, (Except.ok.inj h).symm, (Json.fits_obj_iff.1 hj).2⟩
        | _ => cases h
    refine ⟨hfits.1.nodup_keys, hfits.2, hordered.erase _, ?_, fun p hp => ?_⟩
    · rw [Keyed.get?_erase, if_pos rfl]
    · exact hmembers p (List.mem_filter.1 hp).1
  | _ => cases h

/-- The document of a value that a text can hold can stand in a text. -/
theorem held_of_ofValue {j : Json} {d : Document} (hj : j.Fits Json.nestingLimit)
    (h : ofValue j = .ok d) : d.Held := by
  have h : shapeOfValue j = .ok d := mapError_eq_ok_iff.1 h
  unfold shapeOfValue at h
  split at h
  · next members =>
    split at h
    · next target hget =>
      exact held_of_targetOfValue ((Json.fits_obj_iff.1 hj).2.2 _ (Keyed.mem_of_get? hget)) h
    · cases h
  · cases h
  · next target =>
    exact held_of_targetOfValue ((Json.fits_arr_iff.1 hj).2 _ List.mem_cons_self) h
  · obtain ⟨-, -, h⟩ := bind_eq_ok_iff.1 h
    cases h
  · cases h

/-- The lists of a group fit where the group does. -/
theorem group_of_isArrayGroup {m : Keyed Json} {name : String} {limit : Nat}
    (hm : ∀ p ∈ m, p.2.Fits limit) (h : IsArrayGroup (Keyed.get? name m)) :
    Keyed.Ordered ((groupAt name m).getD []) ∧
      ∀ p ∈ (groupAt name m).getD [], ∀ j ∈ p.2.items, j.Fits (limit - 2) := by
  cases hget : Keyed.get? name m with
  | none =>
    rw [groupAt, hget]
    exact ⟨.nil, fun p hp => absurd hp List.not_mem_nil⟩
  | some j =>
    obtain ⟨members, rfl, hlists⟩ := h j hget
    obtain ⟨-, hordered, hmembers⟩ := Json.fits_obj_iff.1 (hm _ (Keyed.mem_of_get? hget))
    rw [groupAt, hget]
    refine ⟨hordered, fun p hp j hj => ?_⟩
    obtain ⟨items, hitems⟩ := hlists p hp
    have hfits := hmembers p hp
    rw [hitems] at hfits hj
    exact (Json.fits_arr_iff.1 hfits).2 j hj

/-- The block of a well-formed entry can stand where the entry stands. -/
theorem held_ofEntry {e : String × Keyed Json} {limit : Nat} (he : WellFormedEntry e.2)
    (hfits : (Json.obj e.2).Fits limit) : (Block.ofEntry e).Held limit := by
  obtain ⟨-, hordered, hmembers⟩ := Json.fits_obj_iff.1 hfits
  obtain ⟨hfields, hvalues⟩ := group_of_isArrayGroup hmembers he.fields
  obtain ⟨hinputs, hitems⟩ := group_of_isArrayGroup hmembers he.inputs
  refine ⟨hfields.map fun j => Field.ofItems j.items, hinputs.map Json.items, ?_,
    hordered.filter _, fun p hp => ?_, ?_, ?_, fun p hp => hmembers p (List.mem_filter.1 hp).1⟩
  · intro m hm
    obtain ⟨members, hgroup, rfl⟩ := Option.map_eq_some_iff.1 hm
    obtain ⟨j, hget, hj⟩ := Option.bind_eq_some_iff.1 hgroup
    cases j with
    | obj members' =>
      obtain rfl := Option.some.inj hj
      exact hmembers _ (Keyed.mem_of_get? hget)
    | _ => cases hj
  · simpa using (List.mem_filter.1 hp).2
  · intro p hp
    obtain ⟨q, hq, rfl⟩ := List.mem_map.1 hp
    cases hitem : q.2.items[0]? with
    | none =>
      simp only [Field.ofItems, hitem]
      trivial
    | some j =>
      simp only [Field.ofItems, hitem, Option.getD_some]
      exact hvalues q hq j (List.mem_of_getElem? hitem)
  · intro p hp
    obtain ⟨q, hq, rfl⟩ := List.mem_map.1 hp
    exact hitems q hq

theorem mem_blocks_of_mem_entries {d : Document} {e : String × Keyed Json}
    (h : e ∈ d.blockEntries) : (e.1, Json.obj e.2) ∈ d.blocks := by
  obtain ⟨p, hp, he⟩ := List.mem_filterMap.1 h
  obtain ⟨id, j⟩ := p
  cases j with
  | obj members =>
    obtain rfl := Option.some.inj he
    exact hp
  | _ => cases he

/-- The graph of a document can stand where the document stands. -/
theorem held_graph {d : Document} (hd : d.Held) {g : Graph} (h : d.graph = .ok g) : g.Held := by
  obtain ⟨⟨hwell, hlinks⟩, rfl⟩ := (graph_eq_ok hd.distinct).1 h
  have hids : (⟨d.blockEntries.map Block.ofEntry, d.extra⟩ : Graph).ids = d.entryIds := by
    rw [Graph.ids, List.map_map]
    rfl
  refine ⟨hids ▸ nodup_entryIds hd.distinct, fun b hb id hid => ?_, fun b hb => ?_, hd.extra,
    hd.noBlocks, hd.extraValues⟩
  · obtain ⟨e, he, rfl⟩ := List.mem_map.1 hb
    rw [hids]
    exact hlinks id (List.mem_flatMap.2 ⟨e, he, hid⟩)
  · obtain ⟨e, he, rfl⟩ := List.mem_map.1 hb
    exact held_ofEntry (hwell e he) (hd.blocks _ (mem_blocks_of_mem_entries he))

end Document

namespace Graph

variable {g : Graph}

/-- What an accepted text describes can stand in a text. -/
theorem held_of_parse {content : String} (h : Graph.parse content = .ok g) : g.Held := by
  unfold Graph.parse Document.ofText at h
  cases hd : Document.ofText? content with
  | none =>
    rw [hd] at h
    cases h
  | some d =>
    rw [hd] at h
    exact Document.held_graph (Document.held_of_ofText? hd) h

/-- So can what an accepted value describes that a text can hold. -/
theorem held_of_ofValue {j : Json} (hj : j.Fits Json.nestingLimit) (h : Graph.ofValue j = .ok g) :
    g.Held := by
  obtain ⟨d, hd, h⟩ := bind_eq_ok_iff.1 h
  exact Document.held_graph (Document.held_of_ofValue hj hd) h

theorem held_placeholder (id : String) (limit : Nat) : (Block.placeholder id).Held limit :=
  ⟨.nil, .nil, nofun, .nil, nofun, nofun, nofun, nofun⟩

/-- Asking for a block that is not there does not keep a graph out of a text. -/
theorem Held.ensure (hg : g.Held) (id : String) : (g.ensure id).Held := by
  unfold Graph.ensure
  split
  · exact hg
  · next hid =>
    have hid : id ∉ g.ids := fun h => hid ((g.contains_iff id).2 h)
    have hids : (⟨g.blocks ++ [.placeholder id], g.extra⟩ : Graph).ids = g.ids ++ [id] := by
      simp [ids, Block.placeholder]
    refine ⟨?_, fun b hb i hi => ?_, fun b hb => ?_, hg.extra, hg.noBlocks, hg.extraValues⟩
    · rw [hids, List.nodup_append]
      refine ⟨hg.distinct, by simp, fun i hi i' hi' h => hid ?_⟩
      rw [← List.mem_singleton.1 hi', ← h]
      exact hi
    · rw [hids]
      rcases List.mem_append.1 hb with hb | hb
      · exact List.mem_append_left _ (hg.links b hb i hi)
      · rw [List.mem_singleton.1 hb] at hi
        cases hi
    · rcases List.mem_append.1 hb with hb | hb
      · exact hg.blocks b hb
      · rw [List.mem_singleton.1 hb]
        exact held_placeholder id _

theorem Held.foldl_ensure (hg : g.Held) (ids : List String) : (ids.foldl Graph.ensure g).Held := by
  induction ids generalizing g with
  | nil => exact hg
  | cons id rest ih => exact ih (hg.ensure id)

/-! ## What is kept -/

/-- The blocks of a graph that is read back are those of the graph. -/
theorem mem_reread (hg : g.Held) {b : Block} :
    b ∈ g.reread.blocks ↔ ∃ b' ∈ g.blocks, b = b'.reread := by
  rw [reread, Keyed.values, List.map_map, List.mem_map]
  constructor
  · rintro ⟨p, hp, rfl⟩
    exact ⟨p.2, ((mem_inKeyOrder hg.distinct).1 hp).1, rfl⟩
  · rintro ⟨b, hb, rfl⟩
    exact ⟨(b.id, b), (mem_inKeyOrder hg.distinct).2 ⟨hb, rfl⟩, rfl⟩

/-- Where ids are distinct a block is found by its id. -/
theorem get?_of_mem {b : Block} (hids : g.ids.Nodup) (hb : b ∈ g.blocks) : g.get? b.id = some b := by
  obtain ⟨blocks, extra⟩ := g
  change blocks.find? (·.id = b.id) = some b
  change (blocks.map (·.id)).Nodup at hids
  induction blocks with
  | nil => cases hb
  | cons b' rest ih =>
    obtain ⟨hb', hrest⟩ := List.nodup_cons.1 hids
    rcases List.mem_cons.1 hb with rfl | hb
    · exact List.find?_cons_of_pos (decide_eq_true rfl)
    · have hne : b'.id ≠ b.id := fun h => hb' (List.mem_map.2 ⟨b, hb, h.symm⟩)
      rw [List.find?_cons_of_neg (by simpa using hne)]
      exact ih hb hrest

theorem ids_reread (hg : g.Held) (id : String) : id ∈ g.reread.ids ↔ id ∈ g.ids := by
  rw [ids, ids, List.mem_map, List.mem_map]
  constructor
  · rintro ⟨b, hb, rfl⟩
    obtain ⟨b', hb', rfl⟩ := (mem_reread hg).1 hb
    exact ⟨b', hb', rfl⟩
  · rintro ⟨b, hb, rfl⟩
    exact ⟨b.reread, (mem_reread hg).2 ⟨b, hb, rfl⟩, rfl⟩

theorem held_reread (hg : g.Held) : g.reread.Held := held_of_parse (parse_text hg)

/-- Of the blocks of an accepted text only the placeholders of links are not defined, and none of
them are left; their extensions hold no underscore. -/
theorem read_of_parse {content : String} (h : Graph.parse content = .ok g) :
    ∀ b ∈ g.blocks, b.defined = true ∧ '_' ∉ b.opcode.extension.toList := by
  unfold Graph.parse at h
  obtain ⟨d, hd, h⟩ := bind_eq_ok_iff.1 h
  have hdistinct : d.Distinct := by
    unfold Document.ofText at hd
    split at hd
    · next d' hd' => exact Except.ok.inj hd ▸ Document.distinct_of_ofText? hd'
    · cases hd
  obtain ⟨-, rfl⟩ := (Document.graph_eq_ok hdistinct).1 h
  intro b hb
  obtain ⟨e, -, rfl⟩ := List.mem_map.1 hb
  exact ⟨rfl, Opcode.extension_ofText _⟩

/-- An accepted text is read, written and read again: the same blocks under the same ids, each with
what it had, and the same declared variables. The opcode is the one that its text names, which is
the same if the extension is not empty or the name has no underscore. -/
theorem parse_text_of_parse {content : String} (h : Graph.parse content = .ok g) :
    ∃ g', Graph.parse g.text = .ok g' ∧ (∀ id, id ∈ g'.ids ↔ id ∈ g.ids) ∧
      (∀ b ∈ g.blocks, g'.get? b.id = some { b with opcode := .ofText b.opcode.text } ∧
        (Opcode.ofText b.opcode.text = b.opcode ↔
          b.opcode.extension ≠ "" ∨ '_' ∉ b.opcode.name.toList)) ∧
      g'.declaredVariables = g.declaredVariables := by
  have hg := held_of_parse h
  refine ⟨g.reread, parse_text hg, ids_reread hg, fun b hb => ?_, rfl⟩
  obtain ⟨hdefined, hextension⟩ := read_of_parse h b hb
  have hb' := get?_of_mem (held_reread hg).distinct ((mem_reread hg).2 ⟨b, hb, rfl⟩)
  refine ⟨?_, Opcode.ofText_text hextension⟩
  have hsame : b.reread = { b with opcode := .ofText b.opcode.text } := by
    rw [Block.reread, ← hdefined]
  exact hsame ▸ hb'

/-! ## The text of a graph that is read back -/

theorem toJson_eq_iff (g g' : Graph) (hextra : g.extra = g'.extra) :
    g.toJson = g'.toJson ↔ g.written = g'.written := by
  constructor
  · intro h
    have htarget : g.target = g'.target :=
      Json.obj.inj (Prod.mk.inj (List.cons.inj (Json.obj.inj h)).1).2
    have hblocks := congrArg (Keyed.get? "blocks") htarget
    rw [target, target, Keyed.get?_insert, Keyed.get?_insert, if_pos rfl, if_pos rfl,
      blocksJson_eq, blocksJson_eq] at hblocks
    exact Json.obj.inj (Option.some.inj hblocks)
  · intro h
    unfold Graph.toJson
    rw [blocksJson_eq, blocksJson_eq, h, hextra]

theorem written_reread (hg : g.Held) :
    g.reread.written = g.inKeyOrder.map fun p => (p.1, p.2.reread.toJson) := by
  have hpairs : g.reread.blocks.map (fun b => (b.id, b)) =
      g.inKeyOrder.map fun p => (p.1, p.2.reread) := by
    rw [reread, Keyed.values, List.map_map, List.map_map]
    refine List.map_congr_left fun p hp => ?_
    rw [((mem_inKeyOrder hg.distinct).1 hp).2]
    rfl
  have hordered : Keyed.Ordered (g.inKeyOrder.map fun p => (p.1, p.2.reread)) :=
    (Keyed.ordered_ofList _).map Block.reread
  rw [written, inKeyOrder, hpairs, hordered.ofList_eq, List.map_map]
  rfl

/-- A block is written as before exactly if its opcode's text does not begin with an underscore. -/
theorem toJson_reread_iff {b : Block} {limit : Nat} (hb : b.Held limit) :
    b.reread.toJson = b.toJson ↔ b.opcode.text.toList.head? ≠ some '_' := by
  rw [← Opcode.text_ofText]
  constructor
  · intro h
    have hb' : b.reread.Held limit :=
      ⟨hb.fields, hb.inputs, hb.mutation, hb.extra, hb.foreign, hb.fieldValues, hb.inputItems,
        hb.extraValues⟩
    rw [Block.toJson_eq, Block.toJson_eq] at h
    have hget := congrArg (Keyed.get? "opcode") (Json.obj.inj h)
    rw [Block.get?_own hb' "opcode" (.str b.reread.opcode.text) (by simp [Block.ownMembers]),
      Block.get?_own hb "opcode" (.str b.opcode.text) (by simp [Block.ownMembers])] at hget
    exact Json.str.inj (Option.some.inj hget)
  · intro h
    unfold Block.toJson Block.reread
    simp only [h]

/-- The text of a graph that is read back is the same exactly if no opcode's text begins with an
underscore. -/
theorem text_reread_iff (hg : g.Held) :
    g.reread.text = g.text ↔ ∀ b ∈ g.blocks, b.opcode.text.toList.head? ≠ some '_' := by
  have htext : g.reread.text = g.text ↔ g.reread.toJson = g.toJson :=
    ⟨Json.text_injective (fits_toJson (held_reread hg)) (fits_toJson hg), congrArg Json.text⟩
  rw [htext, toJson_eq_iff g.reread g rfl, written_reread hg, written, List.map_inj_left]
  constructor
  · intro h b hb
    have hp := h (b.id, b) ((mem_inKeyOrder hg.distinct).2 ⟨hb, rfl⟩)
    exact (toJson_reread_iff (hg.blocks b hb)).1 (Prod.mk.inj hp).2
  · intro h p hp
    have hb := ((mem_inKeyOrder hg.distinct).1 hp).1
    exact Prod.ext rfl ((toJson_reread_iff (hg.blocks p.2 hb)).2 (h p.2 hb))

/-- A graph that was read, with any blocks asked for since, is read back from its text, and its text
is the same again exactly if no opcode's text begins with an underscore. -/
theorem text_of_ensure (hg : (∃ content, Graph.parse content = .ok g) ∨
      ∃ j : Json, j.Fits Json.nestingLimit ∧ Graph.ofValue j = .ok g) (ids : List String) :
    ∃ g', Graph.parse (ids.foldl Graph.ensure g).text = .ok g' ∧
      (g'.text = (ids.foldl Graph.ensure g).text ↔
        ∀ b ∈ g.blocks, b.opcode.text.toList.head? ≠ some '_') := by
  have hheld : g.Held := by
    rcases hg with ⟨content, h⟩ | ⟨j, hj, h⟩
    · exact held_of_parse h
    · exact held_of_ofValue hj h
  have hheld' := hheld.foldl_ensure ids
  refine ⟨_, parse_text hheld', (text_reread_iff hheld').trans ?_⟩
  rw [Graph.foldl_ensure]
  refine ⟨fun h b hb => h b (List.mem_append_left _ hb), fun h b hb => ?_⟩
  rcases List.mem_append.1 hb with hb | hb
  · exact h b hb
  · obtain ⟨id, -, rfl⟩ := List.mem_map.1 hb
    exact nofun

end Graph

/-- An opcode of the nameless extension loses the underscore its name begins with. -/
theorem opcode_lost_by_underscore :
    ∃ content g g', Graph.parse content = .ok g ∧ Graph.parse g.text = .ok g' ∧
      g.blocks.map (·.opcode) = [⟨"", "_x"⟩] ∧ g'.blocks.map (·.opcode) = [⟨"", "x"⟩] ∧
      g'.text ≠ g.text := by
  let content :=
    "\x7b\"target\":\x7b\"blocks\":\x7b\"a\":\x7b\"opcode\":\"__x\",\"topLevel\":true\x7d\x7d\x7d\x7d"
  have hread : (Graph.parse content).toOption.map (fun g => g.blocks.map (·.opcode)) =
      some [⟨"", "_x"⟩] := by decide +kernel
  have hagain : (Graph.parse content).toOption.map (fun g => g.reread.blocks.map (·.opcode)) =
      some [⟨"", "x"⟩] := by decide +kernel
  cases hg : Graph.parse content with
  | error _ => rw [hg] at hread; cases hread
  | ok g =>
    rw [hg] at hread hagain
    have hblocks : g.blocks.map (·.opcode) = [⟨"", "_x"⟩] := Option.some.inj hread
    have hheld := Graph.held_of_parse hg
    refine ⟨content, g, g.reread, hg, Graph.parse_text hheld, hblocks, Option.some.inj hagain, ?_⟩
    intro htext
    have hmem : (⟨"", "_x"⟩ : Opcode) ∈ g.blocks.map (·.opcode) := hblocks ▸ List.mem_singleton_self _
    obtain ⟨b, hb, hopcode⟩ := List.mem_map.1 hmem
    have hhead := (Graph.text_reread_iff hheld).1 htext b hb
    rw [hopcode] at hhead
    exact hhead (by decide)

end BlockEngine
