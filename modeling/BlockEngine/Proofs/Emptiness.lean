import BlockEngine.Graph.Document

/-!
# Empty contents

Two readers look at the text of a tab: one builds its graph, one tells whether it holds anything.

* `Json.Written.read?_of_isAllBlank`, `Document.ofText?_of_isAllBlank` : a blank text is none to both;
* `Document.get?_of_single` : the two readings of one member agree;
* `Document.graph_of_no_blocks` : without blocks the graph is empty;
* `Graph.parse_of_isEmptyContent` : an empty content that is no list has no blocks and declares no
  variables;
* `isEmptyContent_of_list` : a content that is a list is empty whatever it holds, and
  `blocks_in_list_count_as_empty` is one that has a block.
-/

namespace BlockEngine
open Json (Written)

/-! ## Blank texts -/

namespace Json

theorem not_isDigit_of_isBlank {c : Char} (hc : BlockEngine.isBlank c = true) :
    c.isDigit = false := by
  rw [Bool.eq_false_iff]
  intro h
  have hd : 48 ≤ c.toNat ∧ c.toNat ≤ 57 := by
    simpa [Char.isDigit, UInt32.le_iff_toNat_le] using h
  simp only [BlockEngine.isBlank, blankRanges, List.any_cons, List.any_nil, Bool.or_eq_true,
    Bool.and_eq_true, decide_eq_true_eq, Bool.or_false] at hc
  omega

theorem Token.scanNumber_of_isBlank {c : Char} (hc : BlockEngine.isBlank c = true)
    (cs : List Char) : Token.scanNumber (c :: cs) = none := by
  have hminus : c ≠ '-' := by rintro rfl; exact absurd hc (by decide)
  have hzero : c ≠ '0' := by rintro rfl; exact absurd hc (by decide)
  have hdigits : Token.scanDigits (c :: cs) = none := by
    simp [Token.scanDigits, not_isDigit_of_isBlank hc]
  simp [Token.scanNumber, Token.scanSign, Token.scanWhole, hminus, hzero, hdigits]

theorem Token.scanOne_of_isBlank {c : Char} (hc : BlockEngine.isBlank c = true)
    (cs : List Char) : Token.scanOne (c :: cs) = none := by
  unfold Token.scanOne
  split
  case h_11 => rw [Token.scanNumber_of_isBlank hc, Option.map_none]
  all_goals
    rename_i heq
    rw [(List.cons.inj heq).1] at hc
    exact absurd hc (by decide)

/-- No token starts with a blank, so a blank text has none. -/
theorem Token.scanAll_of_isBlank {fuel : Nat} {done ts : List Token} {cs : List Char}
    (hcs : cs.all BlockEngine.isBlank = true) (h : Token.scanAll fuel done cs = some ts) :
    ts = done.reverse := by
  induction cs generalizing fuel with
  | nil =>
    unfold Token.scanAll at h
    exact (Option.some.inj h).symm
  | cons c cs ih =>
    obtain ⟨hc, hcs⟩ := Bool.and_eq_true_iff.1 (List.all_cons.symm.trans hcs)
    cases fuel with
    | zero => cases h
    | succ fuel =>
      rw [Token.scanAll, Token.scanOne_of_isBlank hc] at h
      split at h
      · exact ih hcs h
      · cases h

theorem Written.read?_of_isAllBlank {content : String} (h : isAllBlank content = true) :
    Written.read? content = none := by
  unfold Written.read?
  cases hscan : Token.scan content with
  | none => rfl
  | some ts =>
    obtain rfl : ts = [] := Token.scanAll_of_isBlank h hscan
    rfl

end Json

/-! ## Members -/

/-- Members whose names are texts, as they are written. -/
def writtenMembers (members : List (String × Written)) : List (Option String × Written) :=
  members.map fun m => (some m.1, m.2)

theorem Document.namedMembers?_eq_some {members : List (Option String × Written)}
    {named : List (String × Written)} (h : Document.namedMembers? members = some named) :
    members = writtenMembers named := by
  induction members generalizing named with
  | nil =>
    obtain rfl : [] = named := by simpa [Document.namedMembers?] using h
    rfl
  | cons m rest ih =>
    obtain ⟨name, w⟩ := m
    unfold Document.namedMembers? at h ih
    rw [List.mapM_cons] at h
    cases name with
    | none => simp at h
    | some k =>
      cases hrest : rest.mapM fun m : Option String × Written => m.1.map (·, m.2) with
      | none => simp [hrest] at h
      | some named' =>
        obtain rfl : (k, w) :: named' = named := by simpa [hrest] using h
        rw [ih hrest]
        rfl

theorem Json.Written.membersToJson?_cons_eq_some {limit : Nat} {k : String} {w : Written}
    {rest : List (Option String × Written)} {js : List (String × Json)}
    (h : Written.membersToJson? limit ((some k, w) :: rest) = some js) :
    ∃ j js', w.toJson? limit = some j ∧ Written.membersToJson? limit rest = some js' ∧
      js = (k, j) :: js' := by
  unfold Written.membersToJson? at h
  cases hj : w.toJson? limit with
  | none => simp [hj] at h
  | some j =>
    cases hjs : Written.membersToJson? limit rest with
    | none => simp [hj, hjs] at h
    | some js' => exact ⟨j, js', rfl, rfl, by simpa [hj, hjs] using h.symm⟩

/-- Leaving members out and reading the values can be exchanged. -/
theorem Json.Written.membersToJson?_filter {limit : Nat} {members : List (String × Written)}
    {js : List (String × Json)}
    (h : Written.membersToJson? limit (writtenMembers members) = some js) (keep : String → Bool) :
    Written.membersToJson? limit (writtenMembers (members.filter fun m => keep m.1)) =
      some (js.filter fun m => keep m.1) := by
  induction members generalizing js with
  | nil =>
    obtain rfl : [] = js := by simpa [writtenMembers, Written.membersToJson?] using h
    rfl
  | cons m rest ih =>
    obtain ⟨j, js', hj, hjs, rfl⟩ := Written.membersToJson?_cons_eq_some h
    have ih := ih hjs
    by_cases hm : keep m.1 = true
    · rw [List.filter_cons, if_pos hm, List.filter_cons, if_pos hm]
      change Written.membersToJson? limit ((some m.1, m.2) :: writtenMembers _) = _
      rw [Written.membersToJson?, hj, ih]
      rfl
    · rw [List.filter_cons, if_neg hm, List.filter_cons, if_neg hm, ih]

/-- A member that is written once is the member the value has. -/
theorem Document.get?_of_single {limit : Nat} {name : String} {members : List (String × Written)}
    {js : List (String × Json)} {found : Option Written}
    (hjs : Written.membersToJson? limit (writtenMembers members) = some js)
    (hfound : Document.single? name members = some found) :
    found.map (Written.toJson? limit) = (Keyed.get? name (Keyed.ofList js)).map some := by
  have honly := Written.membersToJson?_filter hjs (· = name)
  rw [← Keyed.get?_ofList_filter (fun k => decide (k = name)) (decide_eq_true rfl) js]
  unfold Document.single? at hfound
  split at hfound
  · next hnone =>
    rw [hnone] at honly
    rw [← Option.some.inj hfound, ← Option.some.inj honly]
    rfl
  · next m hone =>
    rw [hone] at honly
    obtain ⟨j, js', hj, hnil, heq⟩ := Written.membersToJson?_cons_eq_some honly
    have hm : m.1 = name := by
      have hmem : m ∈ members.filter (·.1 = name) := hone ▸ List.mem_singleton_self m
      exact of_decide_eq_true (List.mem_filter.1 hmem).2
    obtain rfl : js' = [] := (Option.some.inj hnil).symm
    rw [← Option.some.inj hfound, heq]
    simp [Keyed.ofList, Keyed.insert, hm, hj]
  · cases hfound

/-! ## Targets -/

theorem Json.Written.toJson?_obj_eq_some {limit : Nat} {members : List (Option String × Written)}
    {j : Json} (h : Written.toJson? limit (.obj members) = some j) :
    ∃ js, Written.membersToJson? (limit - 1) members = some js ∧ j = .object js := by
  unfold Written.toJson? at h
  split at h
  · cases h
  · obtain ⟨js, hjs, rfl⟩ := Option.map_eq_some_iff.1 h
    exact ⟨js, hjs, rfl⟩

/-- A group that is an object and holds nothing has no members. -/
theorem members_of_holdsAnything {members : List (String × Json)}
    (h : holdsAnything (some (.obj members)) = false) : members = [] := by
  simpa [holdsAnything] using h

/-- Whether nothing is in any of the content groups of a target. -/
def isEmptyTarget (target : Json) : Bool :=
  contentGroups.all fun name => !holdsAnything (target.get? name)

theorem group_of_isEmptyTarget {target : Json} (h : isEmptyTarget target = true) {name : String}
    (hname : name ∈ contentGroups) : holdsAnything (target.get? name) = false := by
  simpa using List.all_eq_true.1 h name hname

/-- Blocks that are written as an empty object are none. -/
theorem Document.blocksOfWritten?_of_empty {limit : Nat} {w : Written} {j : Json}
    {blocks : List (String × Json)} (hblocks : Document.blocksOfWritten? limit (some w) = some blocks)
    (hj : w.toJson? limit = some j) (hempty : holdsAnything (some j) = false) : blocks = [] := by
  cases w with
  | obj members =>
    obtain ⟨js, hjs, rfl⟩ := Written.toJson?_obj_eq_some hj
    obtain ⟨js', hjs', rfl⟩ := Option.map_eq_some_iff.1 hblocks
    obtain rfl : js = js' := Option.some.inj (hjs.symm.trans hjs')
    have hnil : js = [] := Keyed.eq_nil_of_ofList (members_of_holdsAnything hempty)
    rw [hnil]
    rfl
  | _ => cases hblocks

/-- The typed reading of a target whose value is empty. -/
theorem Document.targetOfWritten?_of_isEmptyTarget {limit : Nat} {target : Written} {d : Document}
    {j : Json} (hd : Document.targetOfWritten? limit target = some d)
    (hj : target.toJson? limit = some j) (hempty : isEmptyTarget j = true) :
    d.blocks = [] ∧ holdsAnything (Keyed.get? "variables" d.extra) = false := by
  cases target with
  | obj members =>
    simp only [Document.targetOfWritten?, Option.bind_eq_bind, Option.bind_eq_some_iff,
      Option.pure_def, Option.some.injEq] at hd
    obtain ⟨named, hnamed, found, hfound, blocks, hblocks, extra, hextra, rfl⟩ := hd
    obtain rfl := Document.namedMembers?_eq_some hnamed
    obtain ⟨js, hjs, rfl⟩ := Written.toJson?_obj_eq_some hj
    refine ⟨?_, ?_⟩
    · have hsame := Document.get?_of_single hjs hfound
      cases found with
      | none => exact (Option.some.inj hblocks).symm
      | some w =>
        obtain ⟨jb, hget, hjb⟩ := Option.map_eq_some_iff.1 hsame.symm
        have hnothing := group_of_isEmptyTarget hempty (show "blocks" ∈ contentGroups by decide)
        change holdsAnything (Keyed.get? "blocks" (Keyed.ofList js)) = false at hnothing
        rw [hget] at hnothing
        exact Document.blocksOfWritten?_of_empty hblocks hjb.symm hnothing
    · have hothers : extra = js.filter fun m => decide (m.1 ≠ "blocks") :=
        Option.some.inj (hextra.symm.trans (Written.membersToJson?_filter hjs (· ≠ "blocks")))
      rw [hothers, Keyed.get?_ofList_filter (fun name => decide (name ≠ "blocks")) (by decide) js]
      exact group_of_isEmptyTarget hempty (by decide)
  | _ => cases hd

/-! ## Contents -/

/-- Without blocks the graph is what stands beside them. -/
theorem Document.graph_of_no_blocks {d : Document} (h : d.blocks = []) :
    d.graph = .ok ⟨[], d.extra⟩ := by
  have hentries : d.blockEntries = [] := by rw [Document.blockEntries, h]; rfl
  rw [Document.graph, hentries]
  rfl

theorem Graph.declaredVariables_of_holdsAnything {g : Graph}
    (h : holdsAnything (Keyed.get? "variables" g.extra) = false) : g.declaredVariables = [] := by
  unfold Graph.declaredVariables
  split
  · next declared hget =>
    rw [hget] at h
    rw [members_of_holdsAnything h]
    rfl
  · rfl

/-- The typed reading of a text whose value is an empty document, but no list. -/
theorem Document.ofText?_of_isEmptyDocument {content : String} {d : Document} {j : Json}
    (hd : Document.ofText? content = some d) (hj : Json.parse? content = some j)
    (hlist : ∀ items, j ≠ .arr items) (hempty : isEmptyDocument j = true) :
    d.blocks = [] ∧ holdsAnything (Keyed.get? "variables" d.extra) = false := by
  obtain ⟨w, hw, hj⟩ := Option.bind_eq_some_iff.1 hj
  unfold Document.ofText? at hd
  rw [hw] at hd
  cases w with
  | obj members =>
    simp only [Option.bind_eq_bind, Option.bind_some, Option.bind_eq_some_iff] at hd
    obtain ⟨named, hnamed, found, hfound, target, rfl, hd⟩ := hd
    obtain rfl := Document.namedMembers?_eq_some hnamed
    obtain ⟨js, hjs, rfl⟩ := Written.toJson?_obj_eq_some hj
    obtain ⟨jt, hget, hjt⟩ := Option.map_eq_some_iff.1 (Document.get?_of_single hjs hfound).symm
    have htarget : isEmptyTarget jt = true := by
      have hmember : (Json.object js).get? "target" = some jt := hget
      unfold isEmptyDocument at hempty
      rw [hmember] at hempty
      exact hempty
    exact Document.targetOfWritten?_of_isEmptyTarget hd hjt.symm htarget
  | arr items =>
    unfold Written.toJson? at hj
    obtain ⟨js, hjs, rfl⟩ := Option.map_eq_some_iff.1 hj
    exact absurd rfl (hlist js)
  | _ => cases hd

theorem Document.ofText?_of_isAllBlank {content : String} (h : isAllBlank content = true) :
    Document.ofText? content = none := by
  rw [Document.ofText?, Written.read?_of_isAllBlank h]
  rfl

/-- What makes a content empty that the other reader takes. -/
theorem isEmptyDocument_of_isEmptyContent {content : String} {d : Document}
    (hd : Document.ofText? content = some d) (hempty : isEmptyContent content = .ok true) :
    ∃ j, Json.parse? content = some j ∧ isEmptyDocument j = true := by
  unfold isEmptyContent at hempty
  split at hempty
  · next hblank =>
    rw [Document.ofText?_of_isAllBlank hblank] at hd
    cases hd
  · split at hempty
    · next j hj => exact ⟨j, hj, Except.ok.inj hempty⟩
    · cases hempty

/-- An empty content that is no list has no blocks and declares no variables. -/
theorem Graph.parse_of_isEmptyContent {content : String} {g : Graph}
    (hlist : ∀ items, Json.parse? content ≠ some (.arr items))
    (hempty : isEmptyContent content = .ok true) (hg : Graph.parse content = .ok g) :
    g.blocks = [] ∧ g.declaredVariables = [] := by
  unfold Graph.parse Document.ofText at hg
  cases hd : Document.ofText? content with
  | none =>
    rw [hd] at hg
    cases hg
  | some d =>
    obtain ⟨j, hj, hdocument⟩ := isEmptyDocument_of_isEmptyContent hd hempty
    obtain ⟨hblocks, hvariables⟩ := Document.ofText?_of_isEmptyDocument hd hj
      (fun items h => hlist items (h ▸ hj)) hdocument
    rw [hd] at hg
    have hg : (.ok ⟨[], d.extra⟩ : Except EngineError Graph) = .ok g :=
      (Document.graph_of_no_blocks hblocks).symm.trans hg
    obtain rfl := Except.ok.inj hg
    exact ⟨rfl, Graph.declaredVariables_of_holdsAnything hvariables⟩

/-- A content that is a list is empty whatever its items hold. -/
theorem isEmptyContent_of_list {content : String} {items : List Json}
    (h : Json.parse? content = some (.arr items)) : isEmptyContent content = .ok true := by
  unfold isEmptyContent
  split
  · rfl
  · rw [h]
    rfl

/-- A list of one target is the document of that target, so its blocks count as nothing. -/
theorem blocks_in_list_count_as_empty :
    ∃ content g, isEmptyContent content = .ok true ∧ Graph.parse content = .ok g ∧
      g.ids = ["a"] := by
  let content := "[\x7b\"blocks\":\x7b\"a\":\x7b\"opcode\":\"x_y\",\"topLevel\":true\x7d\x7d\x7d]"
  have hempty : (isEmptyContent content).toOption = some true := by decide +kernel
  have hids : (Graph.parse content).toOption.map Graph.ids = some ["a"] := by decide +kernel
  cases hc : isEmptyContent content with
  | error _ => rw [hc] at hempty; cases hempty
  | ok empty =>
    rw [hc] at hempty
    cases hg : Graph.parse content with
    | error _ => rw [hg] at hids; cases hids
    | ok g =>
      rw [hg] at hids
      exact ⟨content, g, hc.trans (congrArg _ (Option.some.inj hempty)), hg, Option.some.inj hids⟩

end BlockEngine
