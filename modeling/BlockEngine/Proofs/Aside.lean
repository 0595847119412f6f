import BlockEngine.Proofs.Teardown

/-!
# What concerns other tabs

While generations of other tabs end and start, nothing comes to a tab and its record stays. The same
is true of all that tasks do.

* `View.NothingNew`, `View.Aside` : nothing comes to a tab; its record stays as well;
  `View.Sole.aside`, `View.Bare.aside` : what such steps do not change;
* one lemma for each operation: `View.Aside.tabs`, `.modifyTab`, `.modifyGeneration`, `.cancel`,
  `.spawn`, `.newGeneration`; `.of_calm` for what leaves the generations as they are.
-/

namespace BlockEngine

variable {id tab : String} {n : Nat} {recorded : Option Generation} {v v' v'' : View}

/-! ## Nothing comes to a tab -/

namespace View

/-- Nothing comes to a tab: no generation, no task but to a generation that takes some, no lock but
of a generation that has something left. -/
structure NothingNew (id : String) (v v' : View) : Prop where
  generation : ∀ n s', v'.generation? n = some s' → s'.tab = id →
    ∃ s, v.generation? n = some s ∧ s.tab = id
  task : ∀ t x j s', v'.tasks t = some x → x.job = some j → v'.generation? j.owner = some s' →
    s'.tab = id → (∃ y, v.tasks t = some y ∧ y.job = some j) ∨ v.isDestroyed j.owner = false
  lock : ∀ l x', v'.locks.lock? l = some x' → x'.tab = id →
    (∃ x, v.locks.lock? l = some x) ∨ ∃ n s, v.generation? n = some s ∧ s.tab = id ∧ ¬ v.Spent n

/-- Nothing comes to a tab. The generation that it records and those that take tasks are the
same. -/
structure Aside (id : String) (v v' : View) : Prop extends NothingNew id v v' where
  recorded : (v'.tab? id).bind (·.generation) = (v.tab? id).bind (·.generation)
  destroyed : ∀ n s', v'.generation? n = some s' → s'.tab = id →
    v'.isDestroyed n = v.isDestroyed n

theorem isDestroyed_mono (hle : v ≤ v') {s : GenerationState} (hs : v.generation? n = some s)
    (h : v'.isDestroyed n = false) : v.isDestroyed n = false := by
  obtain ⟨s', hs', -, hd⟩ := hle.generation n s hs
  rw [isDestroyed_of_some hs'] at h
  rw [isDestroyed_of_some hs]
  cases hsd : s.destroyed with
  | false => rfl
  | true => exact absurd ((hd hsd).symm.trans h) nofun

/-- What is spent stays so. -/
theorem Spent.nothingNew (h : v.Spent n) (hnew : v.NothingNew id v') (hle : v ≤ v')
    {s : GenerationState} (hs : v.generation? n = some s) (htab : s.tab = id) : v'.Spent n where
  destroyed := by
    obtain ⟨s', hs', -, hd⟩ := hle.generation n s hs
    rw [isDestroyed_of_some hs']
    exact hd ((isDestroyed_of_some hs).symm.trans h.destroyed)
  quiet t x' j hx' hj ho := by
    subst ho
    obtain ⟨s', hs', htab', -⟩ := hle.generation j.owner s hs
    rcases hnew.task t x' j s' hx' hj hs' (htab'.trans htab) with ⟨x, hx, hjob⟩ | hlive
    · obtain ⟨y, hy, -, -, hend⟩ := hle.task t x hx
      obtain rfl : x' = y := Option.some.inj (hx'.symm.trans hy)
      exact hend (h.quiet t x j hx hjob rfl)
    · exact absurd (h.destroyed.symm.trans hlive) nofun

namespace NothingNew

theorem trans (h : v.NothingNew id v') (hle : v ≤ v') (hle' : v' ≤ v'')
    (h' : v'.NothingNew id v'') : v.NothingNew id v'' where
  generation n s'' hs'' htab := by
    obtain ⟨s', hs', htab'⟩ := h'.generation n s'' hs'' htab
    exact h.generation n s' hs' htab'
  task t x j s'' hx hj hs'' htab := by
    obtain ⟨s', hs', htab'⟩ := h'.generation j.owner s'' hs'' htab
    rcases h'.task t x j s'' hx hj hs'' htab with ⟨y, hy, hjob⟩ | hlive
    · exact h.task t y j s' hy hjob hs' htab'
    · obtain ⟨s, hs, -⟩ := h.generation j.owner s' hs' htab'
      exact .inr (isDestroyed_mono hle hs hlive)
  lock l x'' hx'' htab := by
    rcases h'.lock l x'' hx'' htab with ⟨x', hx'⟩ | ⟨n, s', hs', htab', hspent⟩
    · obtain ⟨y, hy, hytab, -⟩ := hle'.locks.lock l x' hx'
      obtain rfl : x'' = y := Option.some.inj (hx''.symm.trans hy)
      exact h.lock l x' hx' (hytab.symm.trans htab)
    · obtain ⟨s, hs, hstab⟩ := h.generation n s' hs' htab'
      exact .inr ⟨n, s, hs, hstab, fun hn => hspent (hn.nothingNew h hle hs hstab)⟩

/-- Generations are as they were, and who has no lock gets none. -/
theorem of_calm (h : v.Calm v') (hlock : ∀ l x', v'.locks.lock? l = some x' → x'.tab = id →
    (∃ x, v.locks.lock? l = some x) ∨ ∃ n s, v.generation? n = some s ∧ s.tab = id ∧ ¬ v.Spent n) :
    v.NothingNew id v' where
  generation n s' hs' htab := by
    obtain ⟨s, hs, htab', -⟩ := h.generation n s' hs'
    exact ⟨s, hs, htab'.symm.trans htab⟩
  task t x j _ hx hj _ _ := h.task t x j hx hj
  lock := hlock

theorem modifyTab (v : View) (id tab : String) (f : TabEntry → TabEntry) :
    v.NothingNew id (v.modifyTab tab f) := by
  unfold View.modifyTab
  split <;> exact ⟨fun n s hs htab => ⟨s, hs, htab⟩, fun t x j _ hx hj _ _ => .inl ⟨x, hx, hj⟩,
    fun l x hx _ => .inl ⟨x, hx⟩⟩

/-- A generation is changed, but stays one of its tab. -/
theorem modifyGeneration (n : Nat) {f : GenerationState → GenerationState}
    (hf : ∀ s, (f s).tab = s.tab) : v.NothingNew id (v.modifyGeneration n f) where
  generation k s' hs' htab := by
    rw [generation?_modifyGeneration] at hs'
    split at hs'
    · next hk =>
      subst hk
      obtain ⟨s, hs, rfl⟩ := Option.map_eq_some_iff.1 hs'
      exact ⟨s, hs, (hf s).symm.trans htab⟩
    · exact ⟨s', hs', htab⟩
  task t x j _ hx hj _ _ := .inl ⟨x, by rwa [tasks_modifyGeneration] at hx, hj⟩
  lock l x hx _ := .inl ⟨x, by rwa [locks_modifyGeneration] at hx⟩

end NothingNew

namespace Aside

theorem trans (h : v.Aside id v') (hle : v ≤ v') (hle' : v' ≤ v'') (h' : v'.Aside id v'') :
    v.Aside id v'' :=
  { h.toNothingNew.trans hle hle' h'.toNothingNew with
    recorded := h'.recorded.trans h.recorded
    destroyed := fun n s'' hs'' htab => by
      obtain ⟨s', hs', htab'⟩ := h'.generation n s'' hs'' htab
      exact (h'.destroyed n s'' hs'' htab).trans (h.destroyed n s' hs' htab') }

theorem of_calm (h : v.Calm v') (hlock : ∀ l x', v'.locks.lock? l = some x' → x'.tab = id →
    (∃ x, v.locks.lock? l = some x) ∨ ∃ n s, v.generation? n = some s ∧ s.tab = id ∧ ¬ v.Spent n) :
    v.Aside id v' :=
  { NothingNew.of_calm h hlock with
    recorded := h.recorded id
    destroyed := fun n s' hs' _ => by
      obtain ⟨s, hs, -, hd, -⟩ := h.generation n s' hs'
      rw [isDestroyed_of_some hs', isDestroyed_of_some hs, hd] }

/-- What others do while somebody has the turn. -/
theorem of_beside (h : v.Beside v') : v.Aside id v' := of_calm h.toCalm fun l x' hx' htab =>
  (h.lock l x' hx').imp_right fun ⟨n, s, hs, hstab, hspent⟩ => ⟨n, s, hs, hstab.trans htab, hspent⟩

/-! ### Operations -/

/-- Nothing but locks, the numbers drawn and the turn differs, and no lock of the tab is new. -/
theorem of_eq (htabs : v'.tabs = v.tabs) (hgen : v'.generations = v.generations)
    (htasks : v'.tasks = v.tasks)
    (hlock : ∀ l x', v'.locks.lock? l = some x' → x'.tab = id → ∃ x, v.locks.lock? l = some x) :
    v.Aside id v' where
  generation n s' hs' htab := ⟨s', by unfold generation? at *; rwa [← hgen], htab⟩
  task t x j _ hx hj _ _ := .inl ⟨x, htasks ▸ hx, hj⟩
  lock l x' hx' htab := .inl (hlock l x' hx' htab)
  recorded := by unfold tab?; rw [htabs]
  destroyed n _ _ _ := by unfold isDestroyed generation?; rw [hgen]

theorem refl (id : String) (v : View) : v.Aside id v := of_eq rfl rfl rfl fun _ x hx _ => ⟨x, hx⟩

/-- The table of tabs is changed, but not what it records for the tab. -/
theorem tabs {tabs : Keyed TabEntry}
    (h : (Keyed.get? id tabs).bind (·.generation) = (v.tab? id).bind (·.generation)) :
    v.Aside id { v with tabs } :=
  { refl id v with recorded := h }

theorem modifyTab {f : TabEntry → TabEntry}
    (hf : tab = id → ∀ x, v.tab? id = some x → (f x).generation = x.generation) :
    v.Aside id (v.modifyTab tab f) := by
  unfold View.modifyTab
  split
  · next x hx =>
    refine tabs ?_
    rw [Keyed.get?_insert]
    split
    · next htab =>
      subst htab
      rw [hx]
      exact hf rfl x hx
    · rfl
  · exact refl id v

/-- A generation is changed. One of the tab takes tasks as before. -/
theorem modifyGeneration (n : Nat) {f : GenerationState → GenerationState}
    (hf : ∀ s, (f s).tab = s.tab)
    (hd : ∀ s, v.generation? n = some s → s.tab = id → (f s).destroyed = s.destroyed) :
    v.Aside id (v.modifyGeneration n f) :=
  { NothingNew.modifyGeneration n hf with
    recorded := by unfold tab?; rw [tabs_modifyGeneration]
    destroyed := fun k s' hs' htab => by
      have hgeneration := hs'
      rw [generation?_modifyGeneration] at hgeneration
      split at hgeneration
      · next hk =>
        subst hk
        obtain ⟨s, hs, rfl⟩ := Option.map_eq_some_iff.1 hgeneration
        rw [isDestroyed_of_some hs', isDestroyed_of_some hs]
        exact hd s hs ((hf s).symm.trans htab)
      · rw [isDestroyed_of_some hs', isDestroyed_of_some hgeneration] }

theorem cancel (v : View) (u : TaskId) : v.Aside id (v.cancel u) :=
  of_calm (.cancelAll v [u]) fun _ x hx _ => .inl ⟨x, hx⟩

theorem spawn {i : Nat} {d : String} {ctx : Context} {j : Job} :
    v.Aside id ({ v with issued := i }.spawn j.owner d ctx j) := by
  refine of_calm .spawn fun l x hx _ => .inl ⟨x, ?_⟩
  unfold View.spawn at hx
  split at hx
  · exact hx
  · rwa [locks_modifyGeneration] at hx

/-- A generation of another tab is new. -/
theorem newGeneration {i : Nat} (hne : tab ≠ id) : v.Aside id
    { v with issued := i, generations := v.generations.insert v.issued (.new tab) } := by
  have hold : ∀ n s', View.generation?
      { v with issued := i, generations := v.generations.insert v.issued (.new tab) } n = some s' →
      s'.tab = id → n ≠ v.issued ∧ v.generation? n = some s' := by
    intro n s' hs' htab
    rw [generation?, get?_generations_insert] at hs'
    split at hs'
    · exact absurd ((congrArg GenerationState.tab (Option.some.inj hs')).trans htab) hne
    · next hn => exact ⟨hn, hs'⟩
  exact {
    generation := fun n s' hs' htab => ⟨s', (hold n s' hs' htab).2, htab⟩
    task := fun t x j _ hx hj _ _ => .inl ⟨x, hx, hj⟩
    lock := fun l x hx _ => .inl ⟨x, hx⟩
    recorded := rfl
    destroyed := fun n s' hs' htab => by
      rw [isDestroyed_of_some hs', isDestroyed_of_some (hold n s' hs' htab).2] }

end Aside

/-! ### What does not change -/

theorem Holding.aside {rest : Option Generation} (h : Holding id recorded rest v)
    (haside : v.Aside id v') (hle : v ≤ v') : Holding id recorded rest v' where
  records := haside.recorded.trans h.records
  known := h.known.mono hle
  others n s' hs' htab := by
    obtain ⟨s, hs, hstab⟩ := haside.generation n s' hs' htab
    exact (h.others n s hs hstab).imp_right fun hspent =>
      hspent.nothingNew haside.toNothingNew hle hs hstab
  alive g hg := by
    obtain ⟨htab, s, hs, hstab⟩ := h.known g hg
    obtain ⟨s', hs', htab', -⟩ := hle.generation g.number s hs
    exact (haside.destroyed g.number s' hs' (htab'.trans (hstab.trans htab))).trans (h.alive g hg)

/-- What the supervisor records for a tab takes tasks, and nothing else of the tab has anything
left. -/
def Sole (id : String) (v : View) : Prop :=
  v.Holding id ((v.tab? id).bind (·.generation)) ((v.tab? id).bind (·.generation))

theorem Sole.aside (h : Sole id v) (haside : v.Aside id v') (hle : v ≤ v') : Sole id v' := by
  unfold Sole
  rw [haside.recorded]
  exact Holding.aside h haside hle

/-- Nothing is left of the tab, and nothing new comes. -/
theorem Bare.aside (h : Bare id v) (haside : v.Aside id v') (hle : v ≤ v') : Bare id v' where
  records := haside.recorded.trans h.records
  known := nofun
  others n s' hs' htab := by
    obtain ⟨s, hs, hstab⟩ := haside.generation n s' hs' htab
    exact (h.others n s hs hstab).imp_right fun hspent =>
      hspent.nothingNew haside.toNothingNew hle hs hstab
  released l x' hx' htab := by
    rcases haside.lock l x' hx' htab with ⟨x, hx⟩ | ⟨n, s, hs, hstab, hspent⟩
    · obtain ⟨y, hy, hytab, -, hreleased⟩ := hle.locks.lock l x hx
      obtain rfl : x' = y := Option.some.inj (hx'.symm.trans hy)
      exact hreleased (h.released l x hx (hytab.symm.trans htab))
    · rcases h.others n s hs hstab with ⟨g, hg, -⟩ | hn
      · cases hg
      · exact absurd hn hspent

end View

end BlockEngine
