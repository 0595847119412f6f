import BlockEngine.Proofs.Supervision

/-!
# Handing generations over

* `setStage` : the stages after one thread has moved on; `Stage.Fits` : a thread acts for the
  generation of its task, or for the one it starts;
* `Supervised.takeOut`, `.destroy`, `.awaited`, `.bury` : what the caller that has the turn does with
  generations it ends; `.pass`, `.drop` : the turn goes on.
-/

namespace BlockEngine

variable {e : Engine} {t u : TaskId} {lapsed : Prop} {lost : Nat → Prop} {φ φ' : TaskId → Stage}
  {γ γ' : Stage} {σ σ' : Stance} {v v' : View} {hd hd' : Hand}

/-! ## Stages -/

/-- The stages after one of them has changed. -/
def setStage (φ : TaskId → Stage) (t : TaskId) (γ : Stage) : TaskId → Stage :=
  fun u => if u = t then γ else φ u

@[simp] theorem setStage_same (φ : TaskId → Stage) (t : TaskId) (γ : Stage) :
    setStage φ t γ t = γ := if_pos rfl

theorem setStage_of_ne (h : u ≠ t) (γ : Stage) : setStage φ t γ u = φ u := if_neg h

theorem setStage_self (φ : TaskId → Stage) (t : TaskId) : setStage φ t (φ t) = φ := by
  funext u
  unfold setStage
  split
  · next h => rw [h]
  · rfl

theorem Owes.set {id : String} (h : Owes φ id) (hγ : id ∈ (φ t).owed → id ∈ γ.owed) :
    Owes (setStage φ t γ) id := by
  obtain ⟨u, hu⟩ := h
  by_cases hut : u = t
  · subst hut
    exact ⟨u, by rw [setStage_same]; exact hγ hu⟩
  · exact ⟨u, by rw [setStage_of_ne hut]; exact hu⟩

theorem Owes.set_of_eq {id : String} (h : Owes φ id) (hγ : γ.owed = (φ t).owed) :
    Owes (setStage φ t γ) id :=
  h.set fun hid => hγ ▸ hid

/-- What a thread acts for: its task's generation, or the one it starts. -/
def Stage.Fits (γ : Stage) : Option Job → Prop
  | some j => γ = .ofHome j.home?
  | none => γ.home = γ.hand.bind (·.fresh)

/-- Nothing is in a free hand. -/
theorem Hand.IsFree.not_has (h : hd.IsFree) (n : Nat) : ¬ hd.Has n := by
  rintro (hn | ⟨ts, hn⟩ | ⟨g, hg, -⟩)
  · rw [h.taken] at hn
    cases hn
  · exact absurd (h.ending.symm.trans hn) (by simp)
  · exact absurd (h.fresh.symm.trans hg) (by simp)

namespace Supervised

/-- One caller at a time has a hand. -/
theorem only (h : Supervised lapsed lost φ v) (ht : (φ t).hand = some hd)
    (hu : (φ u).hand = some hd') : u = t ∧ hd' = hd := by
  have heq := (h.holder t hd ht).symm.trans (h.holder u hd' hu)
  obtain rfl : t = u := Option.some.inj heq
  exact ⟨rfl, Option.some.inj (hu.symm.trans ht)⟩

theorem nobody (h : Supervised lapsed lost φ v) (ht : (φ t).hand = none)
    (hv : v.holder = none ∨ v.holder = some t) (hd : Hand) : (φ u).hand ≠ some hd := by
  intro hu
  have hholder := h.holder u hd hu
  rcases hv with hv | hv
  · exact absurd (hv.symm.trans hholder) (by simp)
  · obtain rfl : t = u := Option.some.inj (hv.symm.trans hholder)
    exact absurd (ht.symm.trans hu) (by simp)

/-- The hands after one thread has moved on are its own. -/
theorem hand_set (h : Supervised lapsed lost φ v) (ht : (φ t).hand = some hd)
    (hu : (setStage φ t γ u).hand = some hd') : u = t ∧ γ.hand = some hd' := by
  by_cases hut : u = t
  · subst hut
    rw [setStage_same] at hu
    exact ⟨rfl, hu⟩
  · rw [setStage_of_ne hut] at hu
    exact absurd (h.only ht hu).1 hut

/-- The threads stand elsewhere, with the same hands. -/
theorem restage (h : Supervised lapsed lost φ v) (hhand : ∀ u, (φ' u).hand = (φ u).hand)
    (howes : ∀ id x, v.tab? id = some x → Owes φ id → Owes φ' id) :
    Supervised lapsed lost φ' v where
  status := h.status
  alive := h.alive
  current id x g hx hg := (h.current id x g hx hg).imp_right (Or.imp_left (howes id x hx))
  holder u hd hu := h.holder u hd (hhand u ▸ hu)
  hands u hd hu := by
    have hs := h.hands u hd (hhand u ▸ hu)
    refine { hs with source := fun id c hc => ?_ }
    obtain ⟨x, hx, hg, hcur⟩ := hs.source id c hc
    exact ⟨x, hx, hg, hcur.imp_right (Or.imp_left (howes id x hx))⟩
  placed n s hs := by
    rcases h.placed n s hs with hrec | ⟨u, hd, hu, hn⟩ | hrest
    · exact .inl hrec
    · exact .inr (.inl ⟨u, hd, (hhand u).trans hu, hn⟩)
    · exact .inr (.inr hrest)
  tracked := h.tracked
  lost := h.lost

/-- The turn goes to somebody, while no hand but the holder's is left. -/
theorem pass (h : Supervised lapsed lost φ v) {holder : Option TaskId}
    (hh : ∀ u hd, (φ u).hand = some hd → holder = some u) :
    Supervised lapsed lost φ { v with holder } where
  status := h.status
  alive := h.alive
  current := h.current
  holder := hh
  hands u hd hu := { h.hands u hd hu with }
  placed n s hs := by
    rcases h.placed n s hs with hrec | hhand | hgone | hlost
    · exact .inl hrec
    · exact .inr (.inl hhand)
    · exact .inr (.inr (.inl { hgone with }))
    · exact .inr (.inr (.inr hlost))
  tracked := h.tracked
  lost := h.lost

/-- A caller has no hand any more. What it held is gone or lost, and what it owed is forgotten only
by a lapse. -/
theorem drop {lapsed' : Prop} {lost' : Nat → Prop} (h : Supervised lapsed lost φ v)
    (hγ : γ.hand = none) (hlapsed : lapsed → lapsed')
    (howed : lapsed' ∨ ∀ id ∈ (φ t).owed, id ∈ γ.owed) (hlost : ∀ n, lost n → lost' n)
    (hnew : ∀ n, lost' n → lost n ∨
      (φ t).hand ≠ none ∧ (∃ s, v.generation? n = some s) ∧ ¬ v.Records n)
    (hheld : ∀ hd n s, (φ t).hand = some hd → hd.Has n → v.generation? n = some s →
      v.Records n ∨ v.Gone n ∨ lost' n) :
    Supervised lapsed' lost' (setStage φ t γ) v := by
  have howes : ∀ id, Owes φ id ∨ lapsed → Owes (setStage φ t γ) id ∨ lapsed' := by
    rintro id (ho | hl)
    · exact howed.symm.imp_left fun hsub => ho.set (hsub id)
    · exact .inr (hlapsed hl)
  have hother : ∀ u hd, (setStage φ t γ u).hand = some hd → u ≠ t ∧ (φ u).hand = some hd := by
    intro u hd hu
    by_cases hut : u = t
    · rw [hut, setStage_same, hγ] at hu
      exact absurd hu (by simp)
    · rw [setStage_of_ne hut] at hu
      exact ⟨hut, hu⟩
  refine ⟨h.status, h.alive, fun id x g hx hg => ?_, fun u hd hu => ?_, fun u hd hu => ?_,
    fun n s hs => ?_, h.tracked, fun n hn => ?_⟩
  · exact (h.current id x g hx hg).imp_right (howes id)
  · exact h.holder u hd (hother u hd hu).2
  · obtain ⟨hut, hu⟩ := hother u hd hu
    have hs := h.hands u hd hu
    refine ⟨hs.taken, hs.apart, hs.ending, fun g hg => ?_, fun id c hc => ?_, hs.shut⟩
    · obtain ⟨hk, hd', hrec, hl, hrest⟩ := hs.fresh g hg
      refine ⟨hk, hd', hrec, fun hn => ?_, hrest⟩
      rcases hnew _ hn with hn | ⟨hhand, -⟩
      · exact hl hn
      · obtain ⟨hd'', ht⟩ := Option.ne_none_iff_exists'.1 hhand
        exact hut (h.only ht hu).1
    · obtain ⟨x, hx, hg, hcur⟩ := hs.source id c hc
      exact ⟨x, hx, hg, hcur.imp_right (howes id)⟩
  · rcases h.placed n s hs with hrec | ⟨u, hd, hu, hhas⟩ | hgone | hl
    · exact .inl hrec
    · by_cases hut : u = t
      · rw [hut] at hu
        exact (hheld hd n s hu hhas hs).imp_right .inr
      · exact .inr (.inl ⟨u, hd, by rw [setStage_of_ne hut]; exact hu, hhas⟩)
    · exact .inr (.inr (.inl hgone))
    · exact .inr (.inr (.inr (hlost n hl)))
  · rcases hnew n hn with hl | ⟨-, hrest⟩
    · exact h.lost n hl
    · exact hrest

/-! ## Taking generations out -/

/-- A hand that is empty is given generations that are taken out of their tabs. -/
theorem takeOut (h : Supervised lapsed lost φ v) {tabs : Keyed TabEntry}
    (ht : (φ t).hand = some hd) (hfree : hd.IsFree) (hγ : γ.hand = some hd')
    (hnew : hd'.ending = none ∧ hd'.fresh = none)
    (hentry : ∀ id x', Keyed.get? id tabs = some x' → v.tab? id = some x' ∨
      x'.generation = none ∧ x'.status.isActive = false)
    (htaken : ∀ n ∈ hd'.taken, ∃ id s, v.Records n ∧ v.generation? n = some s ∧ s.tab = id ∧
      ∀ x', Keyed.get? id tabs = some x' → x'.generation = none ∧ x'.status.isActive = false)
    (hrecords : ∀ id x' g, Keyed.get? id tabs = some x' → x'.generation = some g →
      ∃ s, v.generation? g.number = some s ∧ s.tab = id)
    (hapart : hd'.taken.Pairwise fun n m => ∀ s s', v.generation? n = some s →
      v.generation? m = some s' → s.tab ≠ s'.tab)
    (hplaced : ∀ id x g, v.tab? id = some x → x.generation = some g →
      g.number ∈ hd'.taken ∨ Keyed.get? id tabs = some x)
    (hsource : ∀ id c, hd'.source = some (id, c) → ∃ x, Keyed.get? id tabs = some x ∧
      x.generation = none ∧ x.content = c)
    (hshut : ∀ id, hd'.shut id → ∀ x, Keyed.get? id tabs = some x → x.generation = none)
    (howed : ∀ id x' g, Keyed.get? id tabs = some x' → x'.generation = some g →
      id ∈ (φ t).owed → id ∈ γ.owed) :
    Supervised lapsed lost (setStage φ t γ) { v with tabs } := by
  have hsub : ∀ n, View.Records { v with tabs } n → v.Records n := by
    rintro n ⟨id, x', g, hx', hg, hn⟩
    rcases hentry id x' hx' with hx | ⟨hnone, -⟩
    · exact ⟨id, x', g, hx, hg, hn⟩
    · exact absurd (hnone.symm.trans hg) (by simp)
  have hmine : ∀ u hd₁, (setStage φ t γ u).hand = some hd₁ → u = t ∧ hd₁ = hd' := by
    intro u hd₁ hu
    obtain ⟨hut, hhand⟩ := h.hand_set ht hu
    exact ⟨hut, Option.some.inj (hhand.symm.trans hγ)⟩
  refine ⟨fun id x' hx' => ?_, fun n hn => h.alive n (hsub n hn), fun id x' g hx' hg => ?_,
    fun u hd₁ hu => ?_, fun u hd₁ hu => ?_, fun n s hs => ?_, h.tracked, fun n hn => ?_⟩
  · rcases hentry id x' hx' with hx | ⟨hnone, hst⟩
    · exact h.status id x' hx
    · rw [hnone]
      refine ⟨fun h => absurd h (by simp), fun h => ?_⟩
      rw [h] at hst
      exact absurd hst (by simp [TabStatus.isActive])
  · rcases hentry id x' hx' with hx | ⟨hnone, -⟩
    · refine (h.current id x' g hx hg).imp_right (Or.imp_left fun ho => ho.set ?_)
      exact howed id x' g hx' hg
    · exact absurd (hnone.symm.trans hg) (by simp)
  · obtain ⟨rfl, -⟩ := hmine u hd₁ hu
    exact h.holder u hd ht
  · obtain ⟨rfl, rfl⟩ := hmine u hd₁ hu
    refine ⟨fun n hn => ?_, hapart, fun n ts hn => ?_, fun g hg => ?_, fun id c hc => ?_,
      fun id hid => ⟨hnew.2, hshut id hid⟩⟩
    · obtain ⟨id, s, hrec, hs, htab, hout⟩ := htaken n hn
      have hd₀ := h.alive n hrec
      rw [View.isDestroyed_of_some hs] at hd₀
      refine ⟨s, hs, hd₀, ?_, fun x hx => (hout x (htab ▸ hx)).2⟩
      rintro ⟨id', x', g, hx', hg, rfl⟩
      obtain ⟨s', hs', htab'⟩ := hrecords id' x' g hx' hg
      obtain rfl : s = s' := Option.some.inj (hs.symm.trans hs')
      rw [← htab', htab] at hx'
      exact absurd ((hout x' hx').1.symm.trans hg) (by simp)
    · rw [hnew.1] at hn
      exact absurd hn (by simp)
    · rw [hnew.2] at hg
      exact absurd hg (by simp)
    · obtain ⟨x, hx, hg, hcontent⟩ := hsource id c hc
      exact ⟨x, hx, hg, .inl hcontent⟩
  · rcases h.placed n s hs with ⟨id, x, g, hx, hg, rfl⟩ | ⟨u, hd₁, hu, hhas⟩ | hgone | hl
    · rcases hplaced id x g hx hg with hin | hstay
      · exact .inr (.inl ⟨t, hd', by rw [setStage_same]; exact hγ, .inl hin⟩)
      · exact .inl ⟨id, x, g, hstay, hg, rfl⟩
    · obtain ⟨-, rfl⟩ := h.only ht hu
      exact absurd hhas (hfree.not_has n)
    · exact .inr (.inr (.inl { hgone with }))
    · exact .inr (.inr (.inr hl))
  · obtain ⟨hex, hrec⟩ := h.lost n hn
    exact ⟨hex, fun h => hrec (hsub n h)⟩

theorem mem_numbers {g : Option Generation} {n : Nat} (h : n ∈ Supervisor.numbers g) :
    ∃ x, g = some x ∧ x.number = n := by
  cases g with
  | none => cases h
  | some x => exact ⟨x, rfl, (List.mem_singleton.1 h).symm⟩

/-- A recorded generation is one of the tab it is recorded for. -/
theorem exists_of_recorded (hs : v.Sound e) {id : String} {x : TabEntry} {g : Generation}
    (hx : v.tab? id = some x) (hg : x.generation = some g) :
    ∃ s, v.generation? g.number = some s ∧ s.tab = id := by
  obtain ⟨htab, s, hs, hstab⟩ := hs.recorded id x g hx hg
  exact ⟨s, hs, hstab.trans htab⟩

theorem take (h : Supervised lapsed lost φ v) (hs : v.Sound e) (ht : (φ t).hand = some hd)
    (hfree : hd.IsFree) {id : String} {x : TabEntry} {status : TabStatus}
    (hx : v.tab? id = some x) (hst : status.isActive = false) :
    Supervised lapsed lost (setStage φ t { φ t with
      hand := some ⟨Supervisor.numbers x.generation, none, none, some (id, x.content), (· = id)⟩
      owed := (φ t).owed.filter (· ≠ id) })
      { v with tabs := Keyed.insert id { x with status, generation := none } v.tabs } := by
  refine h.takeOut ht hfree rfl ⟨rfl, rfl⟩ (fun id' x' hx' => ?_) (fun n hn => ?_)
    (fun id' x' g hx' hg => ?_) ?_ (fun id' x' g hx' hg => ?_) (fun id' c hc => ?_)
    (fun id' hid x' hx' => ?_) fun id' x' g hx' hg ho => ?_
  · rw [Keyed.get?_insert] at hx'
    split at hx'
    · rw [← Option.some.inj hx']
      exact .inr ⟨rfl, hst⟩
    · exact .inl hx'
  · obtain ⟨g, hg, rfl⟩ := mem_numbers hn
    obtain ⟨s, hs, htab⟩ := exists_of_recorded hs hx hg
    refine ⟨id, s, ⟨id, x, g, hx, hg, rfl⟩, hs, htab, fun x' hx' => ?_⟩
    rw [Keyed.get?_insert, if_pos rfl] at hx'
    rw [← Option.some.inj hx']
    exact ⟨rfl, hst⟩
  · rw [Keyed.get?_insert] at hx'
    split at hx'
    · rw [← Option.some.inj hx'] at hg
      exact absurd hg (by simp)
    · exact exists_of_recorded hs hx' hg
  · cases x.generation with
    | none => exact List.Pairwise.nil
    | some g => exact List.pairwise_singleton ..
  · by_cases hid : id' = id
    · subst hid
      obtain rfl : x = x' := Option.some.inj (hx.symm.trans hx')
      rw [hg]
      exact .inl (List.mem_singleton_self _)
    · refine .inr ?_
      rw [Keyed.get?_insert, if_neg hid]
      exact hx'
  · obtain ⟨rfl, rfl⟩ := Prod.mk.inj (Option.some.inj hc)
    refine ⟨{ x with status, generation := none }, ?_, rfl, rfl⟩
    rw [Keyed.get?_insert, if_pos rfl]
  · rw [Keyed.get?_insert, if_pos hid] at hx'
    rw [← Option.some.inj hx']
  · rw [Keyed.get?_insert] at hx'
    split at hx'
    · rw [← Option.some.inj hx'] at hg
      exact absurd hg (by simp)
    · next hid => exact List.mem_filter.2 ⟨ho, by simpa using hid⟩

theorem withdraw (h : Supervised lapsed lost φ v) (hs : v.Sound e) (ht : (φ t).hand = some hd)
    (hfree : hd.IsFree) {id : String} {x : TabEntry} (hx : v.tab? id = some x) :
    Supervised lapsed lost (setStage φ t { φ t with
      hand := some ⟨Supervisor.numbers x.generation, none, none, none, (· = id)⟩ })
      { v with tabs := Keyed.erase id v.tabs } := by
  have hget : ∀ {id' x'}, Keyed.get? id' (Keyed.erase id v.tabs) = some x' →
      id' ≠ id ∧ v.tab? id' = some x' := by
    intro id' x' hx'
    rw [Keyed.get?_erase] at hx'
    split at hx'
    · cases hx'
    · next hid => exact ⟨hid, hx'⟩
  refine h.takeOut ht hfree rfl ⟨rfl, rfl⟩ (fun id' x' hx' => .inl (hget hx').2) (fun n hn => ?_)
    (fun id' x' g hx' hg => exists_of_recorded hs (hget hx').2 hg) ?_
    (fun id' x' g hx' hg => ?_) (fun id' c hc => absurd hc (by simp))
    (fun id' hid x' hx' => absurd hid (hget hx').1) fun _ _ _ _ _ h => h
  · obtain ⟨g, hg, rfl⟩ := mem_numbers hn
    obtain ⟨s, hs, htab⟩ := exists_of_recorded hs hx hg
    exact ⟨id, s, ⟨id, x, g, hx, hg, rfl⟩, hs, htab, fun x' hx' => absurd rfl (hget hx').1⟩
  · cases x.generation with
    | none => exact List.Pairwise.nil
    | some g => exact List.pairwise_singleton ..
  · by_cases hid : id' = id
    · subst hid
      obtain rfl : x = x' := Option.some.inj (hx.symm.trans hx')
      rw [hg]
      exact .inl (List.mem_singleton_self _)
    · refine .inr ?_
      rw [Keyed.get?_erase, if_neg hid]
      exact hx'

theorem takeAll (h : Supervised lapsed lost φ v) (hs : v.Sound e) (ht : (φ t).hand = some hd)
    (hfree : hd.IsFree) :
    Supervised lapsed lost (setStage φ t { φ t with
      hand := some ⟨v.tabs.flatMap fun p => Supervisor.numbers p.2.generation, none, none, none,
        fun _ => True⟩ })
      { v with tabs := List.map (fun p =>
          (p.1, { p.2 with status := .stopped none, generation := none })) v.tabs } := by
  let f : TabEntry → TabEntry := fun x => { x with status := .stopped none, generation := none }
  have hget : ∀ {id' x'}, Keyed.get? id' (List.map (fun p => (p.1, f p.2)) v.tabs) = some x' →
      x'.generation = none ∧ x'.status.isActive = false := by
    intro id' x' hx'
    rw [Keyed.get?_map] at hx'
    obtain ⟨x, -, rfl⟩ := Option.map_eq_some_iff.1 hx'
    exact ⟨rfl, rfl⟩
  refine h.takeOut ht hfree rfl ⟨rfl, rfl⟩ (fun id' x' hx' => .inr (hget hx')) (fun n hn => ?_)
    (fun id' x' g hx' hg => absurd ((hget hx').1.symm.trans hg) (by simp)) ?_
    (fun id x g hx hg => ?_) (fun id' c hc => absurd hc (by simp))
    (fun id' _ x' hx' => (hget hx').1) fun _ _ _ _ _ h => h
  · obtain ⟨⟨id, x⟩, hp, hn⟩ := List.mem_flatMap.1 hn
    obtain ⟨g, hg, rfl⟩ := mem_numbers hn
    have hx : v.tab? id = some x := hs.ordered.get?_of_mem hp
    obtain ⟨s, hs, htab⟩ := exists_of_recorded hs hx hg
    exact ⟨id, s, ⟨id, x, g, hx, hg, rfl⟩, hs, htab, fun x' hx' => hget hx'⟩
  · refine List.pairwise_flatMap.2 ⟨fun p hp => ?_, hs.ordered.imp_of_mem fun {p q} hp hq hlt => ?_⟩
    · cases p.2.generation with
      | none => exact List.Pairwise.nil
      | some g => exact List.pairwise_singleton ..
    · intro n hn m hm s s' hgn hgm
      obtain ⟨g, hg, rfl⟩ := mem_numbers hn
      obtain ⟨g', hg', rfl⟩ := mem_numbers hm
      obtain ⟨s₁, hs₁, htab⟩ := exists_of_recorded hs (hs.ordered.get?_of_mem hp) hg
      obtain ⟨s₂, hs₂, htab'⟩ := exists_of_recorded hs (hs.ordered.get?_of_mem hq) hg'
      obtain rfl : s = s₁ := Option.some.inj (hgn.symm.trans hs₁)
      obtain rfl : s' = s₂ := Option.some.inj (hgm.symm.trans hs₂)
      rw [htab, htab']
      exact fun h => String.lt_irrefl _ (h ▸ hlt)
  · refine .inl (List.mem_flatMap.2 ⟨(id, x), Keyed.mem_of_get? hx, ?_⟩)
    rw [hg]
    exact List.mem_singleton_self _

/-! ## Ending generations -/

/-- The hand changes and nothing else. -/
theorem rehand (h : Supervised lapsed lost φ v) (ht : (φ t).hand = some hd)
    (hγ : γ.hand = some hd') (howed : γ.owed = (φ t).owed)
    (hsound : hd'.Sound lapsed lost φ v)
    (hheld : ∀ n s, v.generation? n = some s → hd.Has n →
      v.Records n ∨ hd'.Has n ∨ v.Gone n) :
    Supervised lapsed lost (setStage φ t γ) v := by
  have howes : ∀ id, Owes φ id → Owes (setStage φ t γ) id := fun id ho => ho.set_of_eq howed
  refine ⟨h.status, h.alive, fun id x g hx hg => ?_, fun u hd₁ hu => ?_, fun u hd₁ hu => ?_,
    fun n s hs => ?_, h.tracked, h.lost⟩
  · exact (h.current id x g hx hg).imp_right (Or.imp_left (howes id))
  · obtain ⟨rfl, -⟩ := h.hand_set ht hu
    exact h.holder u hd ht
  · obtain ⟨rfl, hhand⟩ := h.hand_set ht hu
    obtain rfl : hd₁ = hd' := Option.some.inj (hhand.symm.trans hγ)
    refine ⟨hsound.taken, hsound.apart, hsound.ending, hsound.fresh, fun id c hc => ?_,
      hsound.shut⟩
    obtain ⟨x, hx, hg, hcur⟩ := hsound.source id c hc
    exact ⟨x, hx, hg, hcur.imp_right (Or.imp_left (howes id))⟩
  · rcases h.placed n s hs with hrec | ⟨u, hd₁, hu, hhas⟩ | hrest
    · exact .inl hrec
    · obtain ⟨rfl, rfl⟩ := h.only ht hu
      rcases hheld n s hs hhas with hrec | hhas' | hgone
      · exact .inl hrec
      · exact .inr (.inl ⟨u, hd', by rw [setStage_same]; exact hγ, hhas'⟩)
      · exact .inr (.inr (.inl hgone))
    · exact .inr (.inr hrest)

/-- A task that was awaited has ended. -/
theorem awaited (h : Supervised lapsed lost φ v) (ht : (φ t).hand = some hd) {n : Nat}
    {ts : List TaskId} (hn : hd.ending = some (n, u :: ts)) (hu : v.isEnded u = true) :
    Supervised lapsed lost (setStage φ t { φ t with
      hand := some { hd with ending := some (n, ts) } }) v := by
  have hs := h.hands t hd ht
  refine h.rehand ht rfl rfl ⟨hs.taken, hs.apart, fun n' ts' hn' => ?_, fun g hg => ?_, hs.source,
    hs.shut⟩ fun n' s _ hhas => .inr (.inl ?_)
  · obtain ⟨rfl, rfl⟩ := Prod.mk.inj (Option.some.inj hn')
    obtain ⟨s, hs, hd, hlive, htab⟩ := hs.ending n (u :: ts) hn
    refine ⟨s, hs, hd, fun t x j hx hj ho hend => ?_, htab⟩
    rcases List.mem_cons.1 (hlive t x j hx hj ho hend) with rfl | hmem
    · rw [View.isEnded, hx] at hu
      exact absurd (hend.symm.trans hu) (by simp)
    · exact hmem
  · obtain ⟨-, -, -, -, -, hnone, -⟩ := hs.fresh g hg
    exact absurd (hnone.symm.trans hn) (by simp)
  · rcases hhas with hin | ⟨ts', hts'⟩ | hfresh
    · exact .inl hin
    · obtain ⟨rfl, -⟩ := Prod.mk.inj (Option.some.inj (hn.symm.trans hts'))
      exact .inr (.inl ⟨ts, rfl⟩)
    · exact .inr (.inr hfresh)

end Supervised

/-- A reaction that acts for a generation is on a lock of its tab. -/
theorem Reaction.Coherent.tab_of_home {env : Environment} {l : LockId} {r : Reaction}
    {g : Generation} (h : r.Coherent env v l) (hg : r.home? = some g) :
    v.Known g ∧ ∃ x, v.locks.lock? l = some x ∧ x.tab = g.tab := by
  cases r with
  | start s | keepAndStart s | keepAndStartIf s =>
    obtain rfl := Option.some.inj hg
    obtain ⟨hk, x, hx, htab, -⟩ := h
    exact ⟨hk, x, hx, htab⟩
  | keepAndRun s =>
    obtain rfl := Option.some.inj hg
    obtain ⟨hk, ⟨x, hx, htab, -⟩, -⟩ := h
    exact ⟨hk, x, hx, htab⟩
  | runBody s =>
    obtain rfl := Option.some.inj hg
    obtain ⟨signature, m, -, -, hk, x, y, hx, -, htab, -⟩ := h
    exact ⟨hk, x, hx, htab⟩
  | link | host => cases hg

namespace Supervised

/-- The generation whose tasks have ended is gone, once the locks of its tab are released. -/
theorem bury (h : Supervised lapsed lost φ v) (hv : v.Sound e) (ht : (φ t).hand = some hd)
    {n : Nat} {s : GenerationState} (hn : hd.ending = some (n, []))
    (hs : v.generation? n = some s) :
    Supervised lapsed lost (setStage φ t { φ t with hand := some { hd with ending := none } })
      { v with locks := (v.locks.release s.tab).2 } := by
  have hframe : v.Frames { v with locks := (v.locks.release s.tab).2 } :=
    .of_sheds (.release hv.locks _) (.release hv.locks _)
  have h' := h.frame hframe
  have hsound := h'.hands t hd ht
  refine h'.rehand ht rfl rfl ⟨hsound.taken, hsound.apart, fun n' ts' hn' => absurd hn' (by simp),
    fun g hg => ?_, hsound.source, hsound.shut⟩ fun n' s' hs' hhas => ?_
  · obtain ⟨-, -, -, -, -, hnone, -⟩ := hsound.fresh g hg
    exact absurd (hnone.symm.trans hn) (by simp)
  · rcases hhas with hin | ⟨ts', hts'⟩ | hfresh
    · exact .inr (.inl (.inl hin))
    · obtain ⟨rfl, -⟩ := Prod.mk.inj (Option.some.inj (hn.symm.trans hts'))
      obtain ⟨s₀, hs₀, hd₀, hlive, -⟩ := hsound.ending n [] hn
      obtain rfl : s = s₀ := Option.some.inj (hs.symm.trans hs₀)
      refine .inr (.inr ⟨(View.isDestroyed_of_some hs₀).trans hd₀, fun t x j hx hj ho => ?_,
        fun l x' hx' hr sub hsub g hg hgn => ?_⟩)
      · cases hend : x.ended with
        | true => rfl
        | false => exact absurd (hlive t x j hx hj ho hend) (by simp)
      · obtain ⟨x, hx⟩ := LockTable.lock?_of_release hx'
        obtain rfl := Option.some.inj ((hv.locks.lock?_release hx s.tab).symm.trans hx')
        split at hr
        · exact absurd hr (by simp [Lock.ended])
        · next htab =>
          rw [if_neg htab] at hsub
          obtain ⟨⟨s₁, hs₁, hstab⟩, x₁, hx₁, hxtab⟩ :=
            (hv.subscribed l x hx sub hsub).2.tab_of_home hg
          rw [hgn, hs] at hs₁
          obtain rfl := Option.some.inj hs₁
          obtain rfl : x = x₁ := Option.some.inj (hx.symm.trans hx₁)
          exact htab (hxtab.trans hstab.symm)
    · exact .inr (.inl (.inr (.inr hfresh)))

end Supervised

namespace View

/-- Cancelling tasks leaves everything but that they are cancelled. -/
theorem cancelAll_spec (v : View) (ts : List TaskId) :
    (ts.foldl cancel v).generations = v.generations ∧ (ts.foldl cancel v).tabs = v.tabs ∧
      (ts.foldl cancel v).holder = v.holder ∧ (ts.foldl cancel v).locks = v.locks ∧
      ∀ t s', (ts.foldl cancel v).tasks t = some s' →
        ∃ s, v.tasks t = some s ∧ s'.job = s.job ∧ s'.ended = s.ended := by
  induction ts generalizing v with
  | nil => exact ⟨rfl, rfl, rfl, rfl, fun _ s hs => ⟨s, hs, rfl, rfl⟩⟩
  | cons t ts ih =>
    obtain ⟨hgen, htabs, hholder, hlocks, htasks⟩ := ih (v.cancel t)
    refine ⟨hgen, htabs, hholder, hlocks, fun u s' hs' => ?_⟩
    obtain ⟨s, hs, hj, hend⟩ := htasks u s' hs'
    unfold cancel at hs
    rw [tasks_modifyTask] at hs
    split at hs
    · next hu =>
      subst hu
      obtain ⟨s₀, hs₀, rfl⟩ := Option.map_eq_some_iff.1 hs
      exact ⟨s₀, hs₀, hj, hend⟩
    · exact ⟨s, hs, hj, hend⟩

section
variable (v : View) (n : Nat)

theorem generation?_destroy (k : Nat) :
    (v.destroy n).generation? k =
      if k = n then (v.generation? n).map fun s => { s with tracked := [], destroyed := true }
      else v.generation? k :=
  generation?_modifyGeneration v n k _

theorem of_generation?_destroy {k : Nat} {s' : GenerationState}
    (h : (v.destroy n).generation? k = some s') :
    ∃ s, v.generation? k = some s ∧ s'.tab = s.tab ∧ (k ≠ n → s' = s) ∧
      (k = n → s'.destroyed = true) := by
  rw [generation?_destroy] at h
  split at h
  · next hk =>
    subst hk
    obtain ⟨s, hs, rfl⟩ := Option.map_eq_some_iff.1 h
    exact ⟨s, hs, rfl, fun hne => absurd rfl hne, fun _ => rfl⟩
  · next hk => exact ⟨s', h, rfl, fun _ => rfl, fun heq => absurd heq hk⟩

theorem generation?_destroy_of_some {k : Nat} {s : GenerationState}
    (h : v.generation? k = some s) : ∃ s', (v.destroy n).generation? k = some s' := by
  rw [generation?_destroy]
  split
  · next hk =>
    subst hk
    exact ⟨_, by rw [h]; rfl⟩
  · exact ⟨s, h⟩

theorem tab?_destroy (id : String) : (v.destroy n).tab? id = v.tab? id := by
  unfold destroy tab?
  rw [tabs_modifyGeneration]

theorem holder_destroy : (v.destroy n).holder = v.holder := holder_modifyGeneration ..

theorem locks_destroy : (v.destroy n).locks = v.locks := locks_modifyGeneration ..

theorem tasks_destroy : (v.destroy n).tasks = v.tasks := tasks_modifyGeneration ..

theorem records_destroy {k : Nat} : (v.destroy n).Records k ↔ v.Records k := by
  unfold Records
  simp only [tab?_destroy]

theorem isDestroyed_destroy : (v.destroy n).isDestroyed n = true := by
  unfold isDestroyed
  rw [generation?_destroy, if_pos rfl]
  cases v.generation? n <;> rfl

theorem isDestroyed_destroy_of_ne {k : Nat} (h : k ≠ n) :
    (v.destroy n).isDestroyed k = v.isDestroyed k := by
  unfold isDestroyed
  rw [generation?_destroy, if_neg h]

end

theorem Gone.destroy {k : Nat} (h : v.Gone k) (n : Nat) : (v.destroy n).Gone k where
  destroyed := by
    by_cases hk : k = n
    · subst hk
      exact isDestroyed_destroy v k
    · rw [isDestroyed_destroy_of_ne v n hk]
      exact h.destroyed
  quiet t s' j hs' hj ho := by
    rw [tasks_destroy] at hs'
    exact h.quiet t s' j hs' hj ho
  deaf := by
    rw [locks_destroy]
    exact h.deaf

end View

namespace Supervised

/-- The first generation taken is destroyed; the tasks it has are awaited from now on. -/
theorem destroy (h : Supervised lapsed lost φ v) (ht : (φ t).hand = some hd) {n : Nat}
    {rest : List Nat} (hn : hd.taken = n :: rest) (hnone : hd.ending = none) :
    Supervised lapsed lost (setStage φ t { φ t with
      hand := some { hd with
        taken := rest
        ending := some (n, (((v.generation? n).map (·.tracked)).getD []).map (·.task)) } })
      (v.destroy n) := by
  have hs := h.hands t hd ht
  obtain ⟨s, hgen, hnd, hrec, htab⟩ := hs.taken n (hn ▸ List.mem_cons_self)
  have hapart := List.pairwise_cons.1 (hn ▸ hs.apart)
  refine ⟨fun id x hx => h.status id x ?_, fun k hk => ?_, fun id x g hx hg => ?_,
    fun u hd₁ hu => ?_, fun u hd₁ hu => ?_, fun k s' hs' => ?_, fun u x j hx hj => ?_,
    fun k hk => ?_⟩
  · rw [← View.tab?_destroy v n]
    exact hx
  · rw [View.records_destroy] at hk
    rw [View.isDestroyed_destroy_of_ne v n fun hkn => hrec (hkn ▸ hk)]
    exact h.alive k hk
  · rw [View.tab?_destroy] at hx
    exact (h.current id x g hx hg).imp_right (Or.imp_left fun ho => ho.set_of_eq rfl)
  · obtain ⟨rfl, -⟩ := h.hand_set ht hu
    rw [View.holder_destroy]
    exact h.holder u hd ht
  · obtain ⟨rfl, hhand⟩ := h.hand_set ht hu
    obtain rfl := Option.some.inj hhand
    refine ⟨fun m hm => ?_, hapart.2.imp fun hap s₁ s₂ h₁ h₂ => ?_, fun m ts hm => ?_,
      fun g hg => ?_, fun id c hc => ?_,
      fun id hid => ⟨(hs.shut id hid).1, fun x hx => (hs.shut id hid).2 x ?_⟩⟩
    · obtain ⟨s', hs', hd', hrec', htab'⟩ := hs.taken m (hn ▸ List.mem_cons_of_mem _ hm)
      have hmn : m ≠ n := fun hmn => by
        subst hmn
        exact hapart.1 m hm s' s' hs' hs' rfl
      refine ⟨s', ?_, hd', fun hr => hrec' ((View.records_destroy v n).1 hr), fun x hx => htab' x ?_⟩
      · rw [View.generation?_destroy, if_neg hmn]
        exact hs'
      · rw [← View.tab?_destroy v n]
        exact hx
    · obtain ⟨s₁', h₁', ht₁, -⟩ := View.of_generation?_destroy v n h₁
      obtain ⟨s₂', h₂', ht₂, -⟩ := View.of_generation?_destroy v n h₂
      rw [ht₁, ht₂]
      exact hap s₁' s₂' h₁' h₂'
    · obtain ⟨rfl, rfl⟩ := Prod.mk.inj (Option.some.inj hm)
      obtain ⟨s', hs'⟩ := View.generation?_destroy_of_some v n hgen
      obtain ⟨s₀, hs₀, htab₀, -, hd₀⟩ := View.of_generation?_destroy v n hs'
      obtain rfl : s = s₀ := Option.some.inj (hgen.symm.trans hs₀)
      refine ⟨s', hs', hd₀ rfl, fun u x j hx hj ho hend => ?_, fun x hx => htab x ?_⟩
      · rw [View.tasks_destroy] at hx
        obtain ⟨s₁, hs₁, hlive⟩ := h.tracked u x j hx hj
        rw [ho, hgen] at hs₁
        obtain rfl := Option.some.inj hs₁
        obtain ⟨y, hy, hyu⟩ := hlive hend hnd
        rw [hgen]
        exact List.mem_map.2 ⟨y, hy, hyu⟩
      · rw [← htab₀, ← View.tab?_destroy v n]
        exact hx
    · obtain ⟨-, -, -, -, hempty, -⟩ := hs.fresh g hg
      exact absurd (hempty.symm.trans hn) (by simp)
    · obtain ⟨x, hx, hg, hcur⟩ := hs.source id c hc
      exact ⟨x, (View.tab?_destroy v n id).trans hx, hg,
        hcur.imp_right (Or.imp_left fun ho => ho.set_of_eq rfl)⟩
    · exact (View.tab?_destroy v n id).symm.trans hx
  · obtain ⟨s₀, hs₀, -⟩ := View.of_generation?_destroy v n hs'
    rcases h.placed k s₀ hs₀ with hrec' | ⟨u, hd₁, hu, hhas⟩ | hgone | hl
    · exact .inl ((View.records_destroy v n).2 hrec')
    · obtain ⟨rfl, rfl⟩ := h.only ht hu
      refine .inr (.inl ⟨u, _, congrArg Stage.hand (setStage_same ..), ?_⟩)
      rcases hhas with hin | ⟨ts, hts⟩ | ⟨g, hg, -⟩
      · rw [hn] at hin
        rcases List.mem_cons.1 hin with rfl | hin
        · exact .inr (.inl ⟨_, rfl⟩)
        · exact .inl hin
      · exact absurd (hnone.symm.trans hts) (by simp)
      · obtain ⟨-, -, -, -, hempty, -⟩ := hs.fresh g hg
        exact absurd (hempty.symm.trans hn) (by simp)
    · exact .inr (.inr (.inl (hgone.destroy n)))
    · exact .inr (.inr (.inr hl))
  · rw [View.tasks_destroy] at hx
    obtain ⟨s₀, hs₀, hlive⟩ := h.tracked u x j hx hj
    obtain ⟨s', hs'⟩ := View.generation?_destroy_of_some v n hs₀
    obtain ⟨s₁, hs₁, -, hsame, hdest⟩ := View.of_generation?_destroy v n hs'
    obtain rfl : s₀ = s₁ := Option.some.inj (hs₀.symm.trans hs₁)
    refine ⟨s', hs', fun he hd' => ?_⟩
    by_cases ho : j.owner = n
    · exact absurd ((hdest ho).symm.trans hd') (by simp)
    · rw [hsame ho] at hd' ⊢
      exact hlive he hd'
  · obtain ⟨⟨s₀, hs₀⟩, hr⟩ := h.lost k hk
    exact ⟨View.generation?_destroy_of_some v n hs₀, fun hr' => hr ((View.records_destroy v n).1 hr')⟩

end Supervised
end BlockEngine
