import BlockEngine.Proofs.Moves
import BlockEngine.Proofs.Script

/-!
# One generation of a tab

What callers of the supervisor can rely on, whatever the order in which calls and tasks go on.

* `Supervised.unique` : a tab has one generation that is not destroyed;
* `Outgoing` : a generation that nobody but some threads can have in hand and that is not recorded
  again; every move keeps it that way;
* `TakenOut` : a call took a generation out of its tab and has returned;
* `Run.generations_safe` : statuses, generations and graphs in every state of a run.
-/

namespace BlockEngine

variable {e : Engine} {t u : TaskId} {lapsed : Prop} {lost : Nat → Prop} {φ φ' : TaskId → Stage}
  {ψ ψ' : TaskId → Stance} {γ γ' : Stage} {v v' : View} {n n' : Nat} {log ds : List Deed}
  {m m' : Machine} {hd : Hand}

/-! ## Generations of one tab -/

namespace Supervised

/-- What is in hand is not recorded. -/
theorem not_has_of_records (h : Supervised lapsed lost φ v) (ht : (φ t).hand = some hd)
    (hn : v.Records n) : ¬ hd.Has n := by
  have hands := h.hands t hd ht
  rintro (htaken | ⟨ts, hending⟩ | ⟨g, hfresh, rfl⟩)
  · obtain ⟨s, -, -, hrec, -⟩ := hands.taken n htaken
    exact hrec hn
  · obtain ⟨s, hs, hdestroyed, -⟩ := hands.ending n ts hending
    have halive := h.alive n hn
    rw [View.isDestroyed_of_some hs, hdestroyed] at halive
    exact absurd halive (by simp)
  · exact (hands.fresh g hfresh).2.2.1 hn

/-- As long as a generation is in hand and not destroyed, its tab has none. -/
theorem generation_of_has (h : Supervised lapsed lost φ v) (ht : (φ t).hand = some hd)
    (hn : hd.Has n) {s : GenerationState} (hs : v.generation? n = some s)
    (halive : s.destroyed = false) {x : TabEntry} (hx : v.tab? s.tab = some x) :
    x.generation = none := by
  have hands := h.hands t hd ht
  rcases hn with htaken | ⟨ts, hending⟩ | ⟨g, hfresh, rfl⟩
  · obtain ⟨s', hs', -, -, hstatus⟩ := hands.taken n htaken
    obtain rfl := Option.some.inj (hs.symm.trans hs')
    cases hg : x.generation with
    | none => rfl
    | some g =>
      have hrunning := (h.status s.tab x hx).1 (by rw [hg]; rfl)
      have hinactive := hstatus x hx
      rw [hrunning] at hinactive
      cases hinactive
  · obtain ⟨s', hs', hdestroyed, -⟩ := hands.ending n ts hending
    obtain rfl := Option.some.inj (hs.symm.trans hs')
    exact absurd (halive.symm.trans hdestroyed) (by simp)
  · obtain ⟨⟨s', hs', htab⟩, -, -, -, -, -, c, hsource, -⟩ := hands.fresh g hfresh
    obtain rfl := Option.some.inj (hs.symm.trans hs')
    obtain ⟨x', hx', hnone, -⟩ := hands.source g.tab c hsource
    rw [htab] at hx
    obtain rfl := Option.some.inj (hx.symm.trans hx')
    exact hnone

/-- Two generations in one hand, of one tab. -/
theorem unique_in_hand (h : Supervised lapsed lost φ v) (ht : (φ t).hand = some hd)
    (hn : hd.Has n) (hn' : hd.Has n') {s s' : GenerationState} (hs : v.generation? n = some s)
    (hs' : v.generation? n' = some s') (htab : s.tab = s'.tab) (halive : s.destroyed = false)
    (halive' : s'.destroyed = false) : n = n' := by
  have hands := h.hands t hd ht
  have hending : ∀ {k : Nat} {x : GenerationState}, v.generation? k = some x →
      x.destroyed = false → ∀ ts, hd.ending ≠ some (k, ts) := by
    intro k x hx hxd ts hk
    obtain ⟨y, hy, hyd, -⟩ := hands.ending k ts hk
    obtain rfl := Option.some.inj (hx.symm.trans hy)
    exact absurd (hxd.symm.trans hyd) (by simp)
  have hmixed : ∀ {k : Nat} {g : Generation}, k ∈ hd.taken → hd.fresh ≠ some g := by
    intro k g hk hg
    rw [(hands.fresh g hg).2.2.2.2.1] at hk
    cases hk
  rcases hn with htaken | ⟨ts, hend⟩ | ⟨g, hfresh, rfl⟩
  · rcases hn' with htaken' | ⟨ts, hend⟩ | ⟨g, hfresh, -⟩
    · obtain ⟨i, hi, rfl⟩ := List.getElem_of_mem htaken
      obtain ⟨j, hj, rfl⟩ := List.getElem_of_mem htaken'
      have hapart := List.pairwise_iff_getElem.1 hands.apart
      rcases Nat.lt_trichotomy i j with hlt | rfl | hlt
      · exact absurd htab (hapart i j hi hj hlt s s' hs hs')
      · rfl
      · exact absurd htab.symm (hapart j i hj hi hlt s' s hs' hs)
    · exact absurd hend (hending hs' halive' ts)
    · exact absurd hfresh (hmixed htaken)
  · exact absurd hend (hending hs halive ts)
  · rcases hn' with htaken' | ⟨ts, hend⟩ | ⟨g', hfresh', rfl⟩
    · exact absurd hfresh (hmixed htaken')
    · exact absurd hend (hending hs' halive' ts)
    · rw [Option.some.inj (hfresh.symm.trans hfresh')]

/-- A generation that is not destroyed is recorded for its tab or in a hand. -/
theorem recorded_or_held (h : Supervised lapsed lost φ v) (hv : v.Sound e)
    {s : GenerationState} (hs : v.generation? n = some s) (halive : s.destroyed = false)
    (hlost : ¬ lost n) :
    (∃ x g, v.tab? s.tab = some x ∧ x.generation = some g ∧ g.number = n) ∨
      ∃ t hd, (φ t).hand = some hd ∧ hd.Has n := by
  rcases h.placed n s hs with ⟨id, x, g, hx, hg, rfl⟩ | hheld | hgone | hl
  · obtain ⟨rfl, s', hs', htab⟩ := hv.recorded id x g hx hg
    obtain rfl := Option.some.inj (hs.symm.trans hs')
    exact .inl ⟨x, g, htab ▸ hx, hg, rfl⟩
  · exact .inr hheld
  · have hdestroyed := hgone.destroyed
    rw [View.isDestroyed_of_some hs, halive] at hdestroyed
    cases hdestroyed
  · exact absurd hl hlost

/-- A tab has one generation that is not destroyed. -/
theorem unique (h : Supervised lapsed lost φ v) (hv : v.Sound e) {s s' : GenerationState}
    (hs : v.generation? n = some s) (hs' : v.generation? n' = some s') (htab : s.tab = s'.tab)
    (halive : s.destroyed = false) (halive' : s'.destroyed = false) (hlost : ¬ lost n)
    (hlost' : ¬ lost n') : n = n' := by
  rcases h.recorded_or_held hv hs halive hlost with ⟨x, g, hx, hg, rfl⟩ | ⟨t, hd, ht, hn⟩
  · rcases h.recorded_or_held hv hs' halive' hlost' with ⟨x', g', hx', hg', rfl⟩ | ⟨t, hd, ht, hn⟩
    · rw [htab] at hx
      obtain rfl := Option.some.inj (hx.symm.trans hx')
      rw [Option.some.inj (hg.symm.trans hg')]
    · have hnone := h.generation_of_has ht hn hs' halive' (htab ▸ hx)
      exact absurd (hg.symm.trans hnone) (by simp)
  · rcases h.recorded_or_held hv hs' halive' hlost' with ⟨x', g', hx', hg', rfl⟩ | ⟨u, hd', hu, hn'⟩
    · have hnone := h.generation_of_has ht hn hs halive (htab ▸ hx')
      exact absurd (hg'.symm.trans hnone) (by simp)
    · obtain ⟨rfl, rfl⟩ := h.only ht hu
      exact h.unique_in_hand ht hn hn' hs hs' htab halive halive'

end Supervised

/-! ## What a step does to the hands -/

theorem View.tab?_modifyTab (v : View) (id k : String) (f : TabEntry → TabEntry) :
    (v.modifyTab id f).tab? k = if k = id then (v.tab? id).map f else v.tab? k := by
  unfold View.modifyTab
  split
  · next x hx =>
    rw [hx]
    exact Keyed.get?_insert ..
  · next hx =>
    split
    · next hk => rw [hk, hx]; rfl
    · rfl

/-- The next number is of no generation. -/
theorem View.Sound.not_issued (h : v.Sound e) : v.generation? v.issued = none := by
  cases hs : v.generation? v.issued with
  | none => rfl
  | some s => exact absurd (h.generationsNumbered _ s hs) (Nat.lt_irrefl _)

theorem View.tabs_spawn (v : View) (d : String) (c : Context) (j : Job) :
    (v.spawn n d c j).tabs = v.tabs := by
  unfold View.spawn
  split
  · rfl
  · exact View.tabs_modifyGeneration ..

theorem Talk.tabs {σ σ' : Stance} (h : Talk e σ v σ' v') : v'.tabs = v.tabs := by
  cases h with
  | startBody => exact View.tabs_spawn ..
  | _ => rfl

namespace Effect

/-- What comes into a hand was recorded or is new. -/
theorem has_of_has (h : Effect e t γ v γ' v') (hv : v.Sound e) (hhand : γ'.hand = some hd)
    (hn : hd.Has n) :
    (∃ hd, γ.hand = some hd ∧ hd.Has n) ∨ v.Records n ∨ v.generation? n = none := by
  have hrecords : ∀ {g : Option Generation} {id : String} {x : TabEntry}, v.tab? id = some x →
      x.generation = g → n ∈ Supervisor.numbers g → v.Records n := fun hx hg hmem => by
    obtain ⟨g', rfl, hnum⟩ := Supervised.mem_numbers hmem
    exact ⟨_, _, g', hx, hg, hnum⟩
  cases h with
  | enter =>
    obtain rfl := Option.some.inj hhand
    rcases hn with hn | ⟨ts, hn⟩ | ⟨g, hn, -⟩ <;> cases hn
  | yield => cases hhand
  | take hhand₀ hfree hx =>
    obtain rfl := Option.some.inj hhand
    rcases hn with hn | ⟨ts, hn⟩ | ⟨g, hn, -⟩
    · exact .inr (.inl (hrecords hx rfl hn))
    · cases hn
    · cases hn
  | withdraw hhand₀ hfree hx =>
    obtain rfl := Option.some.inj hhand
    rcases hn with hn | ⟨ts, hn⟩ | ⟨g, hn, -⟩
    · exact .inr (.inl (hrecords hx rfl hn))
    · cases hn
    · cases hn
  | takeAll hhand₀ hfree =>
    obtain rfl := Option.some.inj hhand
    rcases hn with hn | ⟨ts, hn⟩ | ⟨g, hn, -⟩
    · obtain ⟨⟨id, x⟩, hmem, hn⟩ := List.mem_flatMap.1 hn
      exact .inr (.inl (hrecords (hv.ordered.get?_of_mem hmem) rfl hn))
    · cases hn
    · cases hn
  | @destroy h k rest hhand₀ htaken hending =>
    obtain rfl := Option.some.inj hhand
    refine .inl ⟨h, hhand₀, ?_⟩
    rcases hn with hn | ⟨ts, hn⟩ | ⟨g, hn, hg⟩
    · exact .inl (htaken ▸ List.mem_cons_of_mem _ hn)
    · obtain ⟨rfl, -⟩ := Prod.mk.inj (Option.some.inj hn)
      exact .inl (htaken ▸ List.mem_cons_self)
    · exact .inr (.inr ⟨g, hn, hg⟩)
  | @awaited h k u ts hhand₀ hending hended =>
    obtain rfl := Option.some.inj hhand
    refine .inl ⟨h, hhand₀, ?_⟩
    rcases hn with hn | ⟨ts', hn⟩ | ⟨g, hn, hg⟩
    · exact .inl hn
    · obtain ⟨rfl, -⟩ := Prod.mk.inj (Option.some.inj hn)
      exact .inr (.inl ⟨_, hending⟩)
    · exact .inr (.inr ⟨g, hn, hg⟩)
  | @bury h k s hhand₀ hending hs =>
    obtain rfl := Option.some.inj hhand
    refine .inl ⟨h, hhand₀, ?_⟩
    rcases hn with hn | ⟨ts', hn⟩ | hn
    · exact .inl hn
    · cases hn
    · exact .inr (.inr hn)
  | @renew h id name c graph hhand₀ hfree hsource hgraph =>
    obtain rfl := Option.some.inj hhand
    rcases hn with hn | hn | ⟨g, hg, rfl⟩
    · exact .inl ⟨h, hhand₀, .inl hn⟩
    · exact .inl ⟨h, hhand₀, .inr (.inl hn)⟩
    · obtain rfl := Option.some.inj hg
      exact .inr (.inr hv.not_issued)
  | @install h g hhand₀ hfresh hknown =>
    obtain rfl := Option.some.inj hhand
    refine .inl ⟨h, hhand₀, ?_⟩
    rcases hn with hn | hn | ⟨g', hg', -⟩
    · exact .inl hn
    · exact .inr (.inl hn)
    · cases hg'
  | _ => exact .inl ⟨hd, hhand, hn⟩

/-- What is started was started before or is new. -/
theorem fresh_of_fresh (h : Effect e t γ v γ' v') (hv : v.Sound e) {g : Generation}
    (hhand : γ'.hand = some hd) (hg : hd.fresh = some g) :
    (∃ hd, γ.hand = some hd ∧ hd.fresh = some g) ∨ v.generation? g.number = none := by
  cases h with
  | enter | take | withdraw | takeAll =>
    obtain rfl := Option.some.inj hhand
    cases hg
  | yield => cases hhand
  | @destroy h _ _ hhand₀ | @awaited h _ _ _ hhand₀ | @bury h _ _ hhand₀ =>
    obtain rfl := Option.some.inj hhand
    exact .inl ⟨h, hhand₀, hg⟩
  | renew =>
    obtain rfl := Option.some.inj hhand
    obtain rfl := Option.some.inj hg
    exact .inr (hv.not_issued)
  | install =>
    obtain rfl := Option.some.inj hhand
    cases hg
  | _ => exact .inl ⟨hd, hhand, hg⟩

/-- What comes to be recorded was in the hand to be started. -/
theorem records_of_records (h : Effect e t γ v γ' v') (hn : v'.Records n) :
    v.Records n ∨ ∃ hd g, γ.hand = some hd ∧ hd.fresh = some g ∧ g.number = n := by
  have hsame : v'.tabs = v.tabs → v.Records n := fun htabs => by
    unfold View.Records View.tab? at hn ⊢
    rwa [htabs] at hn
  obtain ⟨id, x', g, hx', hg, rfl⟩ := hn
  cases h with
  | touch | listen | unlisten => exact .inl (hsame (View.tabs_modifyGeneration ..))
  | spawn => exact .inl (hsame (View.tabs_spawn ..))
  | cancel => exact .inl (hsame (View.cancelAll_spec v _).2.1)
  | abort => exact .inl (hsame rfl)
  | put hc howed hstores =>
    rcases hstores.entry id x' hx' with ⟨x, hx, -, hgen, -⟩ | ⟨-, -, hnone⟩
    · exact .inl ⟨id, x, g, hx, hgen ▸ hg, rfl⟩
    · exact absurd (hg.symm.trans hnone) (by simp)
  | @take h id₀ x status hhand hfree hx hst =>
    change Keyed.get? id (Keyed.insert id₀ _ v.tabs) = _ at hx'
    rw [Keyed.get?_insert] at hx'
    split at hx'
    · obtain rfl := Option.some.inj hx'
      cases hg
    · exact .inl ⟨id, x', g, hx', hg, rfl⟩
  | takeAll hhand hfree =>
    let stop (x : TabEntry) : TabEntry := { x with status := .stopped none, generation := none }
    obtain ⟨x, -, rfl⟩ :=
      Option.map_eq_some_iff.1 ((Keyed.get?_map id stop v.tabs).symm.trans hx')
    cases hg
  | @withdraw h id₀ x hhand hfree hx =>
    change Keyed.get? id (Keyed.erase id₀ v.tabs) = _ at hx'
    rw [Keyed.get?_erase] at hx'
    split at hx'
    · cases hx'
    · exact .inl ⟨id, x', g, hx', hg, rfl⟩
  | destroy => exact .inl ((View.records_destroy v _).1 ⟨id, x', g, hx', hg, rfl⟩)
  | mark hhand hfree hsource hf =>
    rw [View.tab?_modifyTab] at hx'
    split at hx'
    · next hid =>
      obtain ⟨x, hx, rfl⟩ := Option.map_eq_some_iff.1 hx'
      rcases (hf x).2.2 with hnone | hgen
      · exact absurd (hg.symm.trans hnone) (by simp)
      · exact .inl ⟨id, x, g, hid ▸ hx, hgen ▸ hg, rfl⟩
    · exact .inl ⟨id, x', g, hx', hg, rfl⟩
  | @install h g₀ hhand hfresh hknown =>
    rw [View.tab?_modifyTab] at hx'
    split at hx'
    · obtain ⟨x, hx, rfl⟩ := Option.map_eq_some_iff.1 hx'
      obtain rfl : g₀ = g := Option.some.inj hg
      exact .inr ⟨h, g₀, hhand, hfresh, rfl⟩
    · exact .inl ⟨id, x', g, hx', hg, rfl⟩
  | _ => exact .inl (hsame rfl)

end Effect

/-! ## Generations on their way out -/

/-- Only threads like `S` have the generation in hand, none of them to record it. -/
structure Outgoing (S : TaskId → Prop) (φ : TaskId → Stage) (v : View) (n : Nat) : Prop where
  made : ∃ s, v.generation? n = some s
  unrecorded : ¬ v.Records n
  unstarted : ∀ t hd g, (φ t).hand = some hd → hd.fresh = some g → g.number ≠ n
  held : ∀ t hd, (φ t).hand = some hd → hd.Has n → S t

namespace Outgoing

variable {S : TaskId → Prop}

/-- Tabs stay as they are, and no thread has more in hand. -/
theorem of_tabs (h : Outgoing S φ v n) (hle : v ≤ v') (htabs : v'.tabs = v.tabs)
    (hhand : ∀ t hd, (φ' t).hand = some hd → (φ t).hand = some hd) : Outgoing S φ' v' n where
  made := by
    obtain ⟨s, hs⟩ := h.made
    obtain ⟨s', hs', -⟩ := hle.generation n s hs
    exact ⟨s', hs'⟩
  unrecorded := by
    unfold View.Records View.tab?
    rw [htabs]
    exact h.unrecorded
  unstarted t hd g ht := h.unstarted t hd g (hhand t hd ht)
  held t hd ht := h.held t hd (hhand t hd ht)

theorem effect (h : Outgoing S φ v n) (hv : v.Sound e) (heff : Effect e t (φ t) v γ' v') :
    Outgoing S (setStage φ t γ') v' n where
  made := by
    obtain ⟨s, hs⟩ := h.made
    obtain ⟨s', hs', -⟩ := (heff.le hv).generation n s hs
    exact ⟨s', hs'⟩
  unrecorded hn := by
    rcases heff.records_of_records hn with hrec | ⟨hd, g, hhand, hfresh, hg⟩
    · exact h.unrecorded hrec
    · exact h.unstarted t hd g hhand hfresh hg
  unstarted u hd g hu hg hn := by
    by_cases hut : u = t
    · subst hut
      rw [setStage_same] at hu
      rcases heff.fresh_of_fresh hv hu hg with ⟨hd₀, hhand, hfresh⟩ | hnone
      · exact h.unstarted u hd₀ g hhand hfresh hn
      · obtain ⟨s, hs⟩ := h.made
        exact absurd (hnone.symm.trans (hn ▸ hs)) (by simp)
    · rw [setStage_of_ne hut] at hu
      exact h.unstarted u hd g hu hg hn
  held u hd hu hn := by
    by_cases hut : u = t
    · subst hut
      rw [setStage_same] at hu
      rcases heff.has_of_has hv hu hn with ⟨hd₀, hhand, hhas⟩ | hrec | hnone
      · exact h.held u hd₀ hhand hhas
      · exact absurd hrec h.unrecorded
      · obtain ⟨s, hs⟩ := h.made
        exact absurd (hnone.symm.trans hs) (by simp)
    · rw [setStage_of_ne hut] at hu
      exact h.held u hd hu hn

theorem passage (h : Outgoing S φ m.world.view n) (hv : m.world.view.Sound e)
    (hp : Passage e log m φ ψ ds v' φ' ψ') : Outgoing S φ' v' n := by
  cases hp with
  | @change t _ _ γ' σ' _ _ _ _ hchange =>
    generalize ψ t = σ at hchange
    cases hchange with
    | effect heff => exact h.effect hv heff
    | talk htalk =>
      rw [setStage_self]
      exact h.of_tabs (htalk.le hv) htalk.tabs fun _ _ => id
  | @store _ _ _ b =>
    exact h.of_tabs (View.KeepsTasks_le (GenerationState.keepsTasks_store b.id _ _) m.world.view _)
      (View.tabs_modifyGeneration ..) fun _ _ => id
  | reply => exact h.of_tabs (View.le_of_eq (Nat.le_refl _) (.deliver ..) rfl rfl rfl) rfl fun _ _ => id
  | @depart t _ γ _ hds _ hrest hsettles =>
    refine h.of_tabs hsettles.le hsettles.tabs fun u hd hu => ?_
    by_cases hut : u = t
    · subst hut
      rw [setStage_same, hrest.1] at hu
      cases hu
    · rwa [setStage_of_ne hut] at hu
  | still hsettles => exact h.of_tabs hsettles.le hsettles.tabs fun _ _ => id

/-- Every run keeps it that way. -/
theorem run (he : e.Orderly) (hc : Conducted e log m φ ψ) (h : Outgoing S φ m.world.view n)
    {log' : List Deed} (hrun : Run e m log' m') :
    ∃ φ' ψ', Conducted e (log ++ log') m' φ' ψ' ∧ Outgoing S φ' m'.world.view n := by
  induction hrun with
  | refl => exact ⟨φ, ψ, by rwa [List.append_nil], h⟩
  | move _ hmove ih =>
    obtain ⟨φ₁, ψ₁, hc₁, h₁⟩ := ih
    obtain ⟨φ₂, ψ₂, hp, hc₂⟩ := hc₁.move he hmove
    exact ⟨φ₂, ψ₂, by rwa [← List.append_assoc], h₁.passage hc₁.sound hp⟩

/-- A thread that takes a generation out of its tab is the only one that can have it in hand. -/
theorem of_taken (he : e.Orderly) (hc : Conducted e log m φ ψ) {p : Execution Unit} {w : World}
    (hmove : Move e m [.performed t p w] m') (hn : m.world.view.Records n)
    (hn' : ¬ m'.world.view.Records n) :
    ∃ φ' ψ', Conducted e (log ++ [.performed t p w]) m' φ' ψ' ∧
      Outgoing (· = t) φ' m'.world.view n := by
  obtain ⟨φ', ψ', hp, hc'⟩ := hc.move he hmove
  refine ⟨φ', ψ', hc', ?_⟩
  have hfree : ∀ u hd, (φ u).hand = some hd → ¬ hd.Has n := fun u hd hu =>
    hc.supervised.not_has_of_records hu hn
  obtain ⟨s, hs⟩ : ∃ s, m.world.view.generation? n = some s := by
    obtain ⟨id, x, g, hx, hg, rfl⟩ := hn
    obtain ⟨s, hs, -⟩ := Supervised.exists_of_recorded hc.sound hx hg
    exact ⟨s, hs⟩
  -- Only a change of the stage of a thread takes anything out of a tab.
  generalize hds : [Deed.performed t p w] = ds at hp
  generalize m'.world.view = v' at hp hn' ⊢
  cases hp with
  | @change t' p' _ γ' σ' v' _ _ _ hchange =>
    obtain ⟨rfl, -, -⟩ := Deed.performed.inj (List.cons.inj hds).1
    generalize ψ t = σ at hchange
    cases hchange with
    | effect heff =>
      obtain ⟨s', hs', -⟩ := (heff.le hc.sound).generation n s hs
      refine ⟨⟨s', hs'⟩, hn', fun u hd g hu hg hgn => ?_, fun u hd hu hhas => ?_⟩
      · by_cases hut : u = t
        · subst hut
          rw [setStage_same] at hu
          rcases heff.fresh_of_fresh hc.sound hu hg with ⟨hd₀, hhand, hfresh⟩ | hnone
          · exact hfree u hd₀ hhand (.inr (.inr ⟨g, hfresh, hgn⟩))
          · exact absurd (hnone.symm.trans (hgn ▸ hs)) (by simp)
        · rw [setStage_of_ne hut] at hu
          exact hfree u hd hu (.inr (.inr ⟨g, hg, hgn⟩))
      · refine Decidable.byContradiction fun hut => ?_
        rw [setStage_of_ne hut] at hu
        exact hfree u hd hu hhas
    | talk htalk =>
      refine absurd ?_ hn'
      unfold View.Records View.tab?
      rwa [htalk.tabs]
  | store =>
    refine absurd ?_ hn'
    unfold View.Records View.tab?
    rwa [View.tabs_modifyGeneration]
  | reply => exact absurd hn hn'
  | depart hds' =>
    subst hds
    exact absurd List.mem_cons_self (hds' t p w)
  | still => cases hds

/-- What nobody has in hand any more is gone. -/
theorem gone (hc : Conducted e log m φ ψ) (h : Outgoing (fun _ => False) φ m.world.view n)
    (hlost : ¬ Lost log n) : m.world.view.Gone n := by
  obtain ⟨s, hs⟩ := h.made
  rcases hc.supervised.placed n s hs with hrec | ⟨u, hd, hu, hhas⟩ | hgone | hl
  · exact absurd hrec h.unrecorded
  · exact (h.held u hd hu hhas).elim
  · exact hgone
  · exact absurd hl hlost

end Outgoing

/-! ## Every state of every run -/

/-- In a run, the call of a caller took a generation out of its tab, and has returned. -/
inductive TakenOut (e : Engine) (m : Machine) (n : Nat) : List Deed → Machine → Prop
  | intro {log₁ log₂ log₃ : List Deed} {m₁ m₂ m₃ m₄ : Machine} {t : TaskId} {p : Execution Unit} :
      Run e m log₁ m₁ → Move e m₁ [.performed t p m₁.world] m₂ →
      m₁.world.view.Records n → ¬ m₂.world.view.Records n →
      Run e m₂ log₂ m₃ → m₃.threads[t]? = none → Run e m₃ log₃ m₄ →
      TakenOut e m n (log₁ ++ [.performed t p m₁.world] ++ log₂ ++ log₃) m₄

theorem TakenOut.run (h : TakenOut e m n log m') : Run e m log m' := by
  obtain ⟨hrun₁, hmove, -, -, hrun₂, -, hrun₃⟩ := h
  exact ((hrun₁.trans (.single hmove)).trans hrun₂).trans hrun₃

theorem not_lost_of_kept (h : ∀ d ∈ log, d.isDrop = false) : ¬ Lost log n := by
  rintro ⟨t, w, hmem, -⟩
  exact absurd (h _ hmem) (by simp [Deed.isDrop])

theorem not_lapsed_of_kept (h : ∀ d ∈ log, d.isDrop = false) : ¬ Lapsed log := by
  rintro ⟨t, w, hmem⟩
  exact absurd (h _ hmem) (by simp [Deed.isDrop])

/-- What was taken out by a call that has returned is gone. -/
theorem TakenOut.gone (he : e.Orderly) {capacity : Nat}
    (h : TakenOut e (.start capacity) n log m) (hkept : ∀ d ∈ log, d.isDrop = false) :
    m.world.view.Gone n := by
  obtain ⟨hrun₁, hmove, hn, hn', hrun₂, hnone, hrun₃⟩ := h
  obtain ⟨φ₁, ψ₁, hc₁⟩ := Conducted.run he hrun₁
  obtain ⟨φ₂, ψ₂, hc₂, hout₂⟩ := Outgoing.of_taken he hc₁ hmove hn hn'
  obtain ⟨φ₃, ψ₃, hc₃, hout₃⟩ := hout₂.run he hc₂ hrun₂
  have hrest := ((hc₃.task _).resting hnone).1
  have hout₃ : Outgoing (fun _ => False) φ₃ _ n :=
    { hout₃ with
      held := fun u hd hu hhas => by
        obtain rfl := hout₃.held u hd hu hhas
        rw [hrest.1] at hu
        cases hu }
  obtain ⟨φ₄, ψ₄, hc₄, hout₄⟩ := hout₃.run he hc₃ hrun₃
  exact hout₄.gone hc₄ (not_lost_of_kept hkept)

theorem parse_of_contentGraph? {content : String} {g : Graph}
    (h : Supervisor.contentGraph? content = .ok (some g)) : Graph.parse content = .ok g := by
  unfold Supervisor.contentGraph? at h
  cases hempty : isEmptyContent content with
  | error err => rw [hempty] at h; cases h
  | ok empty =>
    cases empty with
    | true => rw [hempty] at h; cases h
    | false =>
      rw [hempty] at h
      cases hparse : Graph.parse content with
      | error err => rw [hparse] at h; cases h
      | ok g' =>
        rw [hparse] at h
        rw [Option.some.inj (Except.ok.inj h)]

/-- As long as no caller has a call under way, nobody has anything in hand. -/
theorem Conducted.atRest_of_idle (h : Conducted e log m φ ψ)
    (hidle : ∀ t, m.world.IsCaller t → m.threads[t]? = none) (t : TaskId) : (φ t).AtRest := by
  cases hp : m.threads[t]? with
  | none => exact ((h.task t).resting hp).1
  | some p =>
    obtain ⟨s, hs, -⟩ := (h.task t).carries p hp
    cases hj : s.job with
    | some j => exact h.atRest_of_job hs hj
    | none =>
      obtain ⟨r, hr, rfl⟩ := Option.map_eq_some_iff.1 hs
      exact absurd (hp.symm.trans (hidle t ⟨r, hr, hj⟩)) (by simp)

/-- As long as no caller has a call under way, nobody owes anything. -/
theorem Conducted.not_owes (h : Conducted e log m φ ψ)
    (hidle : ∀ t, m.world.IsCaller t → m.threads[t]? = none) (id : String) : ¬ Owes φ id := by
  rintro ⟨t, hid⟩
  rw [(h.atRest_of_idle hidle t).2] at hid
  cases hid

/-- The graph of a running tab, when no call is under way. -/
theorem Conducted.graph_of_running (h : Conducted e log m φ ψ) (hlapsed : ¬ Lapsed log)
    (hidle : ∀ t, m.world.IsCaller t → m.threads[t]? = none) {id : String} {x : TabEntry}
    (hx : m.world.tab? id = some x) (hrunning : x.status = .running) :
    ∃ g, x.generation = some g ∧ Graph.parse x.content = .ok g.graph := by
  obtain ⟨g, hg⟩ := Option.isSome_iff_exists.1 ((h.supervised.status id x hx).2 hrunning)
  refine ⟨g, hg, ?_⟩
  rcases h.supervised.current id x g hx hg with hgraph | howes | hl
  · exact parse_of_contentGraph? hgraph
  · exact absurd howes (h.not_owes hidle id)
  · exact absurd hl hlapsed

/-- Whatever the order in which calls and tasks go on, as long as no call is dropped: a tab has a
generation exactly if it is running, and no second one that is not destroyed; what a call took out
of a tab is destroyed and has no live tasks once the call has returned; and when no call is under
way, a running tab runs the graph of its content. -/
theorem Run.generations_safe (he : e.HasCore) {capacity : Nat}
    (hrun : Run e (.start capacity) log m) (hkept : ∀ d ∈ log, d.isDrop = false) :
    (∀ id x, m.world.tab? id = some x → (x.generation.isSome = true ↔ x.status = .running)) ∧
    (∀ n n' s s', m.world.generation? n = some s → m.world.generation? n' = some s' →
      s.tab = s'.tab → s.destroyed = false → s'.destroyed = false → n = n') ∧
    (∀ n, TakenOut e (.start capacity) n log m →
      m.world.isDestroyed n = true ∧ ∀ t j, m.world.IsLive t j → j.owner ≠ n) ∧
    ((∀ t, m.world.IsCaller t → m.threads[t]? = none) →
      ∀ id x, m.world.tab? id = some x → x.status = .running →
        ∃ g, x.generation = some g ∧ Graph.parse x.content = .ok g.graph) := by
  have horderly := Engine.orderly_of_core he
  obtain ⟨φ, ψ, h⟩ := Conducted.run horderly hrun
  refine ⟨h.supervised.status, fun n n' s s' hs hs' htab halive halive' => ?_, fun n hout => ?_,
    fun hidle id x hx hrunning => ?_⟩
  · exact h.supervised.unique h.sound hs hs' htab halive halive' (not_lost_of_kept hkept)
      (not_lost_of_kept hkept)
  · have hgone := hout.gone horderly hkept
    refine ⟨hgone.destroyed, fun t j hlive howner => ?_⟩
    obtain ⟨s, hs, hj, hend⟩ := Conducted.standing_of_live hlive
    exact absurd (hend.symm.trans (hgone.quiet t s j hs hj howner)) (by simp)
  · exact h.graph_of_running (not_lapsed_of_kept hkept) hidle hx hrunning

/-! ## A run of two callers -/

/-- Whether the entry of a tab has the generation. -/
def World.recordsIn (w : World) (tab : String) (n : Nat) : Bool :=
  ((w.tab? tab).bind (·.generation)).any (·.number = n)

/-- Whether the entry of some tab has the generation. -/
def World.recordsAny (w : World) (n : Nat) : Bool :=
  w.tabs.any fun p => p.2.generation.any (·.number = n)

theorem World.records_of_recordsIn {w : World} {tab : String} (h : w.recordsIn tab n = true) :
    w.view.Records n := by
  obtain ⟨g, hg, hn⟩ := (Option.any_eq_true _ _).1 h
  obtain ⟨x, hx, hg⟩ := Option.bind_eq_some_iff.1 hg
  exact ⟨tab, x, g, hx, hg, of_decide_eq_true hn⟩

theorem World.recordsAny_of_records {w : World} (h : w.view.Records n) :
    w.recordsAny n = true := by
  obtain ⟨id, x, g, hx, hg, rfl⟩ := h
  refine List.any_eq_true.2 ⟨(id, x), Keyed.mem_of_get? hx, ?_⟩
  rw [hg]
  exact decide_eq_true rfl

/-- A scripted run in which a step of a caller takes a generation out of its tab. -/
theorem TakenOut.of_playAll (ls : List Script.Line) (t : TaskId) (ls' : List Script.Line)
    (tab : String) (f : List Deed → Machine → Bool)
    (h : ((m.playAll e ls).any fun r => (r.2.threads[t]?).any fun p =>
      (e.step t r.2.world p).any fun q =>
        r.2.world.recordsIn tab n && !q.2.recordsAny n &&
          (Machine.playAll e ⟨q.2, r.2.threads.insert t q.1⟩ ls').any fun r' =>
            (r'.2.threads[t]?).isNone && f (r.1 ++ [.performed t p r.2.world] ++ r'.1) r'.2) =
      true) :
    ∃ log m', TakenOut e m n log m' ∧ f log m' = true := by
  obtain ⟨⟨log₁, m₁⟩, hplay, h⟩ := (Option.any_eq_true _ _).1 h
  obtain ⟨p, hp, h⟩ := (Option.any_eq_true _ _).1 h
  obtain ⟨⟨q, w⟩, hstep, h⟩ := (Option.any_eq_true _ _).1 h
  obtain ⟨hrecords, h⟩ := Bool.and_eq_true_iff.1 h
  obtain ⟨hn, hn'⟩ := Bool.and_eq_true_iff.1 hrecords
  obtain ⟨⟨log₂, m₂⟩, hplay', h⟩ := (Option.any_eq_true _ _).1 h
  obtain ⟨hnone, hf⟩ := Bool.and_eq_true_iff.1 h
  have hunrecorded : ¬ w.view.Records n := fun hrec => by
    rw [World.recordsAny_of_records hrec] at hn'
    cases hn'
  refine ⟨_, m₂, .intro (.of_playAll hplay) (.perform hp hstep) (World.records_of_recordsIn hn)
    hunrecorded (.of_playAll hplay') (Option.isNone_iff_eq_none.1 hnone) .refl, ?_⟩
  rwa [List.append_nil]

/-- Two callers save the same tab at the same time; the second one waits for its turn and then takes
out what the first one started. -/
theorem generations_safe_of_two_callers :
    ∃ log m, TakenOut Script.engine (.start 10) 0 log m ∧ (∀ d ∈ log, d.isDrop = false) ∧
      m.world.isDestroyed 0 = true ∧ (∀ t j, m.world.IsLive t j → j.owner ≠ 0) ∧
      ∃ x g, m.world.tab? "a" = some x ∧ x.status = .running ∧ x.generation = some g ∧
        g.number = 2 ∧ Graph.parse x.content = .ok g.graph := by
  let content := Script.document [Script.block "hat" "data_onchange_variable"
    "\"topLevel\":true,\"fields\":\x7b\"VARIABLE\":[\"v\",\"v1\"]\x7d"]
  obtain ⟨log, m, hout, hend⟩ := TakenOut.of_playAll (e := Script.engine) (m := .start 10) (n := 0)
    [.call 0 (.save "a" content), .perform 0 100, .appear, .call 2 (.save "a" content),
      .perform 2 100, .begin 1, .perform 1 100, .finish 1, .perform 0 100, .return 0, .perform 2 1]
    2 [.perform 2 100, .begin 3, .perform 3 100, .finish 3, .perform 2 100, .return 2] "a"
    (fun log m => log.all (fun d => !d.isDrop) && m.threads.isEmpty &&
      (m.world.tab? "a").any fun x => x.generation.any (·.number = 2))
    (by decide +kernel)
  obtain ⟨hcalls, hentry⟩ := Bool.and_eq_true_iff.1 hend
  obtain ⟨hkept, hempty⟩ := Bool.and_eq_true_iff.1 hcalls
  obtain ⟨x, hx, hg⟩ := (Option.any_eq_true _ _).1 hentry
  obtain ⟨g, hg, hnumber⟩ := (Option.any_eq_true _ _).1 hg
  have hkept : ∀ d ∈ log, d.isDrop = false := fun d hd => by
    simpa using List.all_eq_true.1 hkept d hd
  have hidle : ∀ t, m.world.IsCaller t → m.threads[t]? = none := fun t _ => by
    rw [Std.ExtTreeMap.isEmpty_iff.1 hempty]
    rfl
  obtain ⟨hstatus, -, hgone, hgraph⟩ := Run.generations_safe (e := Script.engine) rfl hout.run hkept
  obtain ⟨hdestroyed, hquiet⟩ := hgone 0 hout
  have hrunning : x.status = .running := (hstatus "a" x hx).1 (by rw [hg]; rfl)
  obtain ⟨g', hg', hparse⟩ := hgraph hidle "a" x hx hrunning
  obtain rfl := Option.some.inj (hg.symm.trans hg')
  exact ⟨log, m, hout, hkept, hdestroyed, hquiet, x, g, hx, hrunning, hg,
    of_decide_eq_true hnumber, hparse⟩

end BlockEngine
