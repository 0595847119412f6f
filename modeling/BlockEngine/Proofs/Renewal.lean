import BlockEngine.Proofs.Handover

/-!
# Starting generations

* `Supervised.retab`, `.renew`, `.install` : tabs are stored and marked, a generation is started
  and recorded;
* `Supervised.effect`, `Supervised.talk` : every step of a thread keeps the invariant;
* `Effect.fits` : and every thread acts for the generation of its task, or for the one it starts.
-/

namespace BlockEngine

variable {e : Engine} {t u : TaskId} {lapsed : Prop} {lost : Nat → Prop} {φ φ' : TaskId → Stage}
  {γ γ' : Stage} {σ σ' : Stance} {v v' : View} {hd hd' : Hand}

namespace Supervised

/-- Nothing but the tabs and what is owed differs, and no generation is recorded elsewhere. -/
theorem retab (h : Supervised lapsed lost φ v) {tabs : Keyed TabEntry}
    (hhand : ∀ u, (φ' u).hand = (φ u).hand) (howes : ∀ id, Owes φ id → Owes φ' id)
    (hentry : ∀ id x', Keyed.get? id tabs = some x' →
      (∃ x, v.tab? id = some x ∧ x'.generation = x.generation ∧
        (x'.content = x.content ∨ Owes φ' id)) ∨
      v.tab? id = none ∧ x'.generation = none)
    (hold : ∀ id x, v.tab? id = some x → ∃ x', Keyed.get? id tabs = some x')
    (hstatus : ∀ id x', Keyed.get? id tabs = some x' →
      (∃ x, v.tab? id = some x ∧ x'.status = x.status ∧ x'.generation = x.generation) ∨
      x'.generation = none ∧ x'.status ≠ .running ∧
        (x'.status.isActive = false ∨ ∀ u hd, (φ u).hand = some hd → hd.IsFree)) :
    Supervised lapsed lost φ' { v with tabs } := by
  have hrec : ∀ n, View.Records { v with tabs } n ↔ v.Records n := by
    refine fun n => ⟨?_, ?_⟩
    · rintro ⟨id, x', g, hx', hg, hn⟩
      rcases hentry id x' hx' with ⟨x, hx, hgen, -⟩ | ⟨-, hnone⟩
      · exact ⟨id, x, g, hx, hgen ▸ hg, hn⟩
      · exact absurd (hnone.symm.trans hg) (by simp)
    · rintro ⟨id, x, g, hx, hg, hn⟩
      obtain ⟨x', hx'⟩ := hold id x hx
      rcases hentry id x' hx' with ⟨x₀, hx₀, hgen, -⟩ | ⟨hnone, -⟩
      · obtain rfl : x = x₀ := Option.some.inj (hx.symm.trans hx₀)
        exact ⟨id, x', g, hx', hgen.trans hg, hn⟩
      · exact absurd (hnone.symm.trans hx) (by simp)
  have hinactive : ∀ u hd, (φ u).hand = some hd → ¬ hd.IsFree → ∀ tab : String,
      (∀ x, v.tab? tab = some x → x.status.isActive = false) →
      ∀ x', Keyed.get? tab tabs = some x' → x'.status.isActive = false := by
    intro u hd hu hfree tab htab x' hx'
    rcases hstatus tab x' hx' with ⟨x, hx, hst, -⟩ | ⟨-, -, hst | hst⟩
    · rw [hst]
      exact htab x hx
    · exact hst
    · exact absurd (hst u hd hu) hfree
  refine ⟨fun id x' hx' => ?_, fun n hn => h.alive n ((hrec n).1 hn), fun id x' g hx' hg => ?_,
    fun u hd hu => h.holder u hd (hhand u ▸ hu), fun u hd hu => ?_, fun n s hs => ?_,
    h.tracked, fun n hn => ?_⟩
  · rcases hstatus id x' hx' with ⟨x, hx, hst, hgen⟩ | ⟨hnone, hne, -⟩
    · rw [hst, hgen]
      exact h.status id x hx
    · rw [hnone]
      exact ⟨fun h => absurd h (by simp), fun h => absurd h hne⟩
  · rcases hentry id x' hx' with ⟨x, hx, hgen, hc | ho⟩ | ⟨-, hnone⟩
    · rw [hc]
      exact (h.current id x g hx (hgen ▸ hg)).imp_right (Or.imp_left (howes id))
    · exact .inr (.inl ho)
    · exact absurd (hnone.symm.trans hg) (by simp)
  · rw [hhand u] at hu
    have hs := h.hands u hd hu
    refine ⟨fun n hn => ?_, hs.apart, fun n ts hn => ?_, fun g hg => ?_, fun id c hc => ?_,
      fun id hid => ⟨(hs.shut id hid).1, fun x' hx' => ?_⟩⟩
    · obtain ⟨s, hgen, hnd, hr, htab⟩ := hs.taken n hn
      refine ⟨s, hgen, hnd, fun hr' => hr ((hrec n).1 hr'), hinactive u hd hu (fun hf => ?_) _ htab⟩
      rw [hf.taken] at hn
      cases hn
    · obtain ⟨s, hgen, hd', hlive, htab⟩ := hs.ending n ts hn
      refine ⟨s, hgen, hd', hlive, hinactive u hd hu (fun hf => ?_) _ htab⟩
      exact absurd (hf.ending.symm.trans hn) (by simp)
    · obtain ⟨hk, hnd, hr, hrest⟩ := hs.fresh g hg
      exact ⟨hk, hnd, fun hr' => hr ((hrec _).1 hr'), hrest⟩
    · obtain ⟨x, hx, hg, hcur⟩ := hs.source id c hc
      obtain ⟨x', hx'⟩ := hold id x hx
      rcases hentry id x' hx' with ⟨x₀, hx₀, hgen, hc'⟩ | ⟨hnone, -⟩
      · obtain rfl : x = x₀ := Option.some.inj (hx.symm.trans hx₀)
        refine ⟨x', hx', hgen.trans hg, ?_⟩
        rcases hc' with hc' | ho
        · rw [hc']
          exact hcur.imp_right (Or.imp_left (howes id))
        · exact .inr (.inl ho)
      · exact absurd (hnone.symm.trans hx) (by simp)
    · rcases hentry id x' hx' with ⟨x, hx, hgen, -⟩ | ⟨-, hnone⟩
      · exact hgen.trans ((hs.shut id hid).2 x hx)
      · exact hnone
  · rcases h.placed n s hs with hr | ⟨u, hd, hu, hhas⟩ | hgone | hl
    · exact .inl ((hrec n).2 hr)
    · exact .inr (.inl ⟨u, hd, (hhand u).trans hu, hhas⟩)
    · exact .inr (.inr (.inl { hgone with }))
    · exact .inr (.inr (.inr hl))
  · obtain ⟨hex, hr⟩ := h.lost n hn
    exact ⟨hex, fun hr' => hr ((hrec n).1 hr')⟩

theorem put (h : Supervised lapsed lost φ v) {tabs : Keyed TabEntry} {owed : List String}
    (howed : ∀ id ∈ (φ t).owed, id ∈ owed) (hs : Stores owed v.tabs tabs) :
    Supervised lapsed lost (setStage φ t { φ t with owed }) { v with tabs } := by
  refine h.retab (fun u => ?_) (fun id ho => ho.set (howed id)) (fun id x' hx' => ?_) hs.old
    fun id x' hx' => ?_
  · by_cases hu : u = t
    · rw [hu, setStage_same]
    · rw [setStage_of_ne hu]
  · rcases hs.entry id x' hx' with ⟨x, hx, -, hgen, hc | ho⟩ | ⟨hnone, -, hgen⟩
    · exact .inl ⟨x, hx, hgen, .inl hc⟩
    · exact .inl ⟨x, hx, hgen, .inr ⟨t, by rw [setStage_same]; exact ho⟩⟩
    · exact .inr ⟨hnone, hgen⟩
  · rcases hs.entry id x' hx' with ⟨x, hx, hst, hgen, -⟩ | ⟨-, hst, hgen⟩
    · exact .inl ⟨x, hx, hst, hgen⟩
    · exact .inr ⟨hgen, by rw [hst]; simp, .inl (by rw [hst]; rfl)⟩

theorem mark (h : Supervised lapsed lost φ v) (ht : (φ t).hand = some hd) (hfree : hd.IsFree)
    {id c : String} {f : TabEntry → TabEntry} (hsrc : hd.source = some (id, c))
    (hf : ∀ x, (f x).status ≠ .running ∧ (f x).content = x.content ∧
      ((f x).generation = none ∨ (f x).generation = x.generation)) :
    Supervised lapsed lost φ (v.modifyTab id f) := by
  obtain ⟨x, hx, hgen, -⟩ := (h.hands t hd ht).source id c hsrc
  have hnone : (f x).generation = none := by
    rcases (hf x).2.2 with hn | hn
    · exact hn
    · exact hn.trans hgen
  unfold View.modifyTab
  rw [hx]
  refine h.retab (fun _ => rfl) (fun _ ho => ho) (fun id' x' hx' => ?_) (fun id' x' hx' => ?_)
    fun id' x' hx' => ?_
  · rw [Keyed.get?_insert] at hx'
    split at hx'
    · next hid =>
      subst hid
      rw [← Option.some.inj hx']
      exact .inl ⟨x, hx, hnone.trans hgen.symm, .inl (hf x).2.1⟩
    · exact .inl ⟨x', hx', rfl, .inl rfl⟩
  · rw [Keyed.get?_insert]
    split
    · exact ⟨_, rfl⟩
    · exact ⟨x', hx'⟩
  · rw [Keyed.get?_insert] at hx'
    split at hx'
    · rw [← Option.some.inj hx']
      exact .inr ⟨hnone, (hf x).1, .inr fun u hd' hu => (h.only ht hu).2 ▸ hfree⟩
    · exact .inl ⟨x', hx', rfl, rfl⟩

/-- A generation is made for the tab in hand. -/
theorem renew (h : Supervised lapsed lost φ v) (hv : v.Sound e) (ht : (φ t).hand = some hd)
    (hfree : hd.IsFree) {id name c : String} {graph : Graph} (hsrc : hd.source = some (id, c))
    (hc : Supervisor.contentGraph? c = .ok (some graph)) :
    Supervised lapsed lost (setStage φ t { φ t with
      home := some ⟨v.issued, id, name, graph⟩
      hand := some { hd with fresh := some ⟨v.issued, id, name, graph⟩, shut := fun _ => False } })
      { v with
        issued := v.issued + 1
        generations := v.generations.insert v.issued (.new id) } := by
  let v' : View := { v with
    issued := v.issued + 1
    generations := v.generations.insert v.issued (.new id) }
  have hget : ∀ k, v'.generation? k = if k = v.issued then some (.new id) else v.generation? k :=
    fun k => View.get?_generations_insert v v.issued k (.new id)
  have hold : ∀ k s, v.generation? k = some s → k ≠ v.issued ∧ v'.generation? k = some s := by
    intro k s hs
    have hne := Nat.ne_of_lt (hv.generationsNumbered k s hs)
    exact ⟨hne, by rw [hget, if_neg hne, hs]⟩
  have hdes : ∀ k, k ≠ v.issued → v'.isDestroyed k = v.isDestroyed k := by
    intro k hk
    unfold View.isDestroyed
    rw [hget, if_neg hk]
  have hrec : ∀ k, v.Records k → k ≠ v.issued := by
    rintro k ⟨id', x, g, hx, hg, rfl⟩
    obtain ⟨s, hs, -⟩ := exists_of_recorded hv hx hg
    exact (hold _ s hs).1
  have hs := h.hands t hd ht
  refine ⟨h.status, fun k hk => ?_, fun id' x g hx hg => ?_, fun u hd₁ hu => ?_,
    fun u hd₁ hu => ?_, fun k s hk => ?_, fun u x j hx hj => ?_, fun k hk => ?_⟩
  · rw [show View.isDestroyed _ k = v.isDestroyed k from hdes k (hrec k hk)]
    exact h.alive k hk
  · exact (h.current id' x g hx hg).imp_right (Or.imp_left fun ho => ho.set_of_eq rfl)
  · obtain ⟨rfl, -⟩ := h.hand_set ht hu
    exact h.holder u hd ht
  · obtain ⟨rfl, hhand⟩ := h.hand_set ht hu
    obtain rfl := Option.some.inj hhand
    refine ⟨fun n hn => ?_, ?_, fun n ts hn => ?_, fun g hg => ?_, fun id' c' hc' => ?_, nofun⟩
    · rw [show _ = [] from hfree.taken] at hn
      cases hn
    · rw [show _ = [] from hfree.taken]
      exact List.Pairwise.nil
    · exact absurd (hfree.ending.symm.trans hn) (by simp)
    · obtain rfl := Option.some.inj hg
      refine ⟨⟨.new id, by rw [show View.generation? _ _ = _ from hget v.issued, if_pos rfl], rfl⟩,
        ?_, fun hr => hrec _ hr rfl, fun hl => ?_, hfree.taken, hfree.ending, c, hsrc, hc⟩
      · rw [View.isDestroyed_of_some ((hget v.issued).trans (if_pos rfl))]
        rfl
      · obtain ⟨⟨s, hs⟩, -⟩ := h.lost _ hl
        exact (hold _ s hs).1 rfl
    · obtain ⟨x, hx, hg, hcur⟩ := hs.source id' c' hc'
      exact ⟨x, hx, hg, hcur.imp_right (Or.imp_left fun ho => ho.set_of_eq rfl)⟩
  · by_cases hki : k = v.issued
    · subst hki
      exact .inr (.inl ⟨t, _, congrArg Stage.hand (setStage_same ..), .inr (.inr ⟨_, rfl, rfl⟩)⟩)
    · rw [show View.generation? _ k = _ from hget k, if_neg hki] at hk
      rcases h.placed k s hk with hr | ⟨u, hd₁, hu, hhas⟩ | hgone | hl
      · exact .inl hr
      · obtain ⟨-, rfl⟩ := h.only ht hu
        exact absurd hhas (hfree.not_has k)
      · refine .inr (.inr (.inl ⟨?_, hgone.quiet, hgone.deaf⟩))
        rw [show View.isDestroyed _ k = v.isDestroyed k from hdes k hki]
        exact hgone.destroyed
      · exact .inr (.inr (.inr hl))
  · obtain ⟨s, hs, hlive⟩ := h.tracked u x j hx hj
    exact ⟨s, (hold _ s hs).2, hlive⟩
  · obtain ⟨⟨s, hs⟩, hr⟩ := h.lost k hk
    exact ⟨⟨s, (hold _ s hs).2⟩, hr⟩

/-- The generation in hand is recorded. -/
theorem install (h : Supervised lapsed lost φ v) (ht : (φ t).hand = some hd)
    {g : Generation} (hg : hd.fresh = some g) :
    Supervised lapsed lost (setStage φ t { φ t with
      home := none
      hand := some { hd with fresh := none, source := none } })
      (v.modifyTab g.tab fun x => { x with status := .running, generation := some g }) := by
  have hs := h.hands t hd ht
  obtain ⟨hk, hnd, hnrec, hnl, htaken, hending, c, hsrc, hgraph⟩ := hs.fresh g hg
  obtain ⟨x, hx, hnone, hcur⟩ := hs.source g.tab c hsrc
  unfold View.modifyTab
  rw [hx]
  let x₁ : TabEntry := { x with status := .running, generation := some g }
  let v' : View := { v with tabs := Keyed.insert g.tab x₁ v.tabs }
  have hget : ∀ id x', v'.tab? id = some x' → id = g.tab ∧ x' = x₁ ∨
      id ≠ g.tab ∧ v.tab? id = some x' := by
    intro id x' hx'
    unfold View.tab? at hx'
    rw [Keyed.get?_insert] at hx'
    split at hx'
    · next hid => exact .inl ⟨hid, (Option.some.inj hx').symm⟩
    · next hid => exact .inr ⟨hid, hx'⟩
  have hrec : ∀ n, v'.Records n ↔ v.Records n ∨ n = g.number := by
    refine fun n => ⟨?_, ?_⟩
    · rintro ⟨id, x', g', hx', hg', rfl⟩
      rcases hget id x' hx' with ⟨rfl, rfl⟩ | ⟨-, hx'⟩
      · exact .inr (congrArg Generation.number (Option.some.inj hg').symm)
      · exact .inl ⟨id, x', g', hx', hg', rfl⟩
    · rintro (⟨id, x', g', hx', hg', rfl⟩ | rfl)
      · have hid : id ≠ g.tab := fun hid => by
          subst hid
          obtain rfl : x = x' := Option.some.inj (hx.symm.trans hx')
          exact absurd (hnone.symm.trans hg') (by simp)
        refine ⟨id, x', g', ?_, hg', rfl⟩
        unfold View.tab?
        rw [Keyed.get?_insert, if_neg hid]
        exact hx'
      · refine ⟨g.tab, x₁, g, ?_, rfl, rfl⟩
        unfold View.tab?
        rw [Keyed.get?_insert, if_pos rfl]
  refine ⟨fun id x' hx' => ?_, fun n hn => ?_, fun id x' g' hx' hg' => ?_, fun u hd₁ hu => ?_,
    fun u hd₁ hu => ?_, fun n s hn => ?_, h.tracked, fun n hn => ?_⟩
  · rcases hget id x' hx' with ⟨-, rfl⟩ | ⟨-, hx'⟩
    · exact ⟨fun _ => rfl, fun _ => rfl⟩
    · exact h.status id x' hx'
  · rcases (hrec n).1 hn with hn | rfl
    · exact h.alive n hn
    · exact hnd
  · rcases hget id x' hx' with ⟨rfl, rfl⟩ | ⟨-, hx'⟩
    · obtain rfl := Option.some.inj hg'
      rcases hcur with hcur | hcur
      · exact .inl (show Supervisor.contentGraph? x.content = _ from hcur ▸ hgraph)
      · exact .inr (hcur.imp_left fun ho => ho.set_of_eq rfl)
    · exact (h.current id x' g' hx' hg').imp_right (Or.imp_left fun ho => ho.set_of_eq rfl)
  · obtain ⟨rfl, -⟩ := h.hand_set ht hu
    exact h.holder u hd ht
  · obtain ⟨rfl, hhand⟩ := h.hand_set ht hu
    obtain rfl := Option.some.inj hhand
    refine ⟨fun n hn => ?_, ?_, fun n ts hn => ?_, fun _ hf => absurd hf (by simp),
      fun _ _ hc => absurd hc (by simp),
      fun id hid => absurd ((hs.shut id hid).1.symm.trans hg) (by simp)⟩
    · rw [show _ = [] from htaken] at hn
      cases hn
    · rw [show _ = [] from htaken]
      exact List.Pairwise.nil
    · exact absurd (hending.symm.trans hn) (by simp)
  · rcases h.placed n s hn with hr | ⟨u, hd₁, hu, hhas⟩ | hgone | hl
    · exact .inl ((hrec n).2 (.inl hr))
    · obtain ⟨-, rfl⟩ := h.only ht hu
      rcases hhas with hin | ⟨ts, hts⟩ | ⟨g', hg', hn'⟩
      · rw [htaken] at hin
        cases hin
      · exact absurd (hending.symm.trans hts) (by simp)
      · obtain rfl := Option.some.inj (hg.symm.trans hg')
        exact .inl ((hrec n).2 (.inr hn'.symm))
    · exact .inr (.inr (.inl { hgone with }))
    · exact .inr (.inr (.inr hl))
  · obtain ⟨hex, hr⟩ := h.lost n hn
    refine ⟨hex, fun hr' => ?_⟩
    rcases (hrec n).1 hr' with hr' | rfl
    · exact hr hr'
    · exact hnl hn

/-- A caller enters the turn. -/
theorem enter (h : Supervised lapsed lost φ v) (ht : (φ t).hand = none)
    (hv : v.holder = none ∨ v.holder = some t) :
    Supervised lapsed lost (setStage φ t { φ t with hand := some .empty })
      { v with holder := some t } := by
  have hown : ∀ u hd, (setStage φ t { φ t with hand := some .empty } u).hand = some hd →
      u = t ∧ hd = .empty := by
    intro u hd hu
    by_cases hut : u = t
    · subst hut
      rw [setStage_same] at hu
      exact ⟨rfl, (Option.some.inj hu).symm⟩
    · rw [setStage_of_ne hut] at hu
      exact absurd hu (h.nobody ht hv hd)
  refine ⟨h.status, h.alive, fun id x g hx hg => ?_, fun u hd hu => ?_, fun u hd hu => ?_,
    fun n s hn => ?_, h.tracked, h.lost⟩
  · exact (h.current id x g hx hg).imp_right (Or.imp_left fun ho => ho.set_of_eq rfl)
  · rw [(hown u hd hu).1]
  · obtain ⟨rfl, rfl⟩ := hown u hd hu
    exact ⟨fun _ hn => absurd hn List.not_mem_nil, List.Pairwise.nil, nofun, nofun, nofun, nofun⟩
  · rcases h.placed n s hn with hr | ⟨u, hd, hu, -⟩ | hgone | hl
    · exact .inl hr
    · exact absurd hu (h.nobody ht hv hd)
    · exact .inr (.inr (.inl { hgone with }))
    · exact .inr (.inr (.inr hl))

/-! ## Every step -/

/-- What a thread acts for is not gone while its task lives. -/
theorem not_gone (h : Supervised lapsed lost φ v) {s : Standing} (hs : v.tasks t = some s)
    (hlive : s.ended = false) (hfits : (φ t).Fits s.job) {g : Generation}
    (hg : (φ t).home = some g) : ¬ v.Gone g.number := by
  intro hgone
  cases hj : s.job with
  | some j =>
    rw [hj] at hfits
    have hfits : φ t = .ofHome j.home? := hfits
    rw [hfits] at hg
    exact absurd (hlive.symm.trans (hgone.quiet t s j hs hj (Job.owner_of_home hg))) (by simp)
  | none =>
    rw [hj] at hfits
    obtain ⟨hd, hhand, hf⟩ := Option.bind_eq_some_iff.1 (hfits.symm.trans hg)
    obtain ⟨-, hnd, -⟩ := (h.hands t hd hhand).fresh g hf
    exact absurd (hnd.symm.trans hgone.destroyed) (by simp)

/-- A new subscription is of a generation that is not gone. -/
theorem frames_listen (h : Supervised lapsed lost φ v) {s : Standing}
    (hs : v.tasks t = some s) (hlive : s.ended = false) (hfits : (φ t).Fits s.job) {l : LockId}
    {r : Reaction} (hr : ∀ g, r.home? = some g → (φ t).home = some g) :
    v.Frames { v with locks := (v.locks.subscribe l .all r).2 } := by
  refine .of_locks (Nat.le_refl _) (.subscribe ..) fun l' x' hx' sub hsub => ?_
  by_cases hl : l' = l
  · subst hl
    cases hx : v.locks.lock? l' with
    | none =>
      rw [LockTable.subscribe, LockTable.lock?_modify, if_pos rfl, hx] at hx'
      exact absurd hx' (by simp)
    | some x =>
      rw [LockTable.lock?_subscribe hx, Option.some.injEq] at hx'
      subst hx'
      simp only at hsub
      split at hsub
      · exact .inl ⟨x, rfl, hsub⟩
      · rcases List.mem_append.1 hsub with hsub | hsub
        · exact .inl ⟨x, rfl, hsub⟩
        · rw [List.mem_singleton.1 hsub]
          exact .inr fun g hg => h.not_gone hs hlive hfits (hr g hg)
  · rw [LockTable.lock?_subscribe_of_ne hl] at hx'
    exact .inl ⟨x', hx', hsub⟩

/-- Every step of a thread keeps the invariant. -/
theorem effect (h : Supervised lapsed lost φ v) (hv : v.Sound e) {s : Standing}
    (hs : v.tasks t = some s) (hlive : s.ended = false) (hfits : (φ t).Fits s.job)
    (heff : Effect e t (φ t) v γ' v') : Supervised lapsed lost (setStage φ t γ') v' := by
  have hframe : v.Frames v' → γ' = φ t → Supervised lapsed lost (setStage φ t γ') v' := by
    rintro hf rfl
    rw [setStage_self]
    exact h.frame hf
  cases heff with
  | idle => exact hframe (.refl v) rfl
  | draw hi => exact hframe (.draw hi) rfl
  | touch hf => exact hframe ((View.Frames.refl v).modifyGeneration _ hf) rfl
  | spawn hi => exact hframe (.spawn hv hi ..) rfl
  | obtain => exact hframe (.of_sheds (.obtain ..) (.obtain _ _ _ _)) rfl
  | listen hr hhome hg =>
    refine hframe ((h.frames_listen hs hlive hfits fun g' hg' => ?_).modifyGeneration _
      (GenerationState.keepsTasks_addListener _ _)) rfl
    rcases hhome with hnone | hsome
    · exact absurd (hg'.symm.trans hnone) (by simp)
    · rw [Option.some.inj (hg'.symm.trans hsome), hg]
  | signal => exact hframe (.of_sheds (.deliver ..) (.deliver _ _ _)) rfl
  | cancel => exact hframe ((View.Frames.refl v).cancelAll _) rfl
  | abort => exact hframe ((View.Frames.refl v).cancelAll [_]) rfl
  | release => exact hframe (.of_sheds (.release hv.locks _) (.release hv.locks _)) rfl
  | releaseAll => exact hframe (.of_sheds (.releaseAll hv.locks) (.releaseAll hv.locks)) rfl
  | @unlisten _ _ _ ss =>
    have hthin := LockTable.Thinned.unsubscribeAll v.locks ss
    exact hframe ((View.Frames.of_sheds hthin.le (.thinned hthin)).modifyGeneration _
      GenerationState.keepsTasks_dropListeners) rfl
  | put _ howed hstores => exact h.put howed hstores
  | enter _ ht hfree => exact h.enter ht hfree
  | @yield hd holder ht hfree =>
    have h' := h.drop (t := t) (γ := { φ t with hand := none }) rfl id (.inr fun _ h => h)
      (fun _ h => h) (fun _ h => .inl h) fun hd' n s hhand hhas _ => by
        obtain rfl : hd = hd' := Option.some.inj (ht.symm.trans hhand)
        exact absurd hhas (hfree.not_has n)
    refine h'.pass fun u hd' hu => ?_
    obtain ⟨-, hhand⟩ := h.hand_set ht hu
    exact absurd hhand (by simp)
  | @miss id hid =>
    refine h.restage (fun u => ?_) fun id' x hx ho => ho.set fun hmem => ?_
    · by_cases hu : u = t
      · rw [hu, setStage_same]
      · rw [setStage_of_ne hu]
    · refine List.mem_filter.2 ⟨hmem, ?_⟩
      have hne : id' ≠ id := fun heq => by
        rw [heq, hid] at hx
        exact absurd hx (by simp)
      simpa using hne
  | take ht hfree hx hst => exact h.take hv ht hfree hx hst
  | takeAll ht hfree => exact h.takeAll hv ht hfree
  | withdraw ht hfree hx => exact h.withdraw hv ht hfree hx
  | destroy ht hn hnone => exact h.destroy ht hn hnone
  | awaited ht hn hu => exact h.awaited ht hn hu
  | bury ht hn hgen => exact h.bury hv ht hn hgen
  | mark ht hfree hsrc hf =>
    rw [setStage_self]
    exact h.mark ht hfree hsrc hf
  | renew ht hfree hsrc hc => exact h.renew hv ht hfree hsrc hc
  | install ht hg => exact h.install ht hg

/-- So does every step of a dialogue. -/
theorem talk (h : Supervised lapsed lost φ v) (hv : v.Sound e) (htalk : Talk e σ v σ' v') :
    Supervised lapsed lost φ v' := by
  have hregister : ∀ (i : Nat) (l : LockId) (f : SignalFilter), v.issued ≤ i →
      v.Frames { v with issued := i, locks := (v.locks.register l f).2 } := by
    intro i l f hi
    refine .of_locks hi (.register ..) fun l' x' hx' s hs => .inl ?_
    by_cases hl : l' = l
    · subst hl
      cases hx : v.locks.lock? l' with
      | none =>
        rw [LockTable.register_of_none hx] at hx'
        exact absurd (hx.symm.trans hx') (by simp)
      | some x =>
        obtain ⟨ws, hws, -⟩ := LockTable.lock?_register hx f
        obtain rfl := Option.some.inj (hws.symm.trans hx')
        exact ⟨x, rfl, hs⟩
    · rw [LockTable.lock?_register_of_ne hl] at hx'
      exact ⟨x', hx', hs⟩
  cases htalk with
  | doze => exact h.frame (hregister _ _ _ (Nat.le_refl _))
  | wake | conclude => exact h.frame (.of_sheds (.close ..) (.close _ _))
  | enroll => exact h.frame (hregister _ _ _ (Nat.le_succ _))
  | request => exact h.frame (.of_sheds (.deliver ..) (.deliver _ _ _))
  | @startBody _ a _ _ _ _ d arguments returns s =>
    exact h.frame (.spawn hv (Nat.le_succ v.issued) _ _ (a.body d arguments returns v.issued))

end Supervised

/-- A thread that acts for the generation of its task, or for the one it starts, goes on to do so. -/
theorem Effect.fits (heff : Effect e t γ v γ' v') {s : Standing} (hs : v.tasks t = some s)
    (hfits : γ.Fits s.job) : γ'.Fits s.job := by
  cases hj : s.job with
  | some j =>
    rw [hj] at hfits
    obtain rfl : γ = .ofHome j.home? := hfits
    have hcaller : ¬ v.IsCaller t := by
      rintro ⟨s', hs', hnone⟩
      obtain rfl : s = s' := Option.some.inj (hs.symm.trans hs')
      exact absurd (hj.symm.trans hnone) (by simp)
    cases heff with
    | put hc | enter hc => exact absurd hc hcaller
    | miss => rfl
    | yield hh | take hh | takeAll hh | withdraw hh | destroy hh | awaited hh | bury hh
    | renew hh | install hh => cases hh
    | _ => rfl
  | none =>
    rw [hj] at hfits
    have hfits : γ.home = γ.hand.bind (·.fresh) := hfits
    have hfree : ∀ h, γ.hand = some h → h.IsFree → γ.home = none := by
      intro h hh hf
      rw [hfits, hh]
      exact hf.fresh
    change γ'.home = γ'.hand.bind (·.fresh)
    cases heff with
    | enter _ hh => rw [hfits, hh]; rfl
    | yield hh hf | take hh hf | takeAll hh hf | withdraw hh hf => exact hfree _ hh hf
    | destroy hh | awaited hh | bury hh => rw [hfits, hh]; rfl
    | renew | install => rfl
    | _ => exact hfits

end BlockEngine
