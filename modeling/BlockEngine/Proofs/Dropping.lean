import BlockEngine.Proofs.Clearing

/-!
# Calls that are dropped

A caller can drop its call wherever that stands. What it had in hand is then in nobody's hand.

* `Concludes` : a caller that has the turn comes to the end of its call;
* `Concludes.workers` : which generations have live tasks then, and which never have one again;
* `Concludes.attended` : calls that are dropped without the turn make no difference;
* `Adrift` : a generation that takes tasks while it is neither recorded nor in a hand;
  `Adrift.run` : every run keeps it so;
* `Run.adrift` : no call ends a generation that was not recorded yet when its call was dropped;
* `adrift_after_release` : a task of such a generation goes on after the release of its tab.
-/

namespace BlockEngine

variable {e : Engine} {c t u : TaskId} {γ γ' : Stage} {v v' : View} {φ φ' : TaskId → Stage}
  {ψ ψ' : TaskId → Stance} {log log' ds : List Deed} {m m' m₁ m₂ : Machine} {n : Nat} {hd : Hand}
  {p : Execution Unit}

/-! ## Once a call has come to its end -/

/-- What a thread has in hand after a move that is no step of it, it had before. -/
theorem Passage.hand_of_others (h : Passage e log m φ ψ ds v' φ' ψ')
    (hds : ∀ p w, .performed u p w ∉ ds) (hu : (φ' u).hand = some hd) : (φ u).hand = some hd := by
  cases h with
  | change =>
    rwa [setStage_of_ne (by rintro rfl; exact hds _ _ (List.mem_singleton_self _))] at hu
  | store | reply | still => exact hu
  | @depart t _ γ _ _ _ hrest =>
    by_cases hut : u = t
    · subst hut
      rw [setStage_same] at hu
      exact absurd (hrest.1.symm.trans hu) nofun
    · rwa [setStage_of_ne hut] at hu

/-- If the caller that has the turn has nothing in hand after a move of its own, nobody has. -/
theorem Passage.free (h : Passage e log m φ ψ ds v' φ' ψ') (hc : Conducted e log m φ ψ)
    (hturn : m.world.turn.holder = some c) (hds : ∀ t p w, .performed t p w ∈ ds → t = c)
    (hrest : (φ' c).hand = none) (t : TaskId) : (φ' t).hand = none := by
  refine Option.eq_none_iff_forall_not_mem.2 fun hd hhand => ?_
  by_cases htc : t = c
  · subst htc
    exact absurd (hrest.symm.trans hhand) nofun
  · -- Before the move only the caller can have had anything in hand.
    have hbefore := h.hand_of_others (fun p w hmem => htc (hds t p w hmem)) hhand
    exact htc (Option.some.inj ((hc.supervised.holder t hd hbefore).symm.trans hturn))

namespace Outgoing

/-- As long as nobody has anything in hand, what is not recorded is on its way out. -/
theorem of_free {S : TaskId → Prop} (hfree : ∀ t, (φ t).hand = none)
    (hmade : ∃ s, v.generation? n = some s) (hunrecorded : ¬ v.Records n) : Outgoing S φ v n where
  made := hmade
  unrecorded := hunrecorded
  unstarted t _ _ hhand := absurd ((hfree t).symm.trans hhand) nofun
  held t _ hhand := absurd ((hfree t).symm.trans hhand) nofun

/-- What is gone stays so, and no call that is dropped later loses it. -/
theorem gone_run (he : e.Orderly) (hc : Conducted e log m φ ψ)
    (h : Outgoing (fun _ => False) φ m.world.view n) (hlost : ¬ Lost log n)
    (hrun : Run e m log' m') : m'.world.view.Gone n := by
  suffices ∃ φ' ψ', Conducted e (log ++ log') m' φ' ψ' ∧
      Outgoing (fun _ => False) φ' m'.world.view n ∧ ¬ Lost (log ++ log') n by
    obtain ⟨φ', ψ', hc', h', hlost'⟩ := this
    exact h'.gone hc' hlost'
  induction hrun with
  | refl => exact ⟨φ, ψ, by rwa [List.append_nil], h, by rwa [List.append_nil]⟩
  | @move log₁ ds m₁ m₂ _ hmove ih =>
    obtain ⟨φ₁, ψ₁, hc₁, h₁, hlost₁⟩ := ih
    obtain ⟨φ₂, ψ₂, hpass, hc₂⟩ := hc₁.move he hmove
    rw [← List.append_assoc]
    refine ⟨φ₂, ψ₂, hc₂, h₁.passage hc₁.sound hpass, ?_⟩
    rintro ⟨t, w, hmem, hrest⟩
    rcases List.mem_append.1 hmem with hmem | hmem
    · exact hlost₁ ⟨t, w, hmem, hrest⟩
    · cases hmove with
      | drop =>
        cases List.mem_singleton.1 hmem
        exact hrest.2.2.2 (h₁.gone hc₁ hlost₁)
      | perform => cases List.mem_singleton.1 hmem
      | _ => cases hmem

end Outgoing

/-- A caller that has the turn performs the last step of its call. -/
structure Concludes (e : Engine) (c : TaskId) (p : Execution Unit) (m m' : Machine) : Prop where
  caller : m.world.IsCaller c
  holder : m.world.turn.holder = some c
  step : Move e m [.performed c p m.world] m'
  done : m'.threads[c]? = some (.done ())

namespace Concludes

/-- Nobody has anything in hand then. -/
theorem free (h : Concludes e c p m m') (he : e.Orderly) (hc : Conducted e log m φ ψ) :
    ∃ φ' ψ', Conducted e (log ++ [.performed c p m.world]) m' φ' ψ' ∧
      ∀ t, (φ' t).hand = none := by
  obtain ⟨φ', ψ', hpass, hc'⟩ := hc.move he h.step
  obtain ⟨s, hs, hjob⟩ := Conducted.caller_of (Reached.isCaller_of_le h.caller (hpass.le hc.sound))
  obtain ⟨s', hs', -, -, hcarries⟩ := (hc'.task c).carries _ h.done
  obtain rfl : s = s' := Option.some.inj (hs.symm.trans hs')
  refine ⟨φ', ψ', hc', hpass.free hc h.holder (fun t q w hmem => ?_) (hcarries.of_done.2.1 hjob).1⟩
  exact (Deed.performed.inj (List.mem_singleton.1 hmem)).1

/-- Every live task works for the generation that its tab records, or for one that a dropped call
has lost. The other generations there are by then never have a live task again. -/
theorem workers (he : e.HasCore) {capacity : Nat} (hrun : Run e (.start capacity) log m)
    (h : Concludes e c p m m₁) (hlater : Run e m₁ log' m₂) :
    (∀ t j s, m₁.world.IsLive t j → m₁.world.generation? j.owner = some s →
      (∃ g, Supervisor.generation? m₁.world s.tab = some g ∧ g.number = j.owner) ∨
        Lost log j.owner) ∧
    ∀ n s, m₁.world.generation? n = some s → ¬ m₁.world.view.Records n → ¬ Lost log n →
      m₂.world.isDestroyed n = true ∧ ∀ t j, m₂.world.IsLive t j → j.owner ≠ n := by
  have horderly := Engine.orderly_of_core he
  obtain ⟨φ, ψ, hc⟩ := Conducted.run horderly hrun
  obtain ⟨φ₁, ψ₁, hc₁, hfree⟩ := h.free horderly hc
  refine ⟨fun t j s hlive hs => ?_, fun n s hs hunrecorded hlost => ?_⟩
  · obtain ⟨x, hx, hj, hend⟩ := Conducted.standing_of_live hlive
    rcases hc₁.recorded_or_gone hfree hs with hrecorded | hgone | hlost
    · exact .inl hrecorded
    · exact absurd (hend.symm.trans (hgone.quiet t x j hx hj rfl)) nofun
    · rw [lost_append] at hlost
      exact .inr hlost
  · have hout : Outgoing (fun _ => False) φ₁ m₁.world.view n := .of_free hfree ⟨s, hs⟩ hunrecorded
    have hgone := hout.gone_run horderly hc₁ (by rwa [lost_append]) hlater
    refine ⟨hgone.destroyed, fun t j hlive howner => ?_⟩
    obtain ⟨x, hx, hj, hend⟩ := Conducted.standing_of_live hlive
    exact absurd (hend.symm.trans (hgone.quiet t x j hx hj howner)) nofun

/-- If no call was dropped that had the turn, what runs in a tab is tracked by the generation that
the tab records. -/
theorem attended (he : e.HasCore) {capacity : Nat} (hrun : Run e (.start capacity) log m)
    (hkept : ∀ t w, .dropped t w ∈ log → w.turn.holder ≠ some t) (h : Concludes e c p m m₁)
    (id : String) : m₁.world.Attended id := by
  have horderly := Engine.orderly_of_core he
  obtain ⟨φ, ψ, hc⟩ := Conducted.run horderly hrun
  obtain ⟨φ₁, ψ₁, hc₁, hfree⟩ := h.free horderly hc
  refine hc₁.attended hfree (fun n hlost => ?_) id
  rw [lost_append] at hlost
  obtain ⟨t, w, hmem, hturn, -⟩ := hlost
  exact hkept t w hmem hturn

end Concludes

/-! ## What a step does to one generation -/

namespace Effect

/-- Only who has a generation in hand destroys it. -/
theorem isDestroyed (h : Effect e t γ v γ' v') (hv : v.Sound e)
    (hmade : ∃ s, v.generation? n = some s) (hfree : ∀ hd, γ.hand = some hd → ¬ hd.Has n) :
    v'.isDestroyed n = v.isDestroyed n := by
  have hle := h.le hv
  cases h with
  | touch hf => exact View.isDestroyed_modifyGeneration v _ (fun s => (hf s).2.2) n
  | listen | unlisten =>
    rw [View.isDestroyed_modifyGeneration]
    · rfl
    · exact fun _ => rfl
  | spawn => exact View.Calm.spawn.isDestroyed hle n
  | cancel => exact (View.Calm.cancelAll ..).isDestroyed hle n
  | @abort _ _ u => exact (View.Calm.cancelAll v [u]).isDestroyed hle n
  | destroy hhand htaken =>
    exact View.isDestroyed_destroy_of_ne v _ fun hn =>
      hfree _ hhand (.inl (htaken ▸ hn ▸ List.mem_cons_self))
  | mark | install =>
    unfold View.modifyTab
    split <;> rfl
  | renew =>
    obtain ⟨s, hs⟩ := hmade
    have hne : n ≠ v.issued := by
      rintro rfl
      exact absurd (hv.not_issued.symm.trans hs) nofun
    unfold View.isDestroyed View.generation?
    rw [View.get?_generations_insert, if_neg hne]
    rfl
  | _ => rfl

/-- Whose end is awaited after a step was awaited before, or is tracked by a generation in hand. -/
theorem awaited_of_awaited (h : Effect e t γ v γ' v') {k : Nat} {ts : List TaskId}
    (hhand : γ'.hand = some hd) (hend : hd.ending = some (k, ts)) (hu : u ∈ ts) :
    ∃ hd, γ.hand = some hd ∧ ((∃ ts, hd.ending = some (k, ts) ∧ u ∈ ts) ∨
      k ∈ hd.taken ∧ ∃ s, v.generation? k = some s ∧ ∃ y ∈ s.tracked, y.task = u) := by
  cases h with
  | enter | take | withdraw | takeAll | bury =>
    obtain rfl := Option.some.inj hhand
    cases hend
  | yield => cases hhand
  | @destroy hd₀ k' rest hhand₀ htaken =>
    obtain rfl := Option.some.inj hhand
    obtain ⟨rfl, rfl⟩ := Prod.mk.inj (Option.some.inj hend)
    refine ⟨hd₀, hhand₀, .inr ⟨htaken ▸ List.mem_cons_self, ?_⟩⟩
    obtain ⟨y, hy, rfl⟩ := List.mem_map.1 hu
    cases hs : v.generation? k' with
    | none => rw [hs] at hy; cases hy
    | some s => exact ⟨s, rfl, y, by rwa [hs] at hy, rfl⟩
  | @awaited hd₀ k' u' ts' hhand₀ hend₀ =>
    obtain rfl := Option.some.inj hhand
    obtain ⟨rfl, rfl⟩ := Prod.mk.inj (Option.some.inj hend)
    exact ⟨hd₀, hhand₀, .inl ⟨_, hend₀, List.mem_cons_of_mem _ hu⟩⟩
  | @renew hd₀ _ _ _ _ hhand₀ | @install hd₀ _ hhand₀ =>
    obtain rfl := Option.some.inj hhand
    exact ⟨hd₀, hhand₀, .inl ⟨ts, hend, hu⟩⟩
  | _ => exact ⟨hd, hhand, .inl ⟨ts, hend, hu⟩⟩

/-- A caller cancels no task but those whose end it awaits. -/
theorem tasks_of_caller (h : Effect e t γ v γ' v') (hv : v.Sound e) (hcaller : v.IsCaller t)
    (hspared : ∀ hd k ts, γ.hand = some hd → hd.ending = some (k, ts) → u ∉ ts) {x : Standing}
    (hx : v.tasks u = some x) : v'.tasks u = some x := by
  cases h with
  | touch | listen | unlisten | destroy =>
    exact (congrFun (View.tasks_modifyGeneration ..) u).trans hx
  | spawn =>
    refine View.tasks_spawn_of_some ?_ ?_ _ _ _ _
    · exact hv.tasksNumbered
    · exact hx
  | cancel hjob =>
    obtain ⟨s, hs, hj⟩ := hjob
    obtain ⟨s', hs', hnone⟩ := hcaller
    obtain rfl : s = s' := Option.some.inj (hs.symm.trans hs')
    exact absurd (hj.symm.trans hnone) nofun
  | @abort hd k u' ts hhand hend hmem =>
    have hne : u ≠ u' := fun hu => hspared hd k ts hhand hend (hu ▸ hmem)
    unfold View.cancel
    rwa [View.tasks_modifyTask, if_neg hne]
  | mark | install =>
    unfold View.modifyTab
    split <;> exact hx
  | _ => exact hx

end Effect

/-- In a call of a procedure all tasks stay as they are. -/
theorem Talk.tasks {σ σ' : Stance} (h : Talk e σ v σ' v') (hv : v.Sound e) {x : Standing}
    (hx : v.tasks u = some x) : v'.tasks u = some x := by
  cases h with
  | startBody =>
    refine View.tasks_spawn_of_some ?_ ?_ _ _ _ _
    · exact hv.tasksNumbered
    · exact hx
  | _ => exact hx

/-! ## Generations adrift -/

/-- The generation takes tasks, and it is neither recorded nor in a hand. Nobody awaits the end of a
task of it. -/
structure Adrift (φ : TaskId → Stage) (v : View) (n : Nat) : Prop
    extends Outgoing (fun _ => False) φ v n where
  alive : v.isDestroyed n = false
  spared : ∀ t hd k ts, (φ t).hand = some hd → hd.ending = some (k, ts) → ∀ u ∈ ts,
    ∃ x j, v.tasks u = some x ∧ x.job = some j ∧ j.owner ≠ n

namespace Adrift

/-- As long as nobody has anything in hand, what takes tasks and is not recorded is adrift. -/
theorem of_free (hfree : ∀ t, (φ t).hand = none) (halive : v.isDestroyed n = false)
    (hunrecorded : ¬ v.Records n) : Adrift φ v n where
  toOutgoing :=
    have ⟨s, hs, _⟩ := View.exists_of_isDestroyed halive
    .of_free hfree ⟨s, hs⟩ hunrecorded
  alive := halive
  spared t _ _ _ hhand := absurd ((hfree t).symm.trans hhand) nofun

theorem effect (h : Adrift φ v n) (hv : v.Sound e) (howns : v.Owns)
    (heff : Effect e t (φ t) v γ' v') : Adrift (setStage φ t γ') v' n where
  toOutgoing := h.toOutgoing.effect hv heff
  alive := (heff.isDestroyed hv h.made fun hd hhand hhas => h.held t hd hhand hhas).trans h.alive
  spared u hd k ts hhand hend y hy := by
    have hlater : (∃ x j, v.tasks y = some x ∧ x.job = some j ∧ j.owner ≠ n) →
        ∃ x j, v'.tasks y = some x ∧ x.job = some j ∧ j.owner ≠ n := by
      rintro ⟨x, j, hx, hj, hne⟩
      obtain ⟨x', hx', hj', -⟩ := (heff.le hv).task y x hx
      exact ⟨x', j, hx', hj'.trans hj, hne⟩
    by_cases hut : u = t
    · subst hut
      rw [setStage_same] at hhand
      obtain ⟨hd₀, hhand₀, ⟨ts₀, hend₀, hy₀⟩ | ⟨htaken, s, hs, z, hz, rfl⟩⟩ :=
        heff.awaited_of_awaited hhand hend hy
      · exact hlater (h.spared u hd₀ k ts₀ hhand₀ hend₀ y hy₀)
      · obtain ⟨x, j, hx, hj, howner⟩ := (howns k s hs).tracked z hz
        refine hlater ⟨x, j, hx, hj, fun hn => ?_⟩
        exact h.held u hd₀ hhand₀ (.inl (hn ▸ howner ▸ htaken))
    · rw [setStage_of_ne hut] at hhand
      exact hlater (h.spared u hd k ts hhand hend y hy)

/-- Tabs stay as they are, no generation is destroyed, and no thread has more in hand. -/
theorem of_tabs (h : Adrift φ v n) (hle : v ≤ v') (htabs : v'.tabs = v.tabs)
    (hdestroyed : v'.isDestroyed n = v.isDestroyed n)
    (hhand : ∀ t hd, (φ' t).hand = some hd → (φ t).hand = some hd) : Adrift φ' v' n where
  toOutgoing := h.toOutgoing.of_tabs hle htabs hhand
  alive := hdestroyed.trans h.alive
  spared t hd k ts ht hend u hu := by
    obtain ⟨x, j, hx, hj, hne⟩ := h.spared t hd k ts (hhand t hd ht) hend u hu
    obtain ⟨x', hx', hj', -⟩ := hle.task u x hx
    exact ⟨x', j, hx', hj'.trans hj, hne⟩

theorem passage (h : Adrift φ m.world.view n) (hv : m.world.view.Sound e)
    (howns : m.world.view.Owns) (hp : Passage e log m φ ψ ds v' φ' ψ') : Adrift φ' v' n := by
  have hle := hp.le hv
  have hothers : ∀ u hd, (∀ p w, .performed u p w ∉ ds) → (φ' u).hand = some hd →
      (φ u).hand = some hd := fun _ _ => hp.hand_of_others
  cases hp with
  | @change t _ _ γ' σ' _ _ _ _ hchange =>
    generalize ψ t = σ at hchange
    cases hchange with
    | effect heff => exact h.effect hv howns heff
    | talk htalk =>
      rw [setStage_self]
      exact h.of_tabs hle htalk.tabs (htalk.calm.1.isDestroyed hle n) fun _ _ => id
  | @store _ _ _ b =>
    exact h.of_tabs hle (View.tabs_modifyGeneration ..)
      (View.isDestroyed_modifyGeneration _ _
        (fun s => (GenerationState.keepsTasks_store b.id _ _ s).2.2) n) fun _ _ => id
  | reply => exact h.of_tabs hle rfl rfl fun _ _ => id
  | depart hds _ _ hsettles =>
    exact h.of_tabs hle hsettles.tabs ((View.Calm.settles hsettles).isDestroyed hle n)
      fun u hd => hothers u hd (hds u)
  | still hsettles =>
    exact h.of_tabs hle hsettles.tabs ((View.Calm.settles hsettles).isDestroyed hle n)
      fun _ _ => id

/-- Every run keeps it so. -/
theorem run (he : e.Orderly) (hc : Conducted e log m φ ψ) (howns : m.world.view.Owns)
    (h : Adrift φ m.world.view n) (hrun : Run e m log' m') :
    ∃ φ' ψ', Conducted e (log ++ log') m' φ' ψ' ∧ m'.world.view.Owns ∧
      Adrift φ' m'.world.view n := by
  induction hrun with
  | refl => exact ⟨φ, ψ, by rwa [List.append_nil], howns, h⟩
  | move _ hmove ih =>
    obtain ⟨φ₁, ψ₁, hc₁, howns₁, h₁⟩ := ih
    obtain ⟨φ₂, ψ₂, hp, hc₂⟩ := hc₁.move he hmove
    exact ⟨φ₂, ψ₂, by rwa [← List.append_assoc], hp.owns hc₁.sound howns₁,
      h₁.passage hc₁.sound howns₁ hp⟩

/-- A step of a caller leaves the tasks of the generation as they are. -/
theorem step_of_caller (h : Adrift φ m.world.view n) (he : e.Orderly) (hc : Conducted e log m φ ψ)
    (hcaller : m.world.IsCaller t) {q : Execution Unit} {w : World} (hp : m.threads[t]? = some p)
    (hstep : e.step t m.world p = some (q, w)) {x : Standing} {j : Job}
    (hx : m.world.view.tasks u = some x) (hj : x.job = some j) (howner : j.owner = n) :
    w.view.tasks u = some x := by
  obtain ⟨φ', ψ', hpass, -⟩ := hc.perform he hp hstep
  obtain ⟨s, hs, hjob⟩ := Conducted.caller_of hcaller
  have hspared : ∀ hd k ts, (φ t).hand = some hd → hd.ending = some (k, ts) → u ∉ ts := by
    intro hd k ts hhand hend hmem
    obtain ⟨x', j', hx', hj', hne⟩ := h.spared t hd k ts hhand hend u hmem
    obtain rfl : x = x' := Option.some.inj (hx.symm.trans hx')
    obtain rfl : j = j' := Option.some.inj (hj.symm.trans hj')
    exact hne howner
  generalize hds : [Deed.performed t p m.world] = ds at hpass
  generalize w.view = v' at hpass ⊢
  cases hpass with
  | @change t' _ _ _ _ _ _ _ _ hchange =>
    obtain ⟨rfl, -, -⟩ := Deed.performed.inj (List.cons.inj hds).1
    generalize ψ t = σ at hchange
    cases hchange with
    | effect heff => exact heff.tasks_of_caller hc.sound ⟨s, hs, hjob⟩ hspared hx
    | talk htalk => exact htalk.tasks hc.sound hx
  | store => exact (congrFun (View.tasks_modifyGeneration ..) u).trans hx
  | reply => exact hx
  | depart hds' => exact absurd (hds ▸ List.mem_singleton_self _) (hds' t p m.world)
  | still => cases hds

end Adrift

/-- A generation that takes tasks and is not recorded when a caller that has the turn drops its call
is never destroyed and never recorded, and no step of a caller ends or cancels a task of it. -/
theorem Run.adrift (he : e.HasCore) {capacity : Nat} (hrun : Run e (.start capacity) log m)
    (hturn : m.world.turn.holder = some c) (hdrop : Move e m [.dropped c m.world] m₁)
    (halive : m.world.isDestroyed n = false) (hunrecorded : ¬ m.world.view.Records n)
    (hlater : Run e m₁ log' m') :
    m'.world.isDestroyed n = false ∧ ¬ m'.world.view.Records n ∧
      ∀ t p q w, m'.world.IsCaller t → m'.threads[t]? = some p →
        e.step t m'.world p = some (q, w) → ∀ u j, m'.world.IsLive u j → j.owner = n →
          w.IsLive u j ∧ Machine.isCancelled w u = Machine.isCancelled m'.world u := by
  have horderly := Engine.orderly_of_core he
  obtain ⟨φ, ψ, hc⟩ := Conducted.run horderly hrun
  obtain ⟨φ₁, ψ₁, hpass, hc₁⟩ := hc.move horderly hdrop
  obtain ⟨hrest, halive₁, hunrecorded₁⟩ : (φ₁ c).hand = none ∧
      m₁.world.view.isDestroyed n = false ∧ ¬ m₁.world.view.Records n := by
    cases hdrop with
    | drop hcaller hp =>
      obtain ⟨holder, locks, hview, -⟩ := World.view_forsake m.world c _
      refine ⟨((hc₁.task c).resting ?_).1.1, ?_, ?_⟩
      · rw [threads_erase, if_pos rfl]
      · rw [hview]
        exact halive
      · rw [hview]
        exact hunrecorded
  have hfree := hpass.free hc hturn (fun t p w hmem => nomatch List.mem_singleton.1 hmem) hrest
  obtain ⟨φ', ψ', hc', -, h'⟩ := (Adrift.of_free hfree halive₁ hunrecorded₁).run horderly hc₁
    ((hrun.move hdrop).owns horderly) hlater
  refine ⟨h'.alive, h'.unrecorded, fun t p q w hcaller hp hstep u j hlive howner => ?_⟩
  obtain ⟨r, hr, hj, hend⟩ := hlive
  have hsame : w.view.tasks u = some r.standing :=
    h'.step_of_caller horderly hc' hcaller hp hstep (by rw [World.view_tasks, hr]; rfl) hj howner
  obtain ⟨r', hr', hstanding⟩ := Option.map_eq_some_iff.1 hsame
  refine ⟨⟨r', hr', (congrArg Standing.job hstanding).trans hj,
    (congrArg Standing.ended hstanding).trans hend⟩, ?_⟩
  unfold Machine.isCancelled
  rw [hr, hr']
  exact congrArg Standing.cancelled hstanding

/-- From then on its tab is not attended. -/
theorem Run.unattended (he : e.HasCore) {capacity : Nat} (hrun : Run e (.start capacity) log m)
    (hturn : m.world.turn.holder = some c) (hdrop : Move e m [.dropped c m.world] m₁)
    {s : GenerationState} (hs : m.world.generation? n = some s) (halive : s.destroyed = false)
    (hunrecorded : ¬ m.world.view.Records n) (hlater : Run e m₁ log' m') :
    ¬ m'.world.Attended s.tab := by
  intro hattended
  have horderly := Engine.orderly_of_core he
  obtain ⟨φ, ψ, hc⟩ := Conducted.run horderly hrun
  obtain ⟨φ', ψ', -, hle⟩ := hc.extend horderly ((Run.single hdrop).trans hlater)
  obtain ⟨s', hs', htab, -⟩ := hle.generation n s hs
  obtain ⟨halive', hunrecorded', -⟩ := hrun.adrift he hturn hdrop
    ((View.isDestroyed_of_some (v := m.world.view) hs).trans halive) hunrecorded hlater
  have hlive : s'.destroyed = false := (View.isDestroyed_of_some hs').symm.trans halive'
  obtain ⟨g, hg, hn⟩ := hattended.only n s' hs' htab hlive
  obtain ⟨x, hx, hgen⟩ := Option.bind_eq_some_iff.1 hg
  exact hunrecorded' ⟨_, x, g, hx, hgen, hn⟩

/-! ## A call that is dropped while it waits, and one while it starts a tab -/

namespace Script

/-- A tab with a hat that listens to a variable, and waits when that is written. -/
def pausing : String :=
  document [
    block "h" "data_onchange_variable"
      "\"topLevel\":true,\"next\":\"w\",\"fields\":\x7b\"VARIABLE\":[\"v\",\"v1\"]\x7d",
    block "w" "control_wait"
      "\"topLevel\":false,\"parent\":\"h\",\"inputs\":\x7b\"DURATION\":[1,[4,\"5\"]]\x7d"]

/-- A tab that writes the variable. -/
def writing : String :=
  document [
    block "s" "data_setvariableto"
      ("\"topLevel\":true,\"fields\":\x7b\"VARIABLE\":[\"v\",\"v1\"]\x7d," ++
        "\"inputs\":\x7b\"ITEM\":[1,[10,\"x\"]]\x7d")]

/-- Whether the next step of a caller that has the turn is the last one of its call. -/
def isConcluding (c : TaskId) (m : Machine) : Bool :=
  m.isCaller c && decide (m.world.turn.holder = some c) &&
    (m.threads[c]?).any fun p => (engine.step c m.world p).any fun r =>
      match r.1 with
      | .done () => true
      | _ => false

theorem concludes_of_isConcluding (h : isConcluding c m = true) :
    ∃ p m', Concludes engine c p m m' := by
  obtain ⟨h, hlast⟩ := Bool.and_eq_true_iff.1 h
  obtain ⟨hcaller, hholder⟩ := Bool.and_eq_true_iff.1 h
  obtain ⟨p, hp, hlast⟩ := (Option.any_eq_true _ _).1 hlast
  obtain ⟨⟨q, w⟩, hstep, hlast⟩ := (Option.any_eq_true _ _).1 hlast
  refine ⟨p, _, Machine.isCaller_of_isCaller hcaller, of_decide_eq_true hholder,
    .perform hp hstep, ?_⟩
  rw [threads_insert, if_pos rfl]
  cases q with
  | done => rfl
  | _ => cases hlast

/-- Whether a deed takes nothing from a caller that has the turn. -/
def keepsTurn : Deed → Bool
  | .performed .. => true
  | .dropped t w => decide (w.turn.holder ≠ some t)

/-- A tab is saved, and a call that waits meanwhile to reload it is dropped. -/
def untilSaved : List Line :=
  [.appear, .call 0 (.save "a" pausing), .perform 0 100, .call 1 (.reload "a"), .perform 1 100,
    .drop 1, .begin 2, .perform 2 100, .finish 2, .perform 0 2]

/-- After the call has been dropped the hat listens, another tab writes the variable, what the hat
starts waits, and the tab is released. -/
def untilReleased : List Line :=
  [.begin 1, .perform 1 100, .finish 1, .call 0 (.save "b" writing), .perform 0 100, .return 0,
    .begin 2, .perform 2 100, .finish 2, .begin 3, .perform 3 100, .call 0 (.release "a"),
    .perform 0 100, .return 0]

/-- Whether a generation of a tab takes tasks while no tab records it. -/
def isUnrecorded (n : Nat) (id : String) (w : World) : Bool :=
  !w.recordsAny n && (w.generation? n).any fun s => !s.destroyed && decide (s.tab = id)

/-- Whether a tab is stopped, with no call under way, while a task works for a generation. -/
def isStoppedBut (t : TaskId) (n : Nat) (id : String) (m : Machine) : Bool :=
  isIdle m && (m.world.tab? id).any (fun x => decide (x.status = .stopped none)) &&
    (m.liveJob? t).any fun j => decide (j.owner = n)

/-- Whether that is so in the end if the host has the turn and drops its call now. -/
def isStoppedButAfterDrop (m : Machine) : Bool :=
  m.isCaller 0 && decide (m.world.turn.holder = some 0) && isUnrecorded 0 "a" m.world &&
    (m.threads[0]?).any fun p =>
      (Machine.playAll engine ⟨Machine.forsake m.world 0 p, m.threads.erase 0⟩ untilReleased).any
        fun r => isStoppedBut 3 0 "a" r.2

end Script

/-- A call that waits for its turn is dropped; when the other one has come to its end, every tab is
attended. -/
theorem attended_after_dropped_wait :
    ∃ log m p m', Run Script.engine (.start 10) log m ∧ (∃ d ∈ log, d.isDrop = true) ∧
      Concludes Script.engine 0 p m m' ∧ ∀ id, m'.world.Attended id := by
  have hcore : Script.engine.HasCore := rfl
  obtain ⟨log, m, hrun, hf⟩ := Run.of_playAll_any (e := Script.engine) (m := .start 10)
    Script.untilSaved (f := fun log m => log.any (·.isDrop) && log.all Script.keepsTurn &&
      Script.isConcluding 0 m) (by decide +kernel)
  obtain ⟨hlog, hlast⟩ := Bool.and_eq_true_iff.1 hf
  obtain ⟨hdrop, hkept⟩ := Bool.and_eq_true_iff.1 hlog
  obtain ⟨p, m', hconcludes⟩ := Script.concludes_of_isConcluding hlast
  refine ⟨log, m, p, m', hrun, List.any_eq_true.1 hdrop, hconcludes,
    hconcludes.attended hcore hrun fun t w hmem => ?_⟩
  exact of_decide_eq_true (List.all_eq_true.1 hkept _ hmem)

/-- The call that saves a tab is dropped while the hat of the tab starts. After the release of the
tab a task of it goes on. -/
theorem adrift_after_release :
    ∃ log m m₁ log' m' j, Run Script.engine (.start 10) log m ∧
      Move Script.engine m [.dropped 0 m.world] m₁ ∧ Run Script.engine m₁ log' m' ∧
      (∀ t, m'.world.IsCaller t → m'.threads[t]? = none) ∧
      (∃ x, m'.world.tab? "a" = some x ∧ x.status = .stopped none) ∧
      m'.world.IsLive 3 j ∧ j.owner = 0 ∧ ¬ m'.world.Attended "a" := by
  have hcore : Script.engine.HasCore := rfl
  obtain ⟨log, m, hrun, hf⟩ := Run.of_playAll_any (e := Script.engine) (m := .start 10)
    [.call 0 (.save "a" Script.pausing), .perform 0 100]
    (f := fun _ m => Script.isStoppedButAfterDrop m) (by decide +kernel)
  obtain ⟨hf, hdropped⟩ := Bool.and_eq_true_iff.1 hf
  obtain ⟨hf, hunrecorded⟩ := Bool.and_eq_true_iff.1 hf
  obtain ⟨hcaller, hholder⟩ := Bool.and_eq_true_iff.1 hf
  obtain ⟨hrecords, hgeneration⟩ := Bool.and_eq_true_iff.1 hunrecorded
  obtain ⟨s, hs, hgeneration⟩ := (Option.any_eq_true _ _).1 hgeneration
  obtain ⟨halive, htab⟩ := Bool.and_eq_true_iff.1 hgeneration
  obtain ⟨p, hp, hplay⟩ := (Option.any_eq_true _ _).1 hdropped
  have hdrop : Move Script.engine m [.dropped 0 m.world] _ :=
    .drop (Machine.isCaller_of_isCaller hcaller) hp
  obtain ⟨log', m', hlater, hend⟩ := Run.of_playAll_any _
    (f := fun _ m => Script.isStoppedBut 3 0 "a" m) hplay
  obtain ⟨hend, hjob⟩ := Bool.and_eq_true_iff.1 hend
  obtain ⟨hidle, hentry⟩ := Bool.and_eq_true_iff.1 hend
  obtain ⟨x, hx, hstatus⟩ := (Option.any_eq_true _ _).1 hentry
  obtain ⟨j, hj, howner⟩ := (Option.any_eq_true _ _).1 hjob
  obtain ⟨φ, ψ, hc⟩ := Conducted.run (Engine.orderly_of_core hcore)
    ((hrun.move hdrop).trans hlater)
  have hnot : ¬ m.world.view.Records 0 := fun hrecorded => by
    rw [World.recordsAny_of_records hrecorded] at hrecords
    cases hrecords
  refine ⟨log, m, _, log', m', j, hrun, hdrop, hlater,
    Script.idle_of_isIdle hidle hc.sound.tasksNumbered, ⟨x, hx, of_decide_eq_true hstatus⟩,
    Machine.isLive_of_liveJob? hj, of_decide_eq_true howner, ?_⟩
  rw [← of_decide_eq_true htab]
  exact hrun.unattended hcore (of_decide_eq_true hholder) hdrop hs (by simpa using halive) hnot
    hlater

end BlockEngine
