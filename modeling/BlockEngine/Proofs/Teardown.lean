import BlockEngine.Proofs.Sparing

/-!
# The teardown of a tab

A caller that has the turn takes the generation of a tab out and tears it down: locks and listeners
go, the tasks are cancelled and have ended, then the locks that came meanwhile go. Others make their
moves all the time.

* `View.Confined`, `View.Holding`, `View.Stopping`, `View.Ending`, `View.Bare` : how far the teardown
  has come; `View.stable_holding` and so on : others do not turn it back;
* `Supervisor.ensures_endTasks`, `Supervisor.ensures_lastRelease` : the parts of a teardown;
* `Supervisor.clear`, `Supervisor.torn_clear` : the generation is taken out first, as release,
  deletion and reload of a tab begin.
-/

namespace BlockEngine

variable {e : Engine} {c t : TaskId} {id : String} {n : Nat} {g : Generation}
  {recorded rest : Option Generation} {v v' : View} {ts : List TaskId} {log : List Deed}
  {m m' : Machine}

/-! ## How far a teardown has come -/

namespace View

/-- For a tab the supervisor records `recorded`, and of its generations only `rest` may have
something left. -/
structure Confined (id : String) (recorded rest : Option Generation) (v : View) : Prop where
  records : (v.tab? id).bind (·.generation) = recorded
  known : Supervisor.OfTab id rest v
  others : ∀ n s, v.generation? n = some s → s.tab = id →
    (∃ g, rest = some g ∧ g.number = n) ∨ v.Spent n

/-- The one generation that may have something left takes tasks. -/
structure Holding (id : String) (recorded rest : Option Generation) (v : View) : Prop
    extends Confined id recorded rest v where
  alive : ∀ g, rest = some g → v.isDestroyed g.number = false

/-- The generation is destroyed, and its tasks that have not ended are among `ts`. -/
structure Ending (id : String) (g : Generation) (ts : List TaskId) (v : View) : Prop
    extends Confined id none (some g) v where
  destroyed : v.isDestroyed g.number = true
  live : ∀ t x j, v.tasks t = some x → x.job = some j → j.owner = g.number → x.ended = false →
    t ∈ ts

/-- Nothing is left of a tab. -/
structure Bare (id : String) (v : View) : Prop extends Confined id none none v where
  released : ∀ l x, v.locks.lock? l = some x → x.tab = id → x.released = true

/-- A task of a generation. -/
def Works (v : View) (n : Nat) (t : TaskId) : Prop :=
  ∃ x j, v.tasks t = some x ∧ x.job = some j ∧ j.owner = n

theorem Works.mono (h : v.Works n t) (hle : v ≤ v') : v'.Works n t := by
  obtain ⟨x, j, hx, hj, ho⟩ := h
  obtain ⟨x', hx', hj', -⟩ := hle.task t x hx
  exact ⟨x', j, hx', hj'.trans hj, ho⟩

theorem Confined.calm (h : Confined id recorded rest v) (hcalm : v.Calm v') (hle : v ≤ v') :
    Confined id recorded rest v' where
  records := (hcalm.recorded id).trans h.records
  known := h.known.mono hle
  others n s' hs' htab := by
    obtain ⟨s, hs, htab', -⟩ := hcalm.generation n s' hs'
    exact (h.others n s hs (htab'.symm.trans htab)).imp_right fun hspent => hspent.calm hcalm hle

theorem Holding.calm (h : Holding id recorded rest v) (hcalm : v.Calm v') (hle : v ≤ v') :
    Holding id recorded rest v' :=
  { h.toConfined.calm hcalm hle with
    alive := fun g hg => (hcalm.isDestroyed hle _).trans (h.alive g hg) }

theorem Ending.calm (h : Ending id g ts v) (hcalm : v.Calm v') (hle : v ≤ v') :
    Ending id g ts v' :=
  { h.toConfined.calm hcalm hle with
    destroyed := (hcalm.isDestroyed hle _).trans h.destroyed
    live := fun t x' j hx' hj ho hend => by
      rcases hcalm.task t x' j hx' hj with ⟨x, hx, hjob⟩ | hlive
      · refine h.live t x j hx hjob ho ?_
        obtain ⟨y, hy, -, -, hended⟩ := hle.task t x hx
        obtain rfl : x' = y := Option.some.inj (hx'.symm.trans hy)
        cases hx : x.ended with
        | false => rfl
        | true => exact absurd ((hended hx).symm.trans hend) nofun
      · rw [ho, h.destroyed] at hlive
        cases hlive }

/-- The generation is destroyed, and of its tasks `us` are still to be cancelled. -/
structure Stopping (id : String) (g : Generation) (ts us : List TaskId) (v : View) : Prop
    extends Ending id g ts v where
  works : ∀ u ∈ us, v.Works g.number u

theorem Stopping.calm {us : List TaskId} (h : Stopping id g ts us v) (hcalm : v.Calm v')
    (hle : v ≤ v') : Stopping id g ts us v' :=
  { h.toEnding.calm hcalm hle with works := fun u hu => (h.works u hu).mono hle }

/-- What only concerns the values or listeners of a generation does not matter. -/
theorem Holding.modifyGeneration (h : Holding id recorded rest v) (n : Nat)
    {f : GenerationState → GenerationState} (hf : KeepsTasks f) :
    Holding id recorded rest (v.modifyGeneration n f) := by
  have hdestroyed : ∀ k, (v.modifyGeneration n f).isDestroyed k = v.isDestroyed k :=
    isDestroyed_modifyGeneration v n fun s => (hf s).2.2
  refine {
    records := ?_
    known := h.known.mono (KeepsTasks_le hf v n)
    others := fun k s' hs' htab => ?_
    alive := fun g hg => (hdestroyed _).trans (h.alive g hg) }
  · unfold tab?
    rw [tabs_modifyGeneration]
    exact h.records
  · have hold : ∃ s, v.generation? k = some s ∧ s.tab = id := by
      rw [generation?_modifyGeneration] at hs'
      split at hs'
      · next hk =>
        subst hk
        obtain ⟨s, hs, rfl⟩ := Option.map_eq_some_iff.1 hs'
        exact ⟨s, hs, (hf s).1.symm.trans htab⟩
      · exact ⟨s', hs', htab⟩
    obtain ⟨s, hs, hstab⟩ := hold
    refine (h.others k s hs hstab).imp_right fun hspent => ⟨(hdestroyed k).trans hspent.destroyed, ?_⟩
    rw [tasks_modifyGeneration]
    exact hspent.quiet

/-- The generation has been taken out of the entry of the tab. -/
theorem Holding.take (h : Holding id recorded rest v) {tabs : Keyed TabEntry}
    (hnone : (Keyed.get? id tabs).bind (·.generation) = none) :
    Holding id none rest { v with tabs } where
  records := hnone
  known := h.known
  others n s hs htab := (h.others n s hs htab).imp_right fun hn => ⟨hn.destroyed, hn.quiet⟩
  alive := h.alive

/-- When its tasks have ended nothing of the generation is left. -/
theorem Ending.over (h : Ending id g [] v) : Confined id none none v where
  records := h.records
  known := nofun
  others n s hs htab := by
    rcases h.others n s hs htab with ⟨g', hg', rfl⟩ | hspent
    · obtain rfl := Option.some.inj hg'
      refine .inr ⟨h.destroyed, fun t x j hx hj ho => ?_⟩
      cases hend : x.ended with
      | true => rfl
      | false => cases h.live t x j hx hj ho hend
    · exact .inr hspent

/-- When the generation is destroyed, all its tasks that have not ended are known. -/
theorem Holding.destroy (h : Holding id none (some g) m.world.view) (hturn : HasTurn e c m)
    (he : e.Orderly) :
    Stopping id g ((m.world.tracked g.number).map (·.task)) ((m.world.tracked g.number).map (·.task))
      (m.world.view.destroy g.number) := by
  obtain ⟨log, φ, ψ, hc⟩ := hturn.conducted he
  obtain ⟨htab, s, hs, hstab⟩ := h.known g rfl
  have halive : s.destroyed = false := (isDestroyed_of_some hs).symm.trans (h.alive g rfl)
  have hle : m.world.view ≤ m.world.view.destroy g.number :=
    le_modifyGeneration _ _ _ fun _ => ⟨rfl, fun _ => rfl⟩
  refine {
    records := (congrArg (Option.bind · _) (tab?_destroy ..)).trans h.records
    known := h.known.mono hle
    others := fun n s' hs' htab' => ?_
    destroyed := isDestroyed_destroy ..
    live := fun t x j hx hj ho hend => ?_
    works := fun u hu => ?_ }
  · by_cases hn : n = g.number
    · exact .inl ⟨g, rfl, hn.symm⟩
    · obtain ⟨s₀, hs₀, htab₀, -⟩ := of_generation?_destroy _ _ hs'
      rcases h.others n s₀ hs₀ (htab₀.symm.trans htab') with hleft | hspent
      · exact .inl hleft
      · refine .inr ⟨(isDestroyed_destroy_of_ne _ _ hn).trans hspent.destroyed, ?_⟩
        rw [tasks_destroy]
        exact hspent.quiet
  · rw [tasks_destroy] at hx
    obtain ⟨s', hs', hlive⟩ := hc.supervised.tracked t x j hx hj
    obtain rfl : s = s' := Option.some.inj (hs.symm.trans (ho ▸ hs'))
    obtain ⟨y, hy, rfl⟩ := hlive hend halive
    exact List.mem_map_of_mem (World.tracked_of_some (w := m.world) hs ▸ hy)
  · obtain ⟨y, hy, rfl⟩ := List.mem_map.1 hu
    exact Works.mono ((hturn.owns he).owner_of_tracked hy) hle

theorem stable_confined : Stable (Confined id recorded rest) := fun _ _ hbeside h =>
  h.calm hbeside.toCalm hbeside.le

theorem stable_holding : Stable (Holding id recorded rest) := fun _ _ hbeside h =>
  h.calm hbeside.toCalm hbeside.le

theorem stable_ending : Stable (Ending id g ts) := fun _ _ hbeside h =>
  h.calm hbeside.toCalm hbeside.le

theorem stable_stopping {us : List TaskId} : Stable (Stopping id g ts us) := fun _ _ hbeside h =>
  h.calm hbeside.toCalm hbeside.le

/-- No lock of the tab comes back: who could make one has ended. -/
theorem stable_bare : Stable (Bare id) := fun v v' hbeside h =>
  { h.toConfined.calm hbeside.toCalm hbeside.le with
    released := fun l x' hx' htab => by
      rcases hbeside.lock l x' hx' with ⟨x, hx⟩ | ⟨n, s, hs, hstab, hspent⟩
      · obtain ⟨y, hy, hytab, -, hreleased⟩ := hbeside.le.locks.lock l x hx
        obtain rfl : x' = y := Option.some.inj (hx'.symm.trans hy)
        exact hreleased (h.released l x hx (hytab.symm.trans htab))
      · rcases h.others n s hs (hstab.trans htab) with ⟨g, hg, -⟩ | hn
        · cases hg
        · exact absurd hn hspent }

end View

/-! ## The parts of a teardown -/

namespace Supervisor

/-- What a step of a teardown may change, but for the one that runs listeners. -/
def Within (id : String) (w w' : World) : Prop :=
  w.Spares id w' ∧ ∀ n, w.listeners n <+: w'.listeners n

variable {w : World}

theorem listeners_of_generations {w w' : World} (h : w'.view.generations = w.view.generations)
    (n : Nat) : w.listeners n <+: w'.listeners n := by
  have hgen : w'.generation? n = w.generation? n := congrArg (fun gs => gs[n]?) h
  unfold World.listeners
  exact hgen.symm ▸ List.prefix_rfl

theorem listeners_destroy (w : World) (n k : Nat) :
    w.listeners k <+: (w.destroy n).2.listeners k := by
  have hgen : (w.destroy n).2.generation? k = _ :=
    (congrArg (View.generation? · k) (view_destroy w n)).trans (View.generation?_destroy w.view n k)
  unfold World.listeners
  rw [hgen]
  split
  · next hk =>
    subst hk
    rw [World.view_generation?]
    cases w.generation? k <;> exact List.prefix_rfl
  · exact List.prefix_rfl

theorem ensures_cancelAll (he : e.Orderly) (us : List TaskId) :
    Ensures e c (Within id) (View.Stopping id g ts us) (cancelAll us) fun _ => View.Ending id g ts := by
  induction us with
  | nil =>
    exact (Ensures.done he View.stable_ending ()).weaken (fun _ h => h.toEnding) fun _ _ h => h.2
  | cons u us ih =>
    refine Ensures.bind (Q := fun _ => View.Stopping id g ts us)
      (Ensures.single he (.atomically (f := fun w => ((), w.cancel u)) fun w => ?_)
        View.stable_stopping (fun _ => View.stable_stopping) ?_) fun _ => ih
    · exact congrArg View.holder (World.view_cancel w u)
    · rintro m a w - hstopping hstep
      obtain ⟨-, rfl⟩ := Prod.mk.inj (Option.some.inj hstep)
      obtain ⟨x, j, hx, hj, ho⟩ := hstopping.works u List.mem_cons_self
      obtain ⟨htab, s, hs, hstab⟩ := hstopping.known g rfl
      have hview := World.view_cancel m.world u
      refine ⟨⟨.cancel hx hj (ho ▸ hs) (hstab.trans htab), listeners_of_generations ?_⟩, ?_⟩
      · exact (congrArg View.generations hview).trans rfl
      · change View.Stopping id g ts us (m.world.cancel u).view
        rw [hview]
        have hlater := hstopping.calm (View.Calm.cancelAll m.world.view [u])
          (View.le_cancel m.world.view u)
        exact { hlater with works := fun u' hu' => hlater.works u' (List.mem_cons_of_mem _ hu') }

theorem ensures_awaitAll (he : e.Orderly) (ts : List TaskId) :
    Ensures e c (Within id) (View.Ending id g ts) (awaitAll ts) fun _ => View.Ending id g [] := by
  induction ts with
  | nil => exact (Ensures.done he View.stable_ending ()).weaken (fun _ h => h) fun _ _ h => h.2
  | cons u ts ih =>
    refine Ensures.bind (Q := fun _ => View.Ending id g ts) (Ensures.single he (.ended u)
      View.stable_ending (fun _ => View.stable_ending) ?_) fun _ => ih
    rintro m a w - hending hstep
    obtain ⟨r, hr, heq⟩ := Option.map_eq_some_iff.1 hstep
    obtain ⟨-, rfl⟩ := Prod.mk.inj heq
    have hended : m.world.isEnded u = true := by
      unfold World.answer? at hr
      by_contra hlive
      simp [hlive] at hr
    have hview : (m.world.settle c (.ended u)).view = m.world.view := World.view_settle ..
    refine ⟨⟨.settle c u, listeners_of_generations (congrArg View.generations hview)⟩, ?_⟩
    rw [hview]
    refine { hending with live := fun t x j hx hj ho hend => ?_ }
    refine (List.mem_cons.1 (hending.live t x j hx hj ho hend)).resolve_left ?_
    rintro rfl
    rw [World.isEnded_eq, hx] at hended
    exact absurd (hended.symm.trans hend) nofun

theorem ensures_endTasks (he : e.Orderly) :
    Ensures e c (Within id) (View.Holding id none (some g)) (endTasks g)
      fun _ => View.Confined id none none := by
  refine Ensures.bind (Q := fun ts => View.Stopping id g ts ts)
    (Ensures.single he (.atomically fun w => ?_) View.stable_holding
      (fun _ => View.stable_stopping) ?_) fun ts => ?_
  · exact (congrArg View.holder (view_destroy w g.number)).trans (View.holder_modifyGeneration ..)
  · rintro m ts w hturn hholding hstep
    obtain ⟨hts, rfl⟩ := Prod.mk.inj (Option.some.inj hstep)
    obtain rfl : (m.world.tracked g.number).map (·.task) = ts := Execution.done.inj hts
    obtain ⟨htab, s, hs, hstab⟩ := hholding.known g rfl
    refine ⟨⟨.destroy fun s' hs' => ?_, listeners_destroy _ _⟩, ?_⟩
    · rw [← Option.some.inj (hs.symm.trans hs')]
      exact hstab.trans htab
    · rw [view_destroy]
      exact hholding.destroy hturn he
  · refine Ensures.bind (ensures_cancelAll he ts) fun _ => ?_
    exact (ensures_awaitAll he ts).weaken (fun _ h => h) fun _ _ h => h.over

/-- The locks of the tab go. -/
theorem within_releaseLocks (hturn : HasTurn e c m) (he : e.Orderly) (id : String) :
    Within id m.world (m.world.releaseLocks id) :=
  ⟨.releaseLocks (hturn.sound he).locks (hturn.tidy he),
    listeners_of_generations
      ((congrArg View.generations (World.view_releaseLocks m.world id)).trans rfl)⟩

theorem isSingle_releaseLocks (id : String) :
    (Execution.change (·.releaseLocks id)).IsSingle e c :=
  .atomically (f := fun w => ((), w.releaseLocks id)) fun w =>
    congrArg View.holder (World.view_releaseLocks w id)

/-- The locks that came meanwhile go as well. -/
theorem ensures_lastRelease (he : e.Orderly) :
    Ensures e c (Within id) (View.Confined id none none) (Execution.change (·.releaseLocks id))
      fun _ => View.Bare id := by
  refine Ensures.single he (isSingle_releaseLocks id) View.stable_confined
    (fun _ => View.stable_bare) ?_
  rintro m a w hturn hconfined hstep
  obtain ⟨-, rfl⟩ := Prod.mk.inj (Option.some.inj hstep)
  have hsound := (hturn.sound he).locks
  have hview := World.view_releaseLocks m.world id
  refine ⟨within_releaseLocks hturn he id, ?_⟩
  rw [hview]
  exact {
    records := hconfined.records
    known := nofun
    others := fun n s hs htab => (hconfined.others n s hs htab).imp_right fun h => ⟨h.destroyed, h.quiet⟩
    released := fun l x' hx' htab => by
      obtain ⟨x, hx⟩ := LockTable.lock?_of_release hx'
      obtain rfl := Option.some.inj ((hsound.lock?_release hx id).symm.trans hx')
      split at htab
      · rw [if_pos ‹_›]
        rfl
      · exact absurd htab ‹_› }

/-! ## Taking the generation out -/

/-- What takes the generation of a tab out, with the entry of the tab as the answer. -/
inductive Takes (id : String) : Request TabEntry → Prop
  | retire (status : TabStatus) : Takes id (retire id status)
  | withdraw : Takes id (withdraw id)

/-- Take the generation of a tab out and tear it down; the entry of the tab before. -/
def clear (take : Request TabEntry) (id : String) : Request TabEntry := do
  let old ← take
  teardown id old.generation
  return old

variable {take : Request TabEntry}

theorem Takes.isSingle (h : Takes id take) : (ExceptT.run take).IsSingle e c := by
  cases h with
  | retire status =>
    refine .atomically fun w => ?_
    split
    · unfold World.modifyTab
      split <;> rfl
    · rfl
  | withdraw =>
    refine .atomically fun w => ?_
    split
    · split <;> rfl
    · rfl

/-- What succeeds to take the generation out changes the entry of its tab, and nothing else. -/
theorem Takes.step (h : Takes id take) {old : TabEntry} {w' : World}
    (hstep : e.step c w (ExceptT.run take) = some (.done (.ok old), w')) :
    w.tab? id = some old ∧ ∃ tabs, w' = { w with tabs } ∧
      (∀ k, k ≠ id → Keyed.get? k tabs = w.tab? k) ∧
      (Keyed.get? id tabs).bind (·.generation) = none := by
  cases h with
  | retire status =>
    obtain ⟨hanswer, hw⟩ := Prod.mk.inj (Option.some.inj hstep)
    cases hx : w.tab? id with
    | none => simp [hx] at hanswer
    | some x =>
      simp only [hx, World.modifyTab] at hanswer hw
      cases hanswer
      refine ⟨rfl, _, hw.symm, fun k hk => ?_, ?_⟩
      · rw [Keyed.get?_insert, if_neg hk]
        rfl
      · rw [Keyed.get?_insert, if_pos rfl]
        rfl
  | withdraw =>
    obtain ⟨hanswer, hw⟩ := Prod.mk.inj (Option.some.inj hstep)
    cases hx : w.tab? id with
    | none => simp [hx] at hanswer
    | some x =>
      simp only [hx] at hanswer hw
      split at hanswer
      · next hempty =>
        simp only [hempty, if_true] at hw
        cases hanswer
        refine ⟨rfl, _, hw.symm, fun k hk => ?_, ?_⟩
        · rw [Keyed.get?_erase, if_neg hk]
          rfl
        · rw [Keyed.get?_erase, if_pos rfl]
          rfl
      · cases hanswer

/-- What is left of a teardown when the locks of the tab have been released. -/
def tearOff (id : String) : Option Generation → Execution Unit
  | none => Execution.change (·.releaseLocks id)
  | some g => (Execution.atomically fun w => w.releaseBlocks g.number).bind fun _ =>
      (endTasks g).bind fun _ => Execution.change (·.releaseLocks id)

theorem teardown_eq (id : String) (g : Option Generation) :
    teardown id g = (Execution.change (·.releaseLocks id)).bind fun _ => tearOff id g := by
  cases g <;> rfl

theorem run_clear (take : Request TabEntry) (id : String) :
    ExceptT.run (clear take id) = (ExceptT.run take).bind fun
      | .ok old => (teardown id old.generation).bind fun _ => .done (.ok old)
      | .error err => .done (.error err) := by
  change (ExceptT.run take).bind _ = _
  congr 1
  funext r
  cases r with
  | ok old =>
    change ((teardown id old.generation).bind _).bind _ = _
    rw [Execution.bind_assoc]
    rfl
  | error err => rfl

/-! ## What a teardown passes through -/

/-- A run in which the caller ends the locks of the tab in one step, `n` steps after the first one:
whoever waits on a lock of the tab then is told so. -/
def ReleasesAfter (e : Engine) (c : TaskId) (id : String) (n : Nat) (m : Machine)
    (log : List Deed) (m' : Machine) : Prop :=
  ∃ log₁ m₁ m₂ log₂, Run.Through e c m log m' log₁ m₁ m₂ log₂ ∧
    (Deed.statesOf c log₁).length = n ∧ m₂.world = m₁.world.releaseLocks id

/-- A run in which the caller runs the listeners of a generation in one step: all that were there
at the beginning and those that came since. No other deed takes one away. -/
def RunsListeners (e : Engine) (c : TaskId) (n : Nat) (m : Machine) (log : List Deed)
    (m' : Machine) : Prop :=
  ∃ log₁ m₁ m₂ log₂, Run.Through e c m log m' log₁ m₁ m₂ log₂ ∧
    m₂.world = (m₁.world.releaseBlocks n).2 ∧ m.world.listeners n <+: m₁.world.listeners n ∧
    ∀ d ∈ log₁ ++ log₂, d.AddsListeners e n

theorem isSingle_releaseBlocks (n : Nat) :
    (Execution.atomically fun w => w.releaseBlocks n).IsSingle e c :=
  .atomically fun w => (congrArg View.holder (view_releaseBlocks w n)).trans
    (View.holder_modifyGeneration ..)

/-- The rest of a teardown, when the locks of the tab have been released. -/
theorem torn_tearOff (he : e.Orderly) (hturn : HasTurn e c m)
    (h : m.world.view.Holding id none rest) {k : Unit → Execution Unit} {a : Unit}
    (hcourse : Course e c k m' m (tearOff id rest) log a) :
    HasTurn e c m' ∧ m'.world.view.Bare id ∧ Guarded e c (World.Spares id) log ∧
      ∀ g, rest = some g → RunsListeners e c g.number m log m' := by
  cases rest with
  | none =>
    obtain ⟨hturn', hbare, hguard⟩ :=
      ensures_lastRelease he _ _ _ _ _ hturn h.toConfined hcourse
    exact ⟨hturn', hbare, hguard.weaken fun _ _ h => h.1, nofun⟩
  | some g =>
    obtain ⟨mb, logb, logr, x, rfl, hblocks, hrest⟩ := hcourse.of_bind
    obtain ⟨log₁, m₁, m₂, log₂, hsingle⟩ :=
      hturn.single he (isSingle_releaseBlocks g.number) hblocks
    have hworld : (m₁.world.releaseBlocks g.number).2 = m₂.world :=
      (Prod.mk.inj (Option.some.inj hsingle.step)).2
    have h₁ := View.stable_holding _ _ hsingle.before h
    obtain ⟨htab, s, hs, hstab⟩ := h₁.known g rfl
    have h₂ : m₂.world.view.Holding id none (some g) := by
      rw [← hworld, view_releaseBlocks]
      refine View.Holding.modifyGeneration ?_ _ GenerationState.keepsTasks_dropListeners
      exact h₁.calm (.of_eq rfl rfl rfl)
        (View.le_withLocks (LockTable.Thinned.unsubscribeAll m₁.world.view.locks _).le)
    have hspares : m₁.world.Spares id m₂.world := hworld ▸
      .releaseBlocks (hsingle.turn₁.owns he) fun s' hs' => by
        rw [← Option.some.inj (hs.symm.trans hs')]
        exact hstab.trans htab
    obtain ⟨hturn', hbare, hguard⟩ := (ensures_endTasks he).bind (fun _ => ensures_lastRelease he)
      _ _ _ _ _ hsingle.turn (View.stable_holding _ _ hsingle.after h₂) hrest
    refine ⟨hturn', hbare, (hsingle.guarded hspares).append (hguard.weaken fun _ _ h => h.1),
      fun g' hg' => ?_⟩
    obtain rfl := Option.some.inj hg'
    refine ⟨_, _, _, _, hsingle.through.extend .refl hrest.run, hworld.symm,
      hsingle.before.listeners _, fun d hd => ?_⟩
    rcases List.mem_append.1 hd with hd | hd
    · exact hsingle.others₁.2 d hd _
    · rcases List.mem_append.1 hd with hd | hd
      · exact hsingle.others₂.2 d hd _
      · exact hguard.addsListeners (fun _ _ h => h.2 _) d hd

section

variable {m₀ m₁ : Machine} {log₀ log₁ : List Deed} {k : Nat}

/-- A longer run comes to the release after as many steps more as it begins with. -/
theorem ReleasesAfter.extend (h : ReleasesAfter e c id n m log m') (hbefore : Run e m₀ log₀ m)
    (hsteps : (Deed.statesOf c log₀).length = k) (hafter : Run e m' log₁ m₁) :
    ReleasesAfter e c id (k + n) m₀ (log₀ ++ log ++ log₁) m₁ := by
  obtain ⟨log₂, m₂, m₃, log₃, hthrough, hlength, hworld⟩ := h
  refine ⟨_, m₂, m₃, _, hthrough.extend hbefore hafter, ?_, hworld⟩
  rw [Deed.statesOf_append, List.length_append, hsteps, hlength]

/-- The listeners of a generation are run in a longer run if nothing more takes one away. -/
theorem RunsListeners.extend (h : RunsListeners e c n m log m') (hbefore : Run e m₀ log₀ m)
    (hafter : Run e m' log₁ m₁) (hlisteners : m₀.world.listeners n <+: m.world.listeners n)
    (hadds₀ : ∀ d ∈ log₀, d.AddsListeners e n) (hadds₁ : ∀ d ∈ log₁, d.AddsListeners e n) :
    RunsListeners e c n m₀ (log₀ ++ log ++ log₁) m₁ := by
  obtain ⟨log₂, m₂, m₃, log₃, hthrough, hworld, hprefix, hadds⟩ := h
  refine ⟨_, m₂, m₃, _, hthrough.extend hbefore hafter, hworld, hlisteners.trans hprefix,
    fun d hd => ?_⟩
  simp only [List.mem_append] at hd hadds
  rcases hd with (hd | hd) | (hd | hd)
  exacts [hadds₀ d hd, hadds d (.inl hd), hadds d (.inr hd), hadds₁ d hd]

end

/-- A teardown releases the locks of the tab first. -/
theorem torn_teardown (he : e.Orderly) (hturn : HasTurn e c m)
    (h : m.world.view.Holding id none rest) {k : Unit → Execution Unit} {a : Unit}
    (hcourse : Course e c k m' m (teardown id rest) log a) :
    HasTurn e c m' ∧ m'.world.view.Bare id ∧ Guarded e c (World.Spares id) log ∧
      ReleasesAfter e c id 0 m log m' ∧
      ∀ g, rest = some g → RunsListeners e c g.number m log m' := by
  rw [teardown_eq] at hcourse
  obtain ⟨mr, logr, logo, x, rfl, hrelease, hrest⟩ := hcourse.of_bind
  obtain ⟨log₁, m₁, m₂, log₂, hsingle⟩ := hturn.single he (isSingle_releaseLocks id) hrelease
  have hworld : m₁.world.releaseLocks id = m₂.world :=
    (Prod.mk.inj (Option.some.inj hsingle.step)).2
  have hwithin : Within id m₁.world m₂.world := hworld ▸ within_releaseLocks hsingle.turn₁ he id
  have h₂ : m₂.world.view.Holding id none rest := by
    rw [← hworld, World.view_releaseLocks]
    exact (View.stable_holding _ _ hsingle.before h).calm (.of_eq rfl rfl rfl)
      (View.le_withLocks (.release (hsingle.turn₁.sound he).locks id))
  have hguard₁ : Guarded e c (Within id) logr := hsingle.guarded hwithin
  obtain ⟨hturn', hbare, hguard₂, hlisteners⟩ :=
    torn_tearOff he hsingle.turn (View.stable_holding _ _ hsingle.after h₂) hrest
  refine ⟨hturn', hbare, (hguard₁.weaken fun _ _ h => h.1).append hguard₂,
    ⟨_, _, _, _, hsingle.through.extend .refl hrest.run, ?_, hworld.symm⟩, fun g hg => ?_⟩
  · rw [List.nil_append, Deed.statesOf_of_others hsingle.others₁.1]
    rfl
  · simpa using (hlisteners g hg).extend hrelease.run .refl (hsingle.listeners (hwithin.2 _))
      (hguard₁.addsListeners fun _ _ h => h.2 _) nofun

/-- A caller that takes the generation of a tab out and tears it down. -/
theorem torn_clear (he : e.Orderly) (hturn : HasTurn e c m) (htakes : Takes id take)
    (h : m.world.view.Holding id recorded recorded)
    {k : Except SupervisorError TabEntry → Execution Unit} {old : TabEntry}
    (hcourse : Course e c k m' m (ExceptT.run (clear take id)) log (.ok old)) :
    HasTurn e c m' ∧ m'.world.view.Bare id ∧ Guarded e c (World.Spares id) log ∧
      ReleasesAfter e c id 1 m log m' ∧
      ∀ g, recorded = some g → RunsListeners e c g.number m log m' := by
  rw [run_clear] at hcourse
  obtain ⟨mt, logt, logr, r, rfl, htake, hrest⟩ := hcourse.of_bind
  obtain ⟨log₁, m₁, m₂, log₂, hsingle⟩ := hturn.single he htakes.isSingle htake
  cases r with
  | error err => cases hrest with
    | step _ _ _ hstep => cases hstep
  | ok entry =>
    obtain ⟨hentry, tabs, hworld, hothers, hnone⟩ := htakes.step hsingle.step
    have h₁ := View.stable_holding _ _ hsingle.before h
    have hrecorded : entry.generation = recorded := by
      have := h₁.records
      rwa [show m₁.world.view.tab? id = some entry from hentry] at this
    have h₂ : m₂.world.view.Holding id none recorded := by
      rw [hworld]
      exact h₁.take hnone
    have hwithin : Within id m₁.world m₂.world := by
      rw [hworld]
      exact ⟨.tabs hothers, fun _ => List.prefix_rfl⟩
    have hguard₁ : Guarded e c (Within id) logt := hsingle.guarded hwithin
    have hstates : (Deed.statesOf c logt).length = 1 := by
      obtain ⟨q, rfl, -⟩ := hsingle.through.step
      rw [(Course.deeds_of_others (e := e) hsingle.others₁.1 ..).1,
        Deed.statesOf_of_others hsingle.others₂.1]
      rfl
    obtain ⟨ml, logd, loge, x, rfl, hteardown, hend⟩ := hrest.of_bind
    rw [hrecorded] at hteardown
    obtain ⟨hturn₂, hbare, hguard₂, hreleases, hlisteners⟩ :=
      torn_teardown he hsingle.turn (View.stable_holding _ _ hsingle.after h₂) hteardown
    cases hend with
    | step _ _ _ hstep => cases hstep
    | done hafter hactor =>
      obtain ⟨hturn', hbeside, hadds⟩ := hturn₂.others he hafter hactor
      refine ⟨hturn', View.stable_bare _ _ hbeside hbare, ?_, ?_, fun g hg => ?_⟩
      · exact (hguard₁.weaken fun _ _ h => h.1).append
          (hguard₂.append (.of_others hactor hadds))
      · simpa using hreleases.extend htake.run hstates hafter
      · simpa using (hlisteners g hg).extend htake.run hafter (hsingle.listeners (hwithin.2 _))
          (hguard₁.addsListeners fun _ _ h => h.2 _) fun d hd => hadds d hd _

end Supervisor
end BlockEngine
