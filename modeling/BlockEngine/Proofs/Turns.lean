import BlockEngine.Proofs.Following
import BlockEngine.Proofs.Waits

/-!
# A caller that has the turn

While one caller has the turn, others can not take generations out of their tabs, end or start them.

* `View.Owns` : a generation tracks its own tasks, and listens to locks of its own tab;
* `View.Spent` : a generation that takes no tasks and has none left;
* `View.Calm`, `View.Beside` : what others can do while somebody has the turn; `Effect.calm`;
* `Powerless` : a thread that has no turn and can not take it; `Conducted.beside` : what it can do;
* `Reached`, `HasTurn` : a reachable machine with a caller, and one in which it has the turn;
  `HasTurn.others` : what it finds after moves of others.
-/

namespace BlockEngine

variable {e : Engine} {t c : TaskId} {γ γ' : Stage} {σ σ' : Stance} {v v' v'' : View}
  {φ φ' : TaskId → Stage} {ψ ψ' : TaskId → Stance} {log log' ds : List Deed} {m m' : Machine}
  {n : Nat} {s : GenerationState}

/-! ## What generations own -/

/-- What a generation tracks are tasks that work for it, and what its listeners take back are
subscriptions to locks of its tab. -/
structure GenerationState.Owned (v : View) (n : Nat) (s : GenerationState) : Prop where
  tracked : ∀ y ∈ s.tracked, ∃ x j, v.tasks y.task = some x ∧ x.job = some j ∧ j.owner = n
  listeners : ∀ block l id, (block, Listener.unsubscribe l id) ∈ s.listeners →
    ∃ x, v.locks.lock? l = some x ∧ x.tab = s.tab

/-- Every generation has what it owns. -/
def View.Owns (v : View) : Prop := ∀ n s, v.generation? n = some s → s.Owned v n

theorem World.tracked_of_some {w : World} (h : w.generation? n = some s) :
    w.tracked n = s.tracked := by
  unfold tracked
  rw [h]
  rfl

/-- A task works for the generation that tracks it. -/
theorem View.Owns.owner_of_tracked {w : World} (h : w.view.Owns) {y : Tracked}
    (hy : y ∈ w.tracked n) : ∃ x j, w.view.tasks y.task = some x ∧ x.job = some j ∧ j.owner = n := by
  cases hs : w.generation? n with
  | none => rw [World.tracked, hs] at hy; cases hy
  | some s => exact (h n s hs).tracked y (World.tracked_of_some hs ▸ hy)

namespace GenerationState.Owned

theorem mono (h : s.Owned v n) (hle : v ≤ v') : s.Owned v' n where
  tracked y hy := by
    obtain ⟨x, j, hx, hj, ho⟩ := h.tracked y hy
    obtain ⟨x', hx', hj', -⟩ := hle.task y.task x hx
    exact ⟨x', j, hx', hj'.trans hj, ho⟩
  listeners block l id hmem := by
    obtain ⟨x, hx, htab⟩ := h.listeners block l id hmem
    obtain ⟨x', hx', htab', -⟩ := hle.locks.lock l x hx
    exact ⟨x', hx', htab'.trans htab⟩

theorem new (tab : String) : (GenerationState.new tab).Owned v n := ⟨nofun, nofun⟩

/-- A generation that tracks and listens to no more than before. -/
theorem of_subset {s' : GenerationState} (h : s.Owned v n) (htab : s'.tab = s.tab)
    (htracked : ∀ y ∈ s'.tracked, y ∈ s.tracked) (hlisteners : ∀ p ∈ s'.listeners, p ∈ s.listeners) :
    s'.Owned v n where
  tracked y hy := h.tracked y (htracked y hy)
  listeners block l id hmem := by
    rw [htab]
    exact h.listeners block l id (hlisteners _ hmem)

end GenerationState.Owned

namespace View.Owns

theorem of_generations (h : v.Owns) (hle : v ≤ v') (hgen : v'.generations = v.generations) :
    v'.Owns := fun n s hs => (h n s (by unfold generation? at *; rwa [← hgen])).mono hle

theorem modifyGeneration (h : v.Owns) (n : Nat) {f : GenerationState → GenerationState}
    (hf : ∀ s, v.generation? n = some s → s.Owned v n → (f s).Owned v n) :
    (v.modifyGeneration n f).Owns := by
  have hsame : ∀ {k s}, GenerationState.Owned v k s → s.Owned (v.modifyGeneration n f) k :=
    fun h => ⟨fun y hy => by rw [tasks_modifyGeneration]; exact h.tracked y hy,
      fun block l id hmem => by rw [locks_modifyGeneration]; exact h.listeners block l id hmem⟩
  intro k s' hs'
  rw [generation?_modifyGeneration] at hs'
  split at hs'
  · next hk =>
    subst hk
    obtain ⟨s, hs, rfl⟩ := Option.map_eq_some_iff.1 hs'
    exact hsame (hf s hs (h k s hs))
  · exact hsame (h k s' hs')

theorem spawn (h : v.Owns) (hs : v.Sound e) {i : Nat} (hi : v.issued ≤ i) (d : String)
    (ctx : Context) (j : Job) : ({ v with issued := i }.spawn j.owner d ctx j).Owns := by
  let v₁ : View := { v with issued := i }
  have h₁ : v₁.Owns := h.of_generations (View.le_draw hi) rfl
  unfold View.spawn
  split
  · exact h₁
  · have hnumbered : v₁.TasksNumbered := hs.tasksNumbered
    have hle : v₁ ≤ v₁.addTask (some j) := View.le_addTask hnumbered _
    refine (h₁.of_generations hle rfl).modifyGeneration _ fun s _ howned => ⟨fun y hy => ?_,
      howned.listeners⟩
    rcases List.mem_append.1 hy with hy | hy
    · exact howned.tracked y (List.mem_filter.1 hy).1
    · rw [List.mem_singleton.1 hy]
      exact ⟨⟨some j, false, false⟩, j, if_pos rfl, rfl, rfl⟩

end View.Owns

theorem Effect.owns (h : Effect e t γ v γ' v') (hs : v.Sound e) (howns : v.Owns) : v'.Owns := by
  have hle := h.le hs
  cases h with
  | touch hf _ hlisteners =>
    exact howns.modifyGeneration _ fun s _ howned => howned.of_subset (hf s).1
      (fun y hy => (hf s).2.1 ▸ hy) fun p hp => hlisteners s ▸ hp
  | spawn hi => exact howns.spawn hs hi _ _ _
  | @listen l g key block r _ _ _ hknown hlock =>
    have hgrown : v ≤ { v with locks := (v.locks.subscribe l .all r).2 } :=
      View.le_withLocks (.subscribe ..)
    refine (howns.of_generations hgrown rfl).modifyGeneration _ fun s hgen howned =>
      ⟨howned.tracked, fun b l' id hmem => ?_⟩
    rcases List.mem_append.1 hmem with hmem | hmem
    · exact howned.listeners b l' id hmem
    · cases List.mem_singleton.1 hmem
      obtain ⟨x, hx, htab, -⟩ := hlock.mono hgrown
      obtain ⟨s', hs', htab'⟩ := hknown
      obtain rfl : s = s' := Option.some.inj (hgen.symm.trans hs')
      exact ⟨x, hx, htab.trans htab'.symm⟩
  | @unlisten _ _ _ ss =>
    have hgrown : v ≤ { v with locks := v.locks.unsubscribeAll ss } :=
      View.le_withLocks (LockTable.Thinned.unsubscribeAll v.locks ss).le
    exact (howns.of_generations hgrown rfl).modifyGeneration _ fun s _ howned =>
      howned.of_subset rfl (fun _ hy => hy) nofun
  | destroy =>
    exact howns.modifyGeneration _ fun s _ howned => howned.of_subset rfl nofun fun _ hp => hp
  | renew =>
    intro k s' hs'
    rw [View.generation?, View.get?_generations_insert] at hs'
    split at hs'
    · rw [← Option.some.inj hs']
      exact .new _
    · exact (howns k s' hs').mono hle
  | cancel => exact howns.of_generations hle (View.cancelAll_spec _ _).1
  | @abort _ _ u => exact howns.of_generations hle (View.cancelAll_spec v [u]).1
  | mark | install =>
    refine howns.of_generations hle ?_
    unfold View.modifyTab
    split <;> rfl
  | _ => exact howns.of_generations hle rfl

theorem Talk.owns (h : Talk e σ v σ' v') (hs : v.Sound e) (howns : v.Owns) : v'.Owns := by
  have hle := h.le hs
  cases h with
  | @startBody _ a _ _ _ _ d arguments returns s =>
    exact howns.spawn hs (Nat.le_succ v.issued) _ _ (a.body d arguments returns v.issued)
  | _ => exact howns.of_generations hle rfl

theorem Passage.owns (h : Passage e log m φ ψ ds v' φ' ψ') (hs : m.world.view.Sound e)
    (howns : m.world.view.Owns) : v'.Owns := by
  have hle := h.le hs
  cases h with
  | @change t _ _ _ _ _ _ _ _ hchange =>
    generalize ψ t = σ at hchange
    cases hchange with
    | effect h => exact h.owns hs howns
    | talk h => exact h.owns hs howns
  | store =>
    exact howns.modifyGeneration _ fun s _ howned => howned.of_subset rfl (fun _ hy => hy)
      fun _ hp => hp
  | reply => exact howns.of_generations hle rfl
  | depart _ _ _ hsettles | still hsettles => exact howns.of_generations hle hsettles.generations

/-- In every reachable state every generation has what it owns. -/
theorem Run.owns (he : e.Orderly) {capacity : Nat} (hrun : Run e (.start capacity) log m) :
    m.world.view.Owns := by
  induction hrun with
  | refl =>
    intro n s hs
    change (∅ : Std.ExtTreeMap Nat GenerationState)[n]? = some s at hs
    simp at hs
  | move hrun hmove ih =>
    obtain ⟨φ, ψ, hc⟩ := Conducted.run he hrun
    obtain ⟨φ', ψ', hpass, -⟩ := hc.move he hmove
    exact hpass.owns hc.sound ih

/-! ## What others do -/

/-- The listeners of a generation. -/
def World.listeners (w : World) (n : Nat) : List (String × Listener) :=
  ((w.generation? n).map (·.listeners)).getD []

namespace View

/-- A generation that takes no tasks and has none left. -/
structure Spent (v : View) (n : Nat) : Prop where
  destroyed : v.isDestroyed n = true
  quiet : ∀ t s j, v.tasks t = some s → s.job = some j → j.owner = n → s.ended = true

/-- The generations that tabs record and those that take tasks are the same in both states.
Generations get listeners, and tasks if they take them. -/
structure Calm (v v' : View) : Prop where
  recorded : ∀ id, (v'.tab? id).bind (·.generation) = (v.tab? id).bind (·.generation)
  generation : ∀ n s', v'.generation? n = some s' → ∃ s, v.generation? n = some s ∧
    s'.tab = s.tab ∧ s'.destroyed = s.destroyed ∧ s.listeners <+: s'.listeners
  task : ∀ t s' j, v'.tasks t = some s' → s'.job = some j →
    (∃ s, v.tasks t = some s ∧ s.job = some j) ∨ v.isDestroyed j.owner = false

namespace Calm

/-- Nothing but locks, the numbers drawn and the turn differs. -/
theorem of_eq (htabs : v'.tabs = v.tabs) (hgen : v'.generations = v.generations)
    (htasks : v'.tasks = v.tasks) : v.Calm v' where
  recorded id := by unfold tab?; rw [htabs]
  generation n s' hs' :=
    ⟨s', by unfold generation? at *; rwa [← hgen], rfl, rfl, List.prefix_rfl⟩
  task t s' j hs' hj := .inl ⟨s', htasks ▸ hs', hj⟩

theorem refl (v : View) : v.Calm v := of_eq rfl rfl rfl

theorem isDestroyed (h : v.Calm v') (hle : v ≤ v') (n : Nat) :
    v'.isDestroyed n = v.isDestroyed n := by
  cases hs : v.generation? n with
  | some s =>
    obtain ⟨s', hs', -⟩ := hle.generation n s hs
    obtain ⟨s₀, hs₀, -, hd, -⟩ := h.generation n s' hs'
    obtain rfl : s = s₀ := Option.some.inj (hs.symm.trans hs₀)
    rw [isDestroyed_of_some hs, isDestroyed_of_some hs', hd]
  | none =>
    cases hs' : v'.generation? n with
    | none => unfold View.isDestroyed; rw [hs, hs']
    | some s' =>
      obtain ⟨s, hs'', -⟩ := h.generation n s' hs'
      exact absurd (hs.symm.trans hs'') nofun

theorem trans (h : v.Calm v') (hle : v ≤ v') (h' : v'.Calm v'') : v.Calm v'' where
  recorded id := (h'.recorded id).trans (h.recorded id)
  generation n s'' hs'' := by
    obtain ⟨s', hs', htab', hd', hpre'⟩ := h'.generation n s'' hs''
    obtain ⟨s, hs, htab, hd, hpre⟩ := h.generation n s' hs'
    exact ⟨s, hs, htab'.trans htab, hd'.trans hd, hpre.trans hpre'⟩
  task t s'' j hs'' hj := by
    rcases h'.task t s'' j hs'' hj with ⟨s', hs', hj'⟩ | hlive
    · exact h.task t s' j hs' hj'
    · exact .inr ((h.isDestroyed hle _).symm.trans hlive)

theorem modifyGeneration (h : v.Calm v') (n : Nat) {f : GenerationState → GenerationState}
    (hf : ∀ s, (f s).tab = s.tab ∧ (f s).destroyed = s.destroyed ∧ s.listeners <+: (f s).listeners) :
    v.Calm (v'.modifyGeneration n f) where
  recorded id := by
    unfold tab?
    rw [tabs_modifyGeneration]
    exact h.recorded id
  generation k s'' hs'' := by
    rw [generation?_modifyGeneration] at hs''
    split at hs''
    · next hk =>
      subst hk
      obtain ⟨s', hs', rfl⟩ := Option.map_eq_some_iff.1 hs''
      obtain ⟨s, hs, htab, hd, hpre⟩ := h.generation k s' hs'
      obtain ⟨hftab, hfd, hfpre⟩ := hf s'
      exact ⟨s, hs, hftab.trans htab, hfd.trans hd, hpre.trans hfpre⟩
    · exact h.generation k s'' hs''
  task t s' j hs' hj := by
    rw [tasks_modifyGeneration] at hs'
    exact h.task t s' j hs' hj

theorem cancelAll (v : View) (ts : List TaskId) : v.Calm (ts.foldl cancel v) := by
  obtain ⟨hgen, htabs, -, -, htasks⟩ := cancelAll_spec v ts
  refine ⟨fun id => by unfold tab?; rw [htabs], fun n s' hs' => ?_, fun t s' j hs' hj => .inl ?_⟩
  · exact ⟨s', by unfold generation? at *; rwa [← hgen], rfl, rfl, List.prefix_rfl⟩
  · obtain ⟨s, hs, hjob, -⟩ := htasks t s' hs'
    exact ⟨s, hs, hjob.symm.trans hj⟩

theorem spawn {i : Nat} {d : String} {ctx : Context} {j : Job} :
    v.Calm ({ v with issued := i }.spawn j.owner d ctx j) := by
  cases hd : View.isDestroyed { v with issued := i } j.owner with
  | true =>
    unfold View.spawn
    rw [if_pos hd]
    exact of_eq rfl rfl rfl
  | false =>
    unfold View.spawn
    rw [if_neg (by rw [hd]; exact Bool.false_ne_true)]
    have hadd : v.Calm (View.addTask { v with issued := i } (some j)) := by
      refine ⟨fun _ => rfl, fun n s' hs' => ⟨s', hs', rfl, rfl, List.prefix_rfl⟩,
        fun t s' j' hs' hj' => ?_⟩
      rw [tasks_addTask] at hs'
      split at hs'
      · obtain rfl := Option.some.inj hs'
        obtain rfl : j = j' := Option.some.inj hj'
        exact .inr hd
      · exact .inl ⟨s', hs', hj'⟩
    exact hadd.modifyGeneration _ fun s => ⟨rfl, rfl, List.prefix_rfl⟩

theorem put {owed : List String} {tabs : Keyed TabEntry} (h : Stores owed v.tabs tabs) :
    v.Calm { v with tabs } where
  recorded id := by
    change (Keyed.get? id tabs).bind _ = (Keyed.get? id v.tabs).bind _
    cases hx' : Keyed.get? id tabs with
    | none =>
      cases hx : Keyed.get? id v.tabs with
      | none => rfl
      | some x =>
        obtain ⟨x', hold⟩ := h.old id x hx
        exact absurd (hx'.symm.trans hold) nofun
    | some x' =>
      rcases h.entry id x' hx' with ⟨x, hx, -, hgen, -⟩ | ⟨hnone, -, hgen⟩
      · rw [hx]
        exact hgen
      · rw [hnone]
        exact hgen
  generation _ s' hs' := ⟨s', hs', rfl, rfl, List.prefix_rfl⟩
  task _ s' _ hs' hj := .inl ⟨s', hs', hj⟩

theorem settles (h : v.Settles v') : v.Calm v' where
  recorded id := by unfold tab?; rw [h.tabs]
  generation n s' hs' :=
    ⟨s', by unfold generation? at *; rwa [← h.generations], rfl, rfl, List.prefix_rfl⟩
  task t s' j hs' hj := .inl (h.task t s' j hs' hj)

end Calm
end View

/-- What a thread does that has no turn and can not take it. Only callers change the table of tabs. -/
theorem Effect.calm (h : Effect e t γ v γ' v') (hhand : γ.hand = none)
    (hbusy : v.IsCaller t → ¬ (v.holder = none ∨ v.holder = some t)) :
    v.Calm v' ∧ v'.holder = v.holder ∧ (¬ v.IsCaller t → v'.tabs = v.tabs) := by
  cases h with
  | touch hf _ hlisteners =>
    exact ⟨(View.Calm.refl v).modifyGeneration _ fun s =>
        ⟨(hf s).1, (hf s).2.2, (hlisteners s).symm ▸ List.prefix_rfl⟩,
      View.holder_modifyGeneration .., fun _ => View.tabs_modifyGeneration ..⟩
  | @spawn i d ctx j =>
    refine ⟨.spawn, ?_⟩
    unfold View.spawn
    split
    · exact ⟨rfl, fun _ => rfl⟩
    · exact ⟨View.holder_modifyGeneration .., fun _ => View.tabs_modifyGeneration ..⟩
  | @listen l _ _ _ r =>
    have hlocks : v.Calm { v with locks := (v.locks.subscribe l .all r).2 } := .of_eq rfl rfl rfl
    exact ⟨hlocks.modifyGeneration _ fun s => ⟨rfl, rfl, List.prefix_append ..⟩,
      View.holder_modifyGeneration .., fun _ => View.tabs_modifyGeneration ..⟩
  | cancel =>
    obtain ⟨-, htabs, hholder, -⟩ := View.cancelAll_spec v _
    exact ⟨.cancelAll .., hholder, fun _ => htabs⟩
  | put hcaller _ hstores => exact ⟨.put hstores, rfl, fun hnot => absurd hcaller hnot⟩
  | enter hcaller _ hfree => exact absurd hfree (hbusy hcaller)
  | yield h | take h | takeAll h | withdraw h | release h | releaseAll h | unlisten h | destroy h
  | abort h | awaited h | bury h | mark h | renew h | install h =>
    exact absurd (hhand.symm.trans h) nofun
  | _ => exact ⟨.of_eq rfl rfl rfl, rfl, fun _ => rfl⟩

theorem Talk.calm (h : Talk e σ v σ' v') :
    v.Calm v' ∧ v'.holder = v.holder ∧ v'.tabs = v.tabs := by
  cases h with
  | @startBody _ a _ _ _ _ d arguments returns s =>
    refine ⟨View.Calm.spawn (j := a.body d arguments returns v.issued), ?_⟩
    unfold View.spawn
    split
    · exact ⟨rfl, rfl⟩
    · exact ⟨View.holder_modifyGeneration .., View.tabs_modifyGeneration ..⟩
  | _ => exact ⟨.of_eq rfl rfl rfl, rfl, rfl⟩

/-! ## Moves of others -/

namespace View

/-- What others can do while a caller has the turn. They make locks for generations that are not
spent. -/
structure Beside (v v' : View) : Prop extends Calm v v' where
  le : v ≤ v'
  lock : ∀ l x', v'.locks.lock? l = some x' → (∃ x, v.locks.lock? l = some x) ∨
    ∃ n s, v.generation? n = some s ∧ s.tab = x'.tab ∧ ¬ v.Spent n

/-- What is spent stays so. -/
theorem Spent.calm (h : v.Spent n) (hcalm : v.Calm v') (hle : v ≤ v') : v'.Spent n where
  destroyed := (hcalm.isDestroyed hle n).trans h.destroyed
  quiet t s' j hs' hj ho := by
    rcases hcalm.task t s' j hs' hj with ⟨s, hs, hjob⟩ | hlive
    · obtain ⟨s'', hs'', -, -, hend⟩ := hle.task t s hs
      obtain rfl : s' = s'' := Option.some.inj (hs'.symm.trans hs'')
      exact hend (h.quiet t s j hs hjob ho)
    · rw [ho, h.destroyed] at hlive
      cases hlive

namespace Beside

theorem refl (v : View) : v.Beside v :=
  { Calm.refl v with le := le_refl v, lock := fun _ x hx => .inl ⟨x, hx⟩ }

theorem trans (h : v.Beside v') (h' : v'.Beside v'') : v.Beside v'' :=
  { h.toCalm.trans h.le h'.toCalm with
    le := le_trans h.le h'.le
    lock := fun l x'' hx'' => by
      rcases h'.lock l x'' hx'' with ⟨x', hx'⟩ | ⟨n, s', hs', htab', hspent⟩
      · obtain ⟨y, hy, htab, -⟩ := h'.le.locks.lock l x' hx'
        obtain rfl : x'' = y := Option.some.inj (hx''.symm.trans hy)
        rw [htab]
        exact h.lock l x' hx'
      · obtain ⟨s, hs, htab, -⟩ := h.generation n s' hs'
        exact .inr ⟨n, s, hs, htab.symm.trans htab', fun hn => hspent (hn.calm h.toCalm h.le)⟩ }

/-- Listeners of a generation stay where they are. -/
theorem listeners {w w' : World} (h : w.view.Beside w'.view) (n : Nat) :
    w.listeners n <+: w'.listeners n := by
  unfold World.listeners
  cases hs : w.generation? n with
  | none => exact List.nil_prefix
  | some s =>
    obtain ⟨s', hs', -⟩ := h.le.generation n s hs
    obtain ⟨s₀, hs₀, -, -, hpre⟩ := h.generation n s' hs'
    obtain rfl : s = s₀ := Option.some.inj (hs.symm.trans hs₀)
    rw [show w'.generation? n = some s' from hs']
    exact hpre

end Beside
end View

/-- No listener of a generation is lost by a step. -/
def Deed.AddsListeners (e : Engine) (n : Nat) : Deed → Prop
  | .performed t p w => ∀ q w', e.step t w p = some (q, w') → w.listeners n <+: w'.listeners n
  | .dropped .. => True

/-- A thread that has no turn and can not take it. -/
def Powerless (φ : TaskId → Stage) (w : World) (t : TaskId) : Prop :=
  (φ t).hand = none ∧ (w.IsCaller t → ¬ (w.turn.holder = none ∨ w.turn.holder = some t))

/-- A step of a thread without power, or no step. -/
theorem Passage.calm (h : Passage e log m φ ψ ds v' φ' ψ')
    (hds : ∀ t p w, .performed t p w ∈ ds → Powerless φ m.world t) :
    m.world.view.Calm v' ∧
      (∀ t p w, ds = [.performed t p w] → v'.holder = m.world.turn.holder) ∧
      ((∀ t p w, .performed t p w ∈ ds → ¬ m.world.IsCaller t) →
        v'.tabs = m.world.view.tabs) := by
  have hcaller : ∀ {t}, m.world.view.IsCaller t → m.world.IsCaller t := by
    rintro t ⟨x, hx, hj⟩
    obtain ⟨r, hr, rfl⟩ := Option.map_eq_some_iff.1 hx
    exact ⟨r, hr, hj⟩
  cases h with
  | @change t p _ _ _ _ hp _ _ hchange =>
    obtain ⟨hhand, hbusy⟩ := hds _ _ _ (List.mem_singleton_self _)
    generalize ψ t = σ at hchange
    cases hchange with
    | effect h =>
      obtain ⟨hcalm, hholder, htabs⟩ := h.calm hhand fun h => hbusy (hcaller h)
      exact ⟨hcalm, fun _ _ _ _ => hholder, fun hnot => htabs fun h =>
        hnot _ _ _ (List.mem_singleton_self _) (hcaller h)⟩
    | talk h =>
      obtain ⟨hcalm, hholder, htabs⟩ := h.calm
      exact ⟨hcalm, fun _ _ _ _ => hholder, fun _ => htabs⟩
  | store =>
    exact ⟨(View.Calm.refl _).modifyGeneration _ fun s => ⟨rfl, rfl, List.prefix_rfl⟩,
      fun _ _ _ _ => View.holder_modifyGeneration .., fun _ => View.tabs_modifyGeneration ..⟩
  | reply => exact ⟨.of_eq rfl rfl rfl, fun _ _ _ _ => rfl, fun _ => rfl⟩
  | depart hds _ _ hsettles =>
    exact ⟨.settles hsettles, fun t p w h => absurd (h ▸ List.mem_singleton_self _) (hds t p w),
      fun _ => hsettles.tabs⟩
  | still hsettles => exact ⟨.settles hsettles, nofun, fun _ => hsettles.tabs⟩

namespace Conducted

/-- While somebody else has the turn a thread has no power. -/
theorem powerless_of_holder (hc : Conducted e log m φ ψ) (hturn : m.world.turn.holder = some c)
    (hne : t ≠ c) : Powerless φ m.world t := by
  refine ⟨Option.eq_none_iff_forall_not_mem.2 fun hd hmem => hne ?_, fun _ hfree => ?_⟩
  · exact Option.some.inj ((hc.supervised.holder t hd hmem).symm.trans hturn)
  · rcases hfree with hnone | hsome
    · exact absurd (hturn.symm.trans hnone) nofun
    · exact hne (Option.some.inj (hsome.symm.trans hturn))

/-- The task of a job has no power. -/
theorem powerless_of_task (hc : Conducted e log m φ ψ) {p : Execution Unit}
    (hp : m.threads[t]? = some p) (hnot : ¬ m.world.IsCaller t) : Powerless φ m.world t := by
  obtain ⟨x, hx, -, hfits, -⟩ := (hc.task t).carries p hp
  obtain ⟨r, hr, rfl⟩ := Option.map_eq_some_iff.1 hx
  refine ⟨?_, fun h => absurd h hnot⟩
  cases hj : r.job with
  | none => exact absurd ⟨r, hr, hj⟩ hnot
  | some j =>
    rw [show r.standing.job = some j from hj] at hfits
    exact congrArg Stage.hand hfits

/-- Whoever has the turn keeps it while others make their moves. -/
theorem holder_of_others (hc : Conducted e log m φ ψ) (he : e.Orderly) (hmove : Move e m ds m')
    (hcaller : m.world.IsCaller c) (hturn : m.world.turn.holder = some c)
    (hds : ∀ d ∈ ds, d.actor ≠ c) : m'.world.turn.holder = some c := by
  have hlive : ∀ {t : TaskId} {j : Job}, m.world.IsLive t j → m.world.turn.holder ≠ some t := by
    rintro t j ⟨r, hr, hj, -⟩ hholder
    obtain rfl : c = t := Option.some.inj (hturn.symm.trans hholder)
    obtain ⟨r', hr', hnone⟩ := hcaller
    obtain rfl : r = r' := Option.some.inj (hr.symm.trans hr')
    exact absurd (hj.symm.trans hnone) nofun
  cases hmove with
  | @perform t p q w hp hstep =>
    obtain ⟨φ', ψ', hpass, -⟩ := hc.perform he hp hstep
    refine ((hpass.calm fun u q w hmem => ?_).2.1 _ _ _ rfl).trans hturn
    exact hc.powerless_of_holder hturn (hds _ hmem)
  | @finish t j h =>
    obtain ⟨holder, hview, hholder⟩ := World.view_finish_spec m.world t
    exact (congrArg View.holder hview).trans ((hholder.resolve_right (hlive h)).trans hturn)
  | @leaveEarly t j h =>
    obtain ⟨holder, hview, hholder⟩ := World.view_finish_spec m.world t
    exact (congrArg View.holder hview).trans ((hholder.resolve_right (hlive h)).trans hturn)
  | @leave t j p h =>
    obtain ⟨holder, locks, hview, hholder, -⟩ := World.view_leave m.world t p
    exact (congrArg View.holder hview).trans ((hholder.resolve_right (hlive h)).trans hturn)
  | @reschedule w h => exact (congrArg View.holder h.view).trans hturn
  | @drop t p =>
    obtain ⟨holder, locks, hview, hholder, -⟩ := World.view_forsake m.world t p
    refine (congrArg View.holder hview).trans ((hholder.resolve_right fun h => ?_).trans hturn)
    exact hds _ (List.mem_singleton_self _) (Option.some.inj (h.symm.trans hturn))
  | _ => exact hturn

/-- What a move comes to that is no step of a thread with power. -/
theorem beside (hc : Conducted e log m φ ψ) (he : e.Orderly) (hmove : Move e m ds m')
    (hds : ∀ t p w, .performed t p w ∈ ds → Powerless φ m.world t) :
    m.world.view.Beside m'.world.view := by
  obtain ⟨φ', ψ', hpass, -⟩ := hc.move he hmove
  refine { (hpass.calm hds).1 with le := hpass.le hc.sound, lock := fun l x' hx' => ?_ }
  obtain ⟨es, hes, hobtain⟩ := hpass.history
  rw [hes] at hx'
  rcases LockTable.new_play hc.sound.locks es hx' with hold | ⟨owner, key, hmem⟩
  · exact .inl hold
  · obtain ⟨t, p, g, rfl, hp, hhome, ⟨s, hs, htab⟩, hgtab⟩ := hobtain _ owner key hmem
    obtain ⟨x, hx, hend, hfits, -⟩ := (hc.task t).carries p hp
    refine .inr ⟨g.number, s, hs, htab.trans hgtab, fun hspent => ?_⟩
    cases hj : x.job with
    | some j =>
      rw [hj] at hfits
      have hjhome : j.home? = some g := (congrArg Stage.home hfits).symm.trans hhome
      exact absurd (hend.symm.trans (hspent.quiet t x j hx hj (Job.owner_of_home hjhome))) nofun
    | none =>
      rw [hj] at hfits
      obtain ⟨hd, hhand, -⟩ := Option.bind_eq_some_iff.1 (hfits.symm.trans hhome)
      exact absurd (hhand.symm.trans (hds _ _ _ (List.mem_singleton_self _)).1) nofun

end Conducted

/-- A reachable machine with the caller `c`. -/
structure Reached (e : Engine) (c : TaskId) (m : Machine) : Prop where
  reached : ∃ capacity log, Run e (.start capacity) log m
  caller : m.world.IsCaller c

namespace Reached

theorem conducted (h : Reached e c m) (he : e.Orderly) : ∃ log φ ψ, Conducted e log m φ ψ := by
  obtain ⟨capacity, log, hrun⟩ := h.reached
  obtain ⟨φ, ψ, hc⟩ := Conducted.run he hrun
  exact ⟨log, φ, ψ, hc⟩

theorem sound (h : Reached e c m) (he : e.Orderly) : m.world.view.Sound e :=
  let ⟨_, _, _, hc⟩ := h.conducted he
  hc.sound

theorem owns (h : Reached e c m) (he : e.Orderly) : m.world.view.Owns :=
  let ⟨_, _, hrun⟩ := h.reached
  hrun.owns he

theorem tidy (h : Reached e c m) (he : e.Orderly) : m.world.locks.Tidy :=
  let ⟨_, _, hrun⟩ := h.reached
  hrun.tidy he

/-- A caller stays one. -/
theorem isCaller_of_le {w w' : World} (h : w.IsCaller c) (hle : w.view ≤ w'.view) :
    w'.IsCaller c := by
  obtain ⟨r, hr, hj⟩ := h
  obtain ⟨x, hx, hjob, -⟩ := hle.task c r.standing (by rw [World.view_tasks, hr]; rfl)
  obtain ⟨r', hr', rfl⟩ := Option.map_eq_some_iff.1 hx
  exact ⟨r', hr', hjob.trans hj⟩

/-- The state grows in a move. -/
theorem move (h : Reached e c m) (he : e.Orderly) (hmove : Move e m ds m') :
    Reached e c m' ∧ m.world.view ≤ m'.world.view := by
  obtain ⟨capacity, log, hrun⟩ := h.reached
  obtain ⟨φ, ψ, hc⟩ := Conducted.run he hrun
  obtain ⟨φ', ψ', hpass, -⟩ := hc.move he hmove
  have hle := hpass.le hc.sound
  exact ⟨⟨⟨capacity, _, hrun.move hmove⟩, isCaller_of_le h.caller hle⟩, hle⟩

end Reached

/-- A reachable machine in which the caller `c` has the turn. -/
structure HasTurn (e : Engine) (c : TaskId) (m : Machine) : Prop extends Reached e c m where
  holder : m.world.turn.holder = some c

namespace HasTurn

/-- A move that leaves the turn to the caller. -/
theorem move (h : HasTurn e c m) (he : e.Orderly) (hmove : Move e m ds m')
    (hholder : m'.world.turn.holder = some c) : HasTurn e c m' :=
  ⟨(h.toReached.move he hmove).1, hholder⟩

/-- Moves of others leave the caller the turn. -/
theorem others (h : HasTurn e c m) (he : e.Orderly) (hrun : Run e m log m')
    (hlog : ∀ d ∈ log, d.actor ≠ c) :
    HasTurn e c m' ∧ m.world.view.Beside m'.world.view ∧
      ∀ d ∈ log, ∀ n, d.AddsListeners e n := by
  induction hrun with
  | refl => exact ⟨h, .refl _, nofun⟩
  | @move log ds m₁ m₂ hrun hmove ih =>
    obtain ⟨h₁, hbeside, hadds⟩ := ih fun d hd => hlog d (List.mem_append_left _ hd)
    have hds : ∀ d ∈ ds, d.actor ≠ c := fun d hd => hlog d (List.mem_append_right _ hd)
    obtain ⟨log₁, φ, ψ, hc⟩ := h₁.conducted he
    have hmoved := hc.beside he hmove fun u p w hmem =>
      hc.powerless_of_holder h₁.holder (hds _ hmem)
    refine ⟨h₁.move he hmove (hc.holder_of_others he hmove h₁.caller h₁.holder hds),
      hbeside.trans hmoved, fun d hd n => ?_⟩
    rcases List.mem_append.1 hd with hd | hd
    · exact hadds d hd n
    · cases hmove with
      | perform hp hstep =>
        obtain rfl := List.mem_singleton.1 hd
        intro q w' hstep'
        obtain ⟨-, rfl⟩ := Prod.mk.inj (Option.some.inj (hstep.symm.trans hstep'))
        exact hmoved.listeners n
      | drop =>
        obtain rfl := List.mem_singleton.1 hd
        trivial
      | _ => cases hd

end HasTurn

/-! ## Steps of the caller -/

variable {α β : Type}

/-- A run in which the thread of `c` performs a step, after `log₁` and before `log₂`: before the step
the machine is `m₁`, and after it `m₂`. -/
structure Run.Through (e : Engine) (c : TaskId) (m : Machine) (log : List Deed) (m' : Machine)
    (log₁ : List Deed) (m₁ m₂ : Machine) (log₂ : List Deed) : Prop where
  step : ∃ p, log = log₁ ++ .performed c p m₁.world :: log₂ ∧
    Move e m₁ [.performed c p m₁.world] m₂
  before : Run e m log₁ m₁
  after : Run e m₂ log₂ m'

/-- A longer run goes through the same step. -/
theorem Run.Through.extend {mₐ mₑ m₁ m₂ : Machine} {logₐ logₑ log₁ log₂ : List Deed}
    (h : Run.Through e c mₐ log mₑ log₁ m₁ m₂ log₂) (hbefore : Run e m logₐ mₐ)
    (hafter : Run e mₑ logₑ m') :
    Run.Through e c m (logₐ ++ log ++ logₑ) m' (logₐ ++ log₁) m₁ m₂ (log₂ ++ logₑ) where
  step := by
    obtain ⟨p, rfl, hmove⟩ := h.step
    exact ⟨p, by simp, hmove⟩
  before := hbefore.trans h.before
  after := h.after.trans hafter

/-- The steps of the caller `c` change the state as `G` allows; no deed of others takes a listener
away. -/
structure Guarded (e : Engine) (c : TaskId) (G : World → World → Prop) (log : List Deed) :
    Prop where
  own : ∀ p w q w', .performed c p w ∈ log → e.step c w p = some (q, w') → G w w'
  others : ∀ d ∈ log, d.actor ≠ c → ∀ n, d.AddsListeners e n

namespace Guarded

variable {G : World → World → Prop}

theorem append (h : Guarded e c G log) (h' : Guarded e c G log') : Guarded e c G (log ++ log') where
  own p w q w' hmem := (List.mem_append.1 hmem).elim (h.own p w q w') (h'.own p w q w')
  others d hd := (List.mem_append.1 hd).elim (h.others d) (h'.others d)

theorem weaken (h : Guarded e c G log) {G' : World → World → Prop} (hG : ∀ w w', G w w' → G' w w') :
    Guarded e c G' log where
  own p w q w' hmem hstep := hG w w' (h.own p w q w' hmem hstep)
  others := h.others

theorem of_others (h : ∀ d ∈ log, d.actor ≠ c) (hadds : ∀ d ∈ log, ∀ n, d.AddsListeners e n) :
    Guarded e c G log where
  own _ _ _ _ hmem _ := absurd rfl (h _ hmem)
  others d hd _ := hadds d hd

/-- If the steps of the caller take no listener away, no deed does. -/
theorem addsListeners (h : Guarded e c G log) (hG : ∀ w w', G w w' → w.listeners n <+: w'.listeners n) :
    ∀ d ∈ log, d.AddsListeners e n := by
  intro d hd
  by_cases hactor : d.actor = c
  · cases d with
    | dropped => trivial
    | performed t p w =>
      obtain rfl : t = c := hactor
      exact fun q w' hstep => hG w w' (h.own p w q w' hd hstep)
  · exact h.others d hd hactor n

end Guarded

/-- What the caller that has the turn finds around a part of one step, which leaves it the turn. -/
structure HasTurn.Single (e : Engine) (c : TaskId) (p : Execution α) (m : Machine) (log : List Deed)
    (m' : Machine) (a : α) (log₁ : List Deed) (m₁ m₂ : Machine) (log₂ : List Deed) : Prop where
  through : Run.Through e c m log m' log₁ m₁ m₂ log₂
  step : e.step c m₁.world p = some (.done a, m₂.world)
  turn₁ : HasTurn e c m₁
  turn₂ : HasTurn e c m₂
  turn : HasTurn e c m'
  before : m.world.view.Beside m₁.world.view
  after : m₂.world.view.Beside m'.world.view
  others₁ : (∀ d ∈ log₁, d.actor ≠ c) ∧ ∀ d ∈ log₁, ∀ n, d.AddsListeners e n
  others₂ : (∀ d ∈ log₂, d.actor ≠ c) ∧ ∀ d ∈ log₂, ∀ n, d.AddsListeners e n

/-- A part of one step, which leaves the turn where it is. -/
structure Execution.IsSingle (e : Engine) (c : TaskId) (p : Execution α) : Prop where
  begun : ∀ a, p ≠ .done a
  step : ∀ w q w', e.step c w p = some (q, w') →
    (∃ a, q = .done a) ∧ w'.turn.holder = w.turn.holder

theorem HasTurn.single (h : HasTurn e c m) (he : e.Orderly) {p : Execution α}
    (hp : p.IsSingle e c) {k : α → Execution Unit} {a : α}
    (hcourse : Course e c k m' m p log a) :
    ∃ log₁ m₁ m₂ log₂, HasTurn.Single e c p m log m' a log₁ m₁ m₂ log₂ := by
  obtain ⟨m₁, log₁, log₂, r, w, rfl, hstep, hrun₁, hactor₁, hmove, hrun₂, hactor₂⟩ :=
    hcourse.of_single hp.begun fun w q w' hw => (hp.step w q w' hw).1
  obtain ⟨h₁, hbeside₁, hadds₁⟩ := h.others he hrun₁ hactor₁
  have h₂ := h₁.move he hmove ((hp.step _ _ _ hstep).2.trans h₁.holder)
  obtain ⟨h', hbeside₂, hadds₂⟩ := h₂.others he hrun₂ hactor₂
  exact ⟨log₁, m₁, _, log₂, ⟨⟨r, rfl, hmove⟩, hrun₁, hrun₂⟩, hstep, h₁, h₂, h', hbeside₁, hbeside₂,
    ⟨hactor₁, hadds₁⟩, ⟨hactor₂, hadds₂⟩⟩

/-- The listeners of a generation are still there after a step that takes none away. -/
theorem HasTurn.Single.listeners {p : Execution α} {a : α} {log₁ log₂ : List Deed} {m₁ m₂ : Machine}
    (h : HasTurn.Single e c p m log m' a log₁ m₁ m₂ log₂)
    (hstep : m₁.world.listeners n <+: m₂.world.listeners n) :
    m.world.listeners n <+: m'.world.listeners n :=
  (h.before.listeners n).trans (hstep.trans (h.after.listeners n))

/-- The deeds around one step that is as `G` allows. -/
theorem HasTurn.Single.guarded {p : Execution α} {a : α} {log₁ log₂ : List Deed} {m₁ m₂ : Machine}
    (h : HasTurn.Single e c p m log m' a log₁ m₁ m₂ log₂) {G : World → World → Prop}
    (hG : G m₁.world m₂.world) : Guarded e c G log := by
  obtain ⟨r, rfl, hmove⟩ := h.through.step
  have hown : Guarded e c G [.performed c r m₁.world] := by
    refine ⟨fun p w q w' hmem hstep => ?_, fun d hd hne => ?_⟩
    · cases List.mem_singleton.1 hmem
      cases hmove with
      | perform hp hstep' =>
        obtain ⟨-, rfl⟩ := Prod.mk.inj (Option.some.inj (hstep.symm.trans hstep'))
        exact hG
    · exact absurd (List.mem_singleton.1 hd ▸ rfl) hne
  exact (Guarded.of_others h.others₁.1 h.others₁.2).append
    (hown.append (.of_others h.others₂.1 h.others₂.2))

/-! ## What a caller ensures -/

/-- What others can not make false while a caller has the turn. -/
def View.Stable (P : View → Prop) : Prop := ∀ v v', v.Beside v' → P v → P v'

/-- A caller that has the turn, in a state like `P`, comes with `p` to an answer and a state like
`Q`, whatever others do meanwhile. Its own steps are as `G` allows. -/
def Ensures (e : Engine) (c : TaskId) (G : World → World → Prop) (P : View → Prop)
    (p : Execution α) (Q : α → View → Prop) : Prop :=
  ∀ (k : α → Execution Unit) m log m' a, HasTurn e c m → P m.world.view →
    Course e c k m' m p log a → HasTurn e c m' ∧ Q a m'.world.view ∧ Guarded e c G log

namespace Ensures

variable {G : World → World → Prop} {P : View → Prop} {Q : α → View → Prop} {p : Execution α}

theorem done (he : e.Orderly) (hP : View.Stable P) (a : α) :
    Ensures e c G P (.done a) fun a' v => a' = a ∧ P v := by
  intro k m log m' a' h hm hcourse
  cases hcourse with
  | done hrun hactor =>
    obtain ⟨h', hbeside, hadds⟩ := h.others he hrun hactor
    exact ⟨h', ⟨rfl, hP _ _ hbeside hm⟩, .of_others hactor hadds⟩
  | step _ _ _ hstep => cases hstep

theorem bind (h : Ensures e c G P p Q) {l : α → Execution β} {R : β → View → Prop}
    (hl : ∀ a, Ensures e c G (Q a) (l a) R) : Ensures e c G P (p.bind l) R := by
  intro k m log m' b hturn hm hcourse
  obtain ⟨m₁, log₁, log₂, a, rfl, h₁, h₂⟩ := hcourse.of_bind
  obtain ⟨hturn₁, hm₁, hguard₁⟩ := h _ _ _ _ _ hturn hm h₁
  obtain ⟨hturn₂, hm₂, hguard₂⟩ := hl a _ _ _ _ _ hturn₁ hm₁ h₂
  exact ⟨hturn₂, hm₂, hguard₁.append hguard₂⟩

theorem weaken (h : Ensures e c G P p Q) {P' : View → Prop} {Q' : α → View → Prop}
    (hP : ∀ v, P' v → P v) (hQ : ∀ a v, Q a v → Q' a v) : Ensures e c G P' p Q' := by
  intro k m log m' a hturn hm hcourse
  obtain ⟨hturn', hm', hguard⟩ := h _ _ _ _ _ hturn (hP _ hm) hcourse
  exact ⟨hturn', hQ a _ hm', hguard⟩

/-- One step, from a state like `P` that others do not change, to one like `Q`. -/
theorem single (he : e.Orderly) (hp : p.IsSingle e c) (hP : View.Stable P)
    (hQ : ∀ a, View.Stable (Q a))
    (h : ∀ m a w, HasTurn e c m → P m.world.view → e.step c m.world p = some (.done a, w) →
      G m.world w ∧ Q a w.view) : Ensures e c G P p Q := by
  intro k m log m' a hturn hm hcourse
  obtain ⟨log₁, m₁, m₂, log₂, hsingle⟩ := hturn.single he hp hcourse
  obtain ⟨hG, hm₂⟩ := h m₁ a m₂.world hsingle.turn₁ (hP _ _ hsingle.before hm) hsingle.step
  exact ⟨hsingle.turn, hQ a _ _ hsingle.after hm₂, hsingle.guarded hG⟩

end Ensures

theorem Execution.IsSingle.atomically {f : World → α × World}
    (hf : ∀ w, (f w).2.turn.holder = w.turn.holder) : (Execution.atomically f).IsSingle e c where
  begun _ h := by cases h
  step w q w' h := by
    obtain ⟨rfl, rfl⟩ := Prod.mk.inj (Option.some.inj h)
    exact ⟨⟨_, rfl⟩, hf w⟩

/-- To wait for the end of a task is one step, as soon as it has ended. -/
theorem Execution.IsSingle.ended (u : TaskId) :
    (Execution.pause (.ended u) Execution.done).IsSingle e c where
  begun _ h := by cases h
  step w q w' h := by
    obtain ⟨r, -, heq⟩ := Option.map_eq_some_iff.1 h
    obtain ⟨rfl, rfl⟩ := Prod.mk.inj heq
    exact ⟨⟨_, rfl⟩, congrArg View.holder (World.view_settle w c (.ended u))⟩

end BlockEngine
