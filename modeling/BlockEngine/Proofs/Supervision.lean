import BlockEngine.Proofs.Callers

/-!
# Who has which generation

Every generation is recorded for its tab, or in the hand of the caller that has the turn, or gone
for good. The only exception are generations that a caller lost when it dropped its call.

* `View.Records`, `View.Gone` : a generation is recorded; nothing of it is left;
* `Hand.Sound` : what is true of the generations in a hand;
* `Supervised` : the invariant; `Supervised.effect`, `Supervised.talk` : every step keeps it.
-/

namespace BlockEngine

/-! ## Generations in a state -/

namespace View

/-- The supervisor records the generation for a tab. -/
def Records (v : View) (n : Nat) : Prop :=
  ∃ id x g, v.tab? id = some x ∧ x.generation = some g ∧ g.number = n

/-- Nothing is left of a generation: it is destroyed, its tasks have ended, and no lock that is not
released has a subscription of it. -/
structure Gone (v : View) (n : Nat) : Prop where
  destroyed : v.isDestroyed n = true
  quiet : ∀ t s j, v.tasks t = some s → s.job = some j → j.owner = n → s.ended = true
  deaf : ∀ l x, v.locks.lock? l = some x → x.released = false → ∀ s ∈ x.subscriptions, ∀ g,
    s.reaction.home? = some g → g.number ≠ n

variable {v v' : View} {n : Nat}

theorem isDestroyed_of_some {s : GenerationState} (h : v.generation? n = some s) :
    v.isDestroyed n = s.destroyed := by
  unfold isDestroyed
  rw [h]
  rfl

theorem exists_of_isDestroyed (h : v.isDestroyed n = false) :
    ∃ s, v.generation? n = some s ∧ s.destroyed = false := by
  unfold isDestroyed at h
  cases hs : v.generation? n with
  | none => rw [hs] at h; exact absurd h (by simp)
  | some s => rw [hs] at h; exact ⟨s, rfl, h⟩

end View

/-! ## The invariant -/

/-- A caller still has to reload a tab. -/
def Owes (φ : TaskId → Stage) (id : String) : Prop := ∃ t, id ∈ (φ t).owed

/-- A generation is in a hand. -/
def Hand.Has (h : Hand) (n : Nat) : Prop :=
  n ∈ h.taken ∨ (∃ ts, h.ending = some (n, ts)) ∨ ∃ g, h.fresh = some g ∧ g.number = n

/-- What is true of the generations in a hand. `lapsed` : a call was dropped before; `lost` : the
generations lost by that. -/
structure Hand.Sound (lapsed : Prop) (lost : Nat → Prop) (φ : TaskId → Stage) (v : View)
    (h : Hand) : Prop where
  taken : ∀ n ∈ h.taken, ∃ s, v.generation? n = some s ∧ s.destroyed = false ∧ ¬ v.Records n ∧
    ∀ x, v.tab? s.tab = some x → x.status.isActive = false
  apart : h.taken.Pairwise fun n m => ∀ s s', v.generation? n = some s →
    v.generation? m = some s' → s.tab ≠ s'.tab
  ending : ∀ n ts, h.ending = some (n, ts) → ∃ s, v.generation? n = some s ∧
    s.destroyed = true ∧
    (∀ t x j, v.tasks t = some x → x.job = some j → j.owner = n →
      x.ended = false → t ∈ ts) ∧
    ∀ x, v.tab? s.tab = some x → x.status.isActive = false
  fresh : ∀ g, h.fresh = some g → v.Known g ∧ v.isDestroyed g.number = false ∧
    ¬ v.Records g.number ∧ ¬ lost g.number ∧ h.taken = [] ∧ h.ending = none ∧
    ∃ c, h.source = some (g.tab, c) ∧ Supervisor.contentGraph? c = .ok (some g.graph)
  source : ∀ id c, h.source = some (id, c) → ∃ x, v.tab? id = some x ∧ x.generation = none ∧
    (x.content = c ∨ Owes φ id ∨ lapsed)
  shut : ∀ id, h.shut id → h.fresh = none ∧ ∀ x, v.tab? id = some x → x.generation = none

/-- Who has which generation, when the threads stand where `φ` says. -/
structure Supervised (lapsed : Prop) (lost : Nat → Prop) (φ : TaskId → Stage) (v : View) :
    Prop where
  status : ∀ id x, v.tab? id = some x → (x.generation.isSome = true ↔ x.status = .running)
  alive : ∀ n, v.Records n → v.isDestroyed n = false
  current : ∀ id x g, v.tab? id = some x → x.generation = some g →
    Supervisor.contentGraph? x.content = .ok (some g.graph) ∨ Owes φ id ∨ lapsed
  holder : ∀ t h, (φ t).hand = some h → v.holder = some t
  hands : ∀ t h, (φ t).hand = some h → h.Sound lapsed lost φ v
  placed : ∀ n s, v.generation? n = some s →
    v.Records n ∨ (∃ t h, (φ t).hand = some h ∧ h.Has n) ∨ v.Gone n ∨ lost n
  tracked : ∀ t s j, v.tasks t = some s → s.job = some j →
    ∃ x, v.generation? j.owner = some x ∧
      (s.ended = false → x.destroyed = false → ∃ y ∈ x.tracked, y.task = t)
  lost : ∀ n, lost n → (∃ s, v.generation? n = some s) ∧ ¬ v.Records n

variable {e : Engine} {t : TaskId} {lapsed : Prop} {lost : Nat → Prop} {φ φ' : TaskId → Stage}
  {γ γ' : Stage} {v v' : View}

/-! ## Changes that leave all generations where they are -/

/-- The later state has the same tabs and generations. Tasks are added to generations that take
them, and subscriptions to generations that are not gone. -/
structure View.Frames (v v' : View) : Prop where
  le : v ≤ v'
  tabs : v'.tabs = v.tabs
  holder : v'.holder = v.holder
  generation : ∀ n s', v'.generation? n = some s' → ∃ s, v.generation? n = some s ∧
    s'.tab = s.tab ∧ s'.destroyed = s.destroyed ∧
    ∀ y ∈ s.tracked, v.isEnded y.task = false → y ∈ s'.tracked
  task : ∀ t s' j, v'.tasks t = some s' → s'.job = some j →
    (∃ s, v.tasks t = some s ∧ s.job = some j) ∨
    ∃ x, v'.generation? j.owner = some x ∧ x.destroyed = false ∧ ∃ y ∈ x.tracked, y.task = t
  listens : ∀ l x', v'.locks.lock? l = some x' → ∀ s ∈ x'.subscriptions,
    (∃ x, v.locks.lock? l = some x ∧ s ∈ x.subscriptions) ∨
    ∀ g, s.reaction.home? = some g → ¬ v.Gone g.number

namespace View.Frames

variable {n : Nat}

theorem tab? (h : v.Frames v') (id : String) : v'.tab? id = v.tab? id := by
  unfold View.tab?
  rw [h.tabs]

theorem records (h : v.Frames v') : v'.Records n ↔ v.Records n := by
  unfold Records
  simp only [h.tab?]

/-- A generation of the earlier state, later. -/
theorem later (h : v.Frames v') {s : GenerationState} (hs : v.generation? n = some s) :
    ∃ s', v'.generation? n = some s' ∧ s'.tab = s.tab ∧ s'.destroyed = s.destroyed ∧
      ∀ y ∈ s.tracked, v.isEnded y.task = false → y ∈ s'.tracked := by
  obtain ⟨s', hs', -⟩ := h.le.generation n s hs
  obtain ⟨s₀, hs₀, hkeep⟩ := h.generation n s' hs'
  obtain rfl : s = s₀ := Option.some.inj (hs.symm.trans hs₀)
  exact ⟨s', hs', hkeep⟩

theorem isDestroyed (h : v.Frames v') : v'.isDestroyed n = v.isDestroyed n := by
  cases hs : v.generation? n with
  | some s =>
    obtain ⟨s', hs', -, hd, -⟩ := h.later hs
    rw [isDestroyed_of_some hs', isDestroyed_of_some hs, hd]
  | none =>
    cases hs' : v'.generation? n with
    | none => unfold View.isDestroyed; rw [hs, hs']
    | some s' =>
      obtain ⟨s, hs'', -⟩ := h.generation n s' hs'
      exact absurd (hs.symm.trans hs'') (by simp)

/-- A task that works for a destroyed generation was there before. -/
theorem task_of (h : v.Frames v') {t : TaskId} {s' : Standing} {j : Job}
    (hs' : v'.tasks t = some s') (hj : s'.job = some j) (hd : v.isDestroyed j.owner = true) :
    ∃ s, v.tasks t = some s ∧ s.job = some j ∧ (s'.ended = false → s.ended = false) := by
  rcases h.task t s' j hs' hj with ⟨s, hs, hjob⟩ | ⟨x, hx, hnd, -⟩
  · obtain ⟨s'', hs'', -, -, hend⟩ := h.le.task t s hs
    obtain rfl : s' = s'' := Option.some.inj (hs'.symm.trans hs'')
    refine ⟨s, hs, hjob, fun hn => ?_⟩
    cases hse : s.ended with
    | false => rfl
    | true => exact absurd (hn.symm.trans (hend hse)) (by simp)
  · rw [← h.isDestroyed, isDestroyed_of_some hx, hnd] at hd
    exact absurd hd (by simp)

end View.Frames

/-- What is gone stays gone. -/
theorem View.Gone.frame {n : Nat} (h : v.Gone n) (hf : v.Frames v') : v'.Gone n where
  destroyed := hf.isDestroyed.trans h.destroyed
  quiet t s' j hs' hj ho := by
    obtain ⟨s, hs, hjob, hend⟩ := hf.task_of hs' hj (ho ▸ h.destroyed)
    have hended := h.quiet t s j hs hjob ho
    cases hs'e : s'.ended with
    | true => rfl
    | false => exact absurd (hended.symm.trans (hend hs'e)) (by simp)
  deaf l x' hx' hr s hs g hg := by
    rcases hf.listens l x' hx' s hs with ⟨x, hx, hmem⟩ | hnew
    · refine h.deaf l x hx ?_ s hmem g hg
      obtain ⟨x'', hx'', -, -, hrel⟩ := hf.le.locks.lock l x hx
      obtain rfl : x' = x'' := Option.some.inj (hx'.symm.trans hx'')
      cases hxr : x.released with
      | false => rfl
      | true => exact absurd (hr.symm.trans (hrel hxr)) (by simp)
    · exact fun hn => hnew g hg (hn ▸ h)

theorem Hand.Sound.frame {h : Hand} (hh : h.Sound lapsed lost φ v) (hf : v.Frames v') :
    h.Sound lapsed lost φ v' where
  taken n hn := by
    obtain ⟨s, hs, hd, hrec, htab⟩ := hh.taken n hn
    obtain ⟨s', hs', htab', hd', -⟩ := hf.later hs
    refine ⟨s', hs', hd'.trans hd, fun h => hrec (hf.records.1 h), fun x hx => htab x ?_⟩
    rw [← htab', ← hf.tab?]
    exact hx
  apart := hh.apart.imp fun hnm s₁ s₂ h₁ h₂ => by
    obtain ⟨s₁', h₁', ht₁, -⟩ := hf.generation _ s₁ h₁
    obtain ⟨s₂', h₂', ht₂, -⟩ := hf.generation _ s₂ h₂
    rw [ht₁, ht₂]
    exact hnm s₁' s₂' h₁' h₂'
  ending n ts hn := by
    obtain ⟨s, hs, hd, hlive, htab⟩ := hh.ending n ts hn
    obtain ⟨s', hs', htab', hd', -⟩ := hf.later hs
    refine ⟨s', hs', hd'.trans hd, fun t x' j hx' hj ho hend => ?_, fun x hx => htab x ?_⟩
    · obtain ⟨x, hx, hjob, hend'⟩ := hf.task_of hx' hj
        (by rw [ho, View.isDestroyed_of_some hs, hd])
      exact hlive t x j hx hjob ho (hend' hend)
    · rw [← htab', ← hf.tab?]
      exact hx
  fresh g hg := by
    obtain ⟨hk, hd, hrec, hrest⟩ := hh.fresh g hg
    exact ⟨hk.mono hf.le, hf.isDestroyed.trans hd, fun h => hrec (hf.records.1 h), hrest⟩
  source id c hc := by
    rw [hf.tab?]
    exact hh.source id c hc
  shut id hid := by
    rw [hf.tab?]
    exact hh.shut id hid

/-- A change that leaves all generations where they are. -/
theorem Supervised.frame (h : Supervised lapsed lost φ v) (hf : v.Frames v') :
    Supervised lapsed lost φ v' where
  status id x hx := h.status id x (hf.tab? id ▸ hx)
  alive n hn := hf.isDestroyed.trans (h.alive n (hf.records.1 hn))
  current id x g hx := h.current id x g (hf.tab? id ▸ hx)
  holder t hd hh := hf.holder.trans (h.holder t hd hh)
  hands t hd hh := (h.hands t hd hh).frame hf
  placed n s' hs' := by
    obtain ⟨s, hs, -⟩ := hf.generation n s' hs'
    rcases h.placed n s hs with hrec | hhand | hgone | hlost
    · exact .inl (hf.records.2 hrec)
    · exact .inr (.inl hhand)
    · exact .inr (.inr (.inl (hgone.frame hf)))
    · exact .inr (.inr (.inr hlost))
  tracked t s' j hs' hj := by
    rcases hf.task t s' j hs' hj with ⟨s, hs, hjob⟩ | ⟨x, hx, -, hy⟩
    · obtain ⟨x, hx, hlive⟩ := h.tracked t s j hs hjob
      obtain ⟨x', hx', -, hd, htr⟩ := hf.later hx
      refine ⟨x', hx', fun he hd' => ?_⟩
      obtain ⟨s'', hs'', -, -, hend⟩ := hf.le.task t s hs
      obtain rfl : s' = s'' := Option.some.inj (hs'.symm.trans hs'')
      have hse : s.ended = false := by
        cases hse : s.ended with
        | false => rfl
        | true => exact absurd (he.symm.trans (hend hse)) (by simp)
      obtain ⟨y, hy, hyt⟩ := hlive hse (hd ▸ hd')
      refine ⟨y, htr y hy ?_, hyt⟩
      rw [hyt, View.isEnded, hs]
      exact hse
    · exact ⟨x, hx, fun _ _ => hy⟩
  lost n hn := by
    obtain ⟨⟨s, hs⟩, hrec⟩ := h.lost n hn
    obtain ⟨s', hs', -⟩ := hf.later hs
    exact ⟨⟨s', hs'⟩, fun h => hrec (hf.records.1 h)⟩

/-! ## Which changes these are -/

/-- The generation that a job is done for is the one it acts for. -/
theorem Job.owner_of_home {j : Job} {g : Generation} (h : j.home? = some g) :
    j.owner = g.number := by
  cases j with
  | stopAfter => cases h
  | root s | chain s | chainIf s | body s | watch s =>
    exact congrArg Generation.number (Option.some.inj h)

namespace View.Frames

/-- Nothing but the locks and the numbers drawn differs. -/
theorem of_locks {locks : LockTable Reaction} {i : Nat} (hi : v.issued ≤ i)
    (hle : v.locks.Le locks)
    (hl : ∀ l x', locks.lock? l = some x' → ∀ s ∈ x'.subscriptions,
      (∃ x, v.locks.lock? l = some x ∧ s ∈ x.subscriptions) ∨
      ∀ g, s.reaction.home? = some g → ¬ v.Gone g.number) :
    v.Frames { v with issued := i, locks } where
  le := View.le_of_eq hi hle rfl rfl rfl
  tabs := rfl
  holder := rfl
  generation _ s' hs' := ⟨s', hs', rfl, rfl, fun _ hy _ => hy⟩
  task _ s' _ hs' hj := .inl ⟨s', hs', hj⟩
  listens := hl

theorem refl (v : View) : v.Frames v :=
  of_locks (Nat.le_refl _) (.refl _) fun _ x hx _ hs => .inl ⟨x, hx, hs⟩

theorem draw {i : Nat} (hi : v.issued ≤ i) : v.Frames { v with issued := i } :=
  of_locks hi (.refl _) fun _ x hx _ hs => .inl ⟨x, hx, hs⟩

theorem of_sheds {locks : LockTable Reaction} (hle : v.locks.Le locks)
    (hsheds : v.locks.Sheds locks) : v.Frames { v with locks } :=
  of_locks (Nat.le_refl _) hle fun l x' hx' s hs => by
    rcases hsheds l x' hx' with ⟨x, hx, -, -, hsub⟩ | ⟨-, hnil⟩
    · exact .inl ⟨x, hx, hsub s hs⟩
    · rw [hnil] at hs
      cases hs

theorem modifyGeneration (h : v.Frames v') (n : Nat)
    {f : GenerationState → GenerationState} (hf : KeepsTasks f) :
    v.Frames (v'.modifyGeneration n f) where
  le := View.le_trans h.le (View.KeepsTasks_le hf v' n)
  tabs := (View.tabs_modifyGeneration ..).trans h.tabs
  holder := (View.holder_modifyGeneration ..).trans h.holder
  generation k s'' hs'' := by
    rw [View.generation?_modifyGeneration] at hs''
    split at hs''
    · next hk =>
      subst hk
      obtain ⟨s', hs', rfl⟩ := Option.map_eq_some_iff.1 hs''
      obtain ⟨s, hs, ht, hd, htr⟩ := h.generation k s' hs'
      obtain ⟨hft, hftr, hfd⟩ := hf s'
      exact ⟨s, hs, hft.trans ht, hfd.trans hd, fun y hy hn => hftr ▸ htr y hy hn⟩
    · exact h.generation k s'' hs''
  task t s' j hs' hj := by
    rw [View.tasks_modifyGeneration] at hs'
    rcases h.task t s' j hs' hj with hold | ⟨x, hx, hd, y, hy, hyt⟩
    · exact .inl hold
    · refine .inr ?_
      rw [View.generation?_modifyGeneration]
      split
      · next hk =>
        obtain ⟨-, hftr, hfd⟩ := hf x
        exact ⟨f x, by rw [← hk, hx]; rfl, hfd.trans hd, y, hftr ▸ hy, hyt⟩
      · exact ⟨x, hx, hd, y, hy, hyt⟩
  listens l x' hx' := by
    rw [View.locks_modifyGeneration] at hx'
    exact h.listens l x' hx'

/-- What changes a task and leaves its job. -/
theorem modifyTask (h : v.Frames v') (t : TaskId) {f : Standing → Standing}
    (hf : ∀ s, (f s).job = s.job ∧ (s.cancelled = true → (f s).cancelled = true) ∧
      (s.ended = true → (f s).ended = true)) : v.Frames (v'.modifyTask t f) where
  le := View.le_trans h.le (View.le_modifyTask v' t f hf)
  tabs := h.tabs
  holder := h.holder
  generation := h.generation
  task u s' j hs' hj := by
    rw [View.tasks_modifyTask] at hs'
    split at hs'
    · next hu =>
      subst hu
      obtain ⟨s, hs, rfl⟩ := Option.map_eq_some_iff.1 hs'
      exact h.task u s j hs ((hf s).1 ▸ hj)
    · exact h.task u s' j hs' hj
  listens := h.listens

theorem cancelAll (h : v.Frames v') (ts : List TaskId) : v.Frames (ts.foldl View.cancel v') := by
  induction ts generalizing v' with
  | nil => exact h
  | cons t ts ih => exact ih (h.modifyTask t fun _ => ⟨rfl, fun h => by simp [h], id⟩)

theorem spawn (hs : v.Sound e) {i : Nat} (hi : v.issued ≤ i) (d : String) (c : Context)
    (j : Job) : v.Frames ({ v with issued := i }.spawn j.owner d c j) := by
  let v₁ : View := { v with issued := i }
  unfold View.spawn
  cases hd : v₁.isDestroyed j.owner with
  | true => exact draw hi
  | false =>
    simp only [Bool.false_eq_true, if_false]
    obtain ⟨s, hgen, hnd⟩ := View.exists_of_isDestroyed hd
    have hold : ∀ t x, v.tasks t = some x → (v₁.addTask (some j)).tasks t = some x := by
      intro t x hx
      rw [View.tasks_addTask, if_neg (Nat.ne_of_lt (hs.tasksNumbered t x hx))]
      exact hx
    refine ⟨?_, ?_, ?_, fun k s' hs' => ?_, fun t s' j' hs' hj' => ?_, fun l x' hx' s' hs' => ?_⟩
    · refine View.le_trans (View.le_draw hi) (View.le_trans (View.le_addTask ?_ (some j)) ?_)
      · exact hs.tasksNumbered
      · exact View.le_modifyGeneration _ _ _ fun _ => ⟨rfl, id⟩
    · exact View.tabs_modifyGeneration ..
    · exact View.holder_modifyGeneration ..
    · rw [View.generation?_modifyGeneration] at hs'
      split at hs'
      · next hk =>
        subst hk
        obtain ⟨s₀, hs₀, rfl⟩ := Option.map_eq_some_iff.1 hs'
        refine ⟨s₀, hs₀, rfl, rfl, fun y hy hn => List.mem_append_left _ (List.mem_filter.2 ⟨hy, ?_⟩)⟩
        unfold View.isEnded at hn ⊢
        cases hy' : v.tasks y.task with
        | none => rw [hy'] at hn; exact absurd hn (by simp)
        | some x =>
          rw [hy'] at hn
          rw [hold _ x hy']
          simpa using hn
      · exact ⟨s', hs', rfl, rfl, fun _ hy _ => hy⟩
    · rw [View.tasks_modifyGeneration, View.tasks_addTask] at hs'
      split at hs'
      · next ht =>
        obtain rfl := Option.some.inj hs'
        obtain rfl : j = j' := Option.some.inj hj'
        let old := s.tracked.filter fun x => !(v₁.addTask (some j)).isEnded x.task
        let s₁ : GenerationState := { s with tracked := old ++ [⟨v.taskCount, d, c⟩] }
        refine .inr ⟨s₁, ?_, hnd, ⟨v.taskCount, d, c⟩,
          List.mem_append_right _ (List.mem_singleton_self _), ht.symm⟩
        rw [View.generation?_modifyGeneration, if_pos rfl]
        exact congrArg (Option.map _) hgen
      · exact .inl ⟨s', hs', hj'⟩
    · rw [View.locks_modifyGeneration] at hx'
      exact .inl ⟨x', hx', hs'⟩

end View.Frames

end BlockEngine
