import BlockEngine.Proofs.Discipline

/-!
# What every step keeps

* `Effect.le`, `Talk.le` : steps only grow the view;
* `Effect.sound`, `Talk.sound` : steps keep sound views sound.
-/

namespace BlockEngine

/-! ## Locks -/

/-- Every waiter and every subscription of a lock was there before. -/
def LockTable.Sheds {ρ : Type} (t t' : LockTable ρ) : Prop :=
  ∀ l x', t'.lock? l = some x' →
    (∃ x, t.lock? l = some x ∧ x'.key = x.key ∧ (∀ w ∈ x'.waiters, w ∈ x.waiters) ∧
      ∀ s ∈ x'.subscriptions, s ∈ x.subscriptions) ∨
    x'.waiters = [] ∧ x'.subscriptions = []

namespace LockTable.Sheds

variable {ρ : Type} {t t' : LockTable ρ}

theorem refl (t : LockTable ρ) : t.Sheds t :=
  fun _ x hx => Or.inl ⟨x, hx, rfl, fun _ h => h, fun _ h => h⟩

theorem close (t : LockTable ρ) (m : MailboxId) : t.Sheds (t.close m) :=
  fun _ x hx => Or.inl ⟨x, hx, rfl, fun _ h => h, fun _ h => h⟩

theorem obtain (t : LockTable ρ) (tab owner key : String) :
    t.Sheds (t.obtain tab owner key).2 := by
  intro l x' hx'
  rcases lock?_obtain hx' with hx | rfl
  · exact refl t l x' hx
  · exact Or.inr ⟨rfl, rfl⟩

theorem deliver (t : LockTable ρ) (l : LockId) (v : Json) : t.Sheds (t.deliver l v).2 := by
  intro l' x' hx'
  obtain ⟨x, hx, value, ws, rfl, hws⟩ := lock?_deliver hx'
  exact Or.inl ⟨x, hx, rfl, hws, fun _ h => h⟩

theorem release (h : t.Sound) (tab : String) : t.Sheds (t.release tab).2 := by
  intro l x' hx'
  obtain ⟨x, hx⟩ := lock?_of_release hx'
  rw [h.lock?_release hx, Option.some.injEq] at hx'
  subst hx'
  split
  · exact Or.inr ⟨rfl, rfl⟩
  · exact refl t l x hx

theorem releaseAll (h : t.Sound) : t.Sheds t.releaseAll.2 := by
  intro l x' hx'
  obtain ⟨x, hx⟩ := lock?_of_releaseAll hx'
  rw [h.lock?_releaseAll hx, Option.some.injEq] at hx'
  subst hx'
  exact Or.inr ⟨rfl, rfl⟩

theorem thinned (h : t.Thinned t') : t.Sheds t' := by
  intro l x' hx'
  rcases h.lock l with he | ⟨x, subs, hx, he, hsubs⟩
  · exact refl t l x' (he ▸ hx')
  · obtain rfl := Option.some.inj (he.symm.trans hx')
    exact Or.inl ⟨x, hx, rfl, fun _ h => h, hsubs⟩

end LockTable.Sheds

namespace LockTable.Thinned

variable {ρ : Type} {t t' t'' : LockTable ρ}

theorem refl (t : LockTable ρ) : t.Thinned t := ⟨rfl, rfl, rfl, fun _ => Or.inl rfl⟩

theorem trans (h : t.Thinned t') (h' : t'.Thinned t'') : t.Thinned t'' where
  held := h'.held.trans h.held
  mailboxes := h'.mailboxes.trans h.mailboxes
  issued := h'.issued.trans h.issued
  lock l := by
    rcases h'.lock l with he' | ⟨x', subs', hx', he', hsubs'⟩
    · rw [he']
      exact h.lock l
    · rcases h.lock l with he | ⟨x, subs, hx, he, hsubs⟩
      · exact Or.inr ⟨x', subs', he ▸ hx', he', hsubs'⟩
      · obtain rfl := Option.some.inj (he.symm.trans hx')
        exact Or.inr ⟨x, subs', hx, he', fun s hs => hsubs s (hsubs' s hs)⟩

theorem unsubscribe (t : LockTable ρ) (l : LockId) (id : SubscriptionId) :
    t.Thinned (t.unsubscribe l id).2 where
  held := rfl
  mailboxes := rfl
  issued := rfl
  lock l' := by
    unfold LockTable.unsubscribe
    rw [lock?_modify]
    split
    · next he =>
      cases hx : t.lock? l' with
      | none => exact Or.inl rfl
      | some x => exact Or.inr ⟨x, _, rfl, rfl, fun s hs => (List.mem_filter.1 hs).1⟩
    · exact Or.inl rfl

theorem unsubscribeAll (t : LockTable ρ) (ss : List (LockId × SubscriptionId)) :
    t.Thinned (t.unsubscribeAll ss) := by
  induction ss generalizing t with
  | nil => exact refl t
  | cons s ss ih => exact (unsubscribe t s.1 s.2).trans (ih _)

theorem le (h : t.Thinned t') : t.Le t' := by
  refine Le.of_lock (Nat.le_of_eq h.issued.symm) fun l x hx => ?_
  rcases h.lock l with he | ⟨y, subs, hy, he, -⟩
  · exact ⟨x, he.trans hx, rfl, rfl, rfl⟩
  · obtain rfl := Option.some.inj (hy.symm.trans hx)
    exact ⟨_, he, rfl, rfl, rfl⟩

theorem sound (h : t.Thinned t') (hs : t.Sound) : t'.Sound := by
  refine hs.of_eq h.held h.issued (by rw [h.mailboxes]) (fun l x' hx' => ?_) fun l x hx => ?_
  · rcases h.lock l with he | ⟨x, subs, hx, he, hsubs⟩
    · exact ⟨x', he ▸ hx', rfl, rfl, rfl, hs.ended l x' (he ▸ hx')⟩
    · obtain rfl := Option.some.inj (he.symm.trans hx')
      refine ⟨x, hx, rfl, rfl, rfl, fun hr => ?_⟩
      obtain ⟨hw, hxs⟩ := hs.ended l x hx hr
      refine ⟨hw, List.eq_nil_iff_forall_not_mem.2 fun s hmem => ?_⟩
      have := hsubs s hmem
      rw [hxs] at this
      exact absurd this (by simp)
  · rcases h.lock l with he | ⟨y, subs, -, he, -⟩
    · exact ⟨x, he.trans hx⟩
    · exact ⟨_, he⟩

end LockTable.Thinned

/-! ## Growth -/

variable {e : Engine} {t : TaskId} {γ γ' : Stage} {σ σ' : Stance} {v v' : View}

theorem GenerationState.keepsTasks_addListener (block : String) (x : Listener) :
    KeepsTasks (·.addListener block x) := fun _ => ⟨rfl, rfl, rfl⟩

theorem GenerationState.keepsTasks_dropListeners : KeepsTasks (·.dropListeners) :=
  fun _ => ⟨rfl, rfl, rfl⟩

namespace View

theorem KeepsTasks_le {f : GenerationState → GenerationState} (hf : KeepsTasks f) (v : View)
    (n : Nat) : v ≤ v.modifyGeneration n f :=
  le_modifyGeneration v n f fun s => ⟨(hf s).1, fun h => (hf s).2.2.trans h⟩

theorem le_draw {i : Nat} (hi : v.issued ≤ i) : v ≤ { v with issued := i } :=
  le_of_eq hi (.refl _) rfl rfl rfl

theorem le_withLocks {locks : LockTable Reaction} (h : v.locks.Le locks) :
    v ≤ { v with locks } :=
  le_of_eq (Nat.le_refl _) h rfl rfl rfl

theorem le_destroy (v : View) (n : Nat) : v ≤ v.destroy n :=
  le_modifyGeneration v n (fun s => { s with tracked := [], destroyed := true })
    fun _ => ⟨rfl, fun _ => rfl⟩

theorem le_modifyTab (v : View) (id : String) (f : TabEntry → TabEntry) :
    v ≤ v.modifyTab id f := by
  unfold modifyTab
  split
  · exact le_of_eq (Nat.le_refl _) (.refl _) rfl rfl rfl
  · exact le_refl v

end View

theorem Effect.le (h : Effect e t γ v γ' v') (hs : v.Sound e) : v ≤ v' := by
  cases h with
  | idle | miss | awaited => exact View.le_refl v
  | draw hi => exact View.le_draw hi
  | touch hf => exact View.KeepsTasks_le hf v _
  | spawn hi =>
    refine View.le_trans (View.le_draw hi) (View.le_spawn ?_ ..)
    exact hs.tasksNumbered
  | obtain => exact View.le_withLocks (.obtain ..)
  | listen =>
    exact View.le_trans (View.le_withLocks (.subscribe ..))
      (View.KeepsTasks_le (GenerationState.keepsTasks_addListener _ _) _ _)
  | signal => exact View.le_withLocks (.deliver ..)
  | cancel => exact View.le_cancelAll v _
  | put | enter | yield | take | takeAll | withdraw =>
    exact View.le_of_eq (Nat.le_refl _) (.refl _) rfl rfl rfl
  | release | bury => exact View.le_withLocks (.release hs.locks _)
  | releaseAll => exact View.le_withLocks (.releaseAll hs.locks)
  | unlisten =>
    exact View.le_trans (View.le_withLocks (LockTable.Thinned.unsubscribeAll ..).le)
      (View.KeepsTasks_le GenerationState.keepsTasks_dropListeners _ _)
  | abort => exact View.le_cancel v _
  | destroy => exact View.le_destroy v _
  | mark | install => exact View.le_modifyTab v _ _
  | renew =>
    refine ⟨Nat.le_succ _, Nat.le_refl _, .refl _, fun t s h => ⟨s, h, rfl, id, id⟩,
      fun n s h => ⟨s, ?_, rfl, id⟩⟩
    have hne : v.issued ≠ n := Nat.ne_of_gt (hs.generationsNumbered n s h)
    simpa [View.generation?, Std.ExtTreeMap.getElem?_insert, hne] using h

theorem Talk.le (h : Talk e σ v σ' v') (hs : v.Sound e) : v ≤ v' := by
  cases h with
  | doze => exact View.le_withLocks (.register ..)
  | wake | conclude => exact View.le_withLocks (.close ..)
  | enroll => exact View.le_of_eq (Nat.le_succ _) (.register ..) rfl rfl rfl
  | request => exact View.le_withLocks (.deliver ..)
  | startBody =>
    refine View.le_trans (View.le_draw (Nat.le_succ _)) (View.le_spawn ?_ ..)
    exact hs.tasksNumbered

/-! ## Soundness -/

namespace View.Sound

/-- A later view is sound if what is new in it is. -/
theorem grow (h : v.Sound e) (hle : v ≤ v') (hlocks : v'.locks.Sound)
    (hsubs : ∀ l x', v'.locks.lock? l = some x' → ∀ s ∈ x'.subscriptions,
      (∃ x, v.locks.lock? l = some x ∧ s ∈ x.subscriptions) ∨
      s.filter = .all ∧ s.reaction.Coherent e.environment v' l)
    (hwaiters : ∀ l x', v'.locks.lock? l = some x' → ∀ w ∈ x'.waiters,
      (∃ x, v.locks.lock? l = some x ∧ x'.key = x.key ∧ w ∈ x.waiters) ∨
      ∀ signature, x'.key ≠ (LockKey.procedure signature).text)
    (hjobs : ∀ t s' j, v'.tasks t = some s' → s'.job = some j →
      (∃ s, v.tasks t = some s ∧ s.job = some j) ∨ j.Coherent v')
    (htasks : v'.TasksNumbered) (hordered : Keyed.Ordered v'.tabs)
    (hrecorded : ∀ id x' g, v'.tab? id = some x' → x'.generation = some g →
      (∃ x, v.tab? id = some x ∧ x.generation = some g) ∨ g.tab = id ∧ v'.Known g)
    (hgenerations : ∀ n s, v'.generation? n = some s → n < v'.issued) : v'.Sound e where
  locks := hlocks
  subscribed l x' hx' s hs := by
    rcases hsubs l x' hx' s hs with ⟨x, hx, hmem⟩ | hnew
    · obtain ⟨hf, hc⟩ := h.subscribed l x hx s hmem
      exact ⟨hf, hc.mono hle⟩
    · exact hnew
  unheard l x' σ hx' hkey := by
    refine List.eq_nil_iff_forall_not_mem.2 fun w hw => ?_
    rcases hwaiters l x' hx' w hw with ⟨x, hx, hk, hmem⟩ | hnew
    · rw [h.unheard l x σ hx (hk ▸ hkey)] at hmem
      exact absurd hmem (by simp)
    · exact hnew σ hkey
  jobs t s' j hs' hj := by
    rcases hjobs t s' j hs' hj with ⟨s, hs, hj'⟩ | hnew
    · exact (h.jobs t s j hs hj').mono hle
    · exact hnew
  ordered := hordered
  recorded id x' g hx' hg := by
    rcases hrecorded id x' g hx' hg with ⟨x, hx, hg'⟩ | hnew
    · obtain ⟨ht, hk⟩ := h.recorded id x g hx hg'
      exact ⟨ht, hk.mono hle⟩
    · exact hnew
  tasksNumbered := htasks
  generationsNumbered := hgenerations

/-- A change of nothing but the locks and the numbers drawn. -/
theorem of_locks (h : v.Sound e) {locks : LockTable Reaction} {i : Nat} (hi : v.issued ≤ i)
    (hle : v.locks.Le locks) (hlocks : locks.Sound)
    (hsubs : ∀ l x', locks.lock? l = some x' → ∀ s ∈ x'.subscriptions,
      (∃ x, v.locks.lock? l = some x ∧ s ∈ x.subscriptions) ∨
      s.filter = .all ∧ s.reaction.Coherent e.environment v l)
    (hwaiters : ∀ l x', locks.lock? l = some x' → ∀ w ∈ x'.waiters,
      (∃ x, v.locks.lock? l = some x ∧ x'.key = x.key ∧ w ∈ x.waiters) ∨
      ∀ signature, x'.key ≠ (LockKey.procedure signature).text) :
    View.Sound e { v with issued := i, locks } := by
  have hgrow : v ≤ { v with issued := i, locks } := View.le_of_eq hi hle rfl rfl rfl
  refine h.grow hgrow hlocks (fun l x' hx' s hs => ?_) hwaiters
    (fun t s j hs hj => Or.inl ⟨s, hs, hj⟩) h.tasksNumbered h.ordered
    (fun id x g hx hg => Or.inl ⟨x, hx, hg⟩)
    fun n s hs => Nat.lt_of_lt_of_le (h.generationsNumbered n s hs) hi
  exact (hsubs l x' hx' s hs).imp id fun ⟨hf, hc⟩ => ⟨hf, hc.mono hgrow⟩

theorem of_sheds (h : v.Sound e) {locks : LockTable Reaction} (hle : v.locks.Le locks)
    (hlocks : locks.Sound) (hsheds : v.locks.Sheds locks) :
    View.Sound e { v with locks } := by
  refine h.of_locks (Nat.le_refl _) hle hlocks (fun l x' hx' s hs => ?_) fun l x' hx' w hw => ?_
  · rcases hsheds l x' hx' with ⟨x, hx, -, -, hsub⟩ | ⟨-, hnil⟩
    · exact Or.inl ⟨x, hx, hsub s hs⟩
    · rw [hnil] at hs
      exact absurd hs (by simp)
  · rcases hsheds l x' hx' with ⟨x, hx, hkey, hws, -⟩ | ⟨hnil, -⟩
    · exact Or.inl ⟨x, hx, hkey, hws w hw⟩
    · rw [hnil] at hw
      exact absurd hw (by simp)

theorem draw (h : v.Sound e) {i : Nat} (hi : v.issued ≤ i) :
    View.Sound e { v with issued := i } :=
  h.of_locks hi (.refl _) h.locks (fun _ x hx _ hs => Or.inl ⟨x, hx, hs⟩)
    fun _ x hx _ hw => Or.inl ⟨x, hx, rfl, hw⟩

/-- A change of nothing but tasks, generations and tabs. -/
theorem of_locks_eq (h : v.Sound e) (hle : v ≤ v') (hlocks : v'.locks = v.locks)
    (hjobs : ∀ t s' j, v'.tasks t = some s' → s'.job = some j →
      (∃ s, v.tasks t = some s ∧ s.job = some j) ∨ j.Coherent v')
    (htasks : v'.TasksNumbered) (hordered : Keyed.Ordered v'.tabs)
    (hrecorded : ∀ id x' g, v'.tab? id = some x' → x'.generation = some g →
      (∃ x, v.tab? id = some x ∧ x.generation = some g) ∨ g.tab = id ∧ v'.Known g)
    (hgenerations : ∀ n s, v'.generation? n = some s → n < v'.issued) : v'.Sound e :=
  h.grow hle (hlocks ▸ h.locks) (fun _ x hx _ hs => Or.inl ⟨x, hlocks ▸ hx, hs⟩)
    (fun _ x hx _ hw => Or.inl ⟨x, hlocks ▸ hx, rfl, hw⟩) hjobs htasks hordered hrecorded
    hgenerations

theorem modifyGeneration (h : v.Sound e) (n : Nat) {f : GenerationState → GenerationState}
    (hf : ∀ s, (f s).tab = s.tab ∧ (s.destroyed = true → (f s).destroyed = true)) :
    (v.modifyGeneration n f).Sound e := by
  refine h.of_locks_eq (View.le_modifyGeneration v n f hf) (by simp)
    (fun t s j hs hj => Or.inl ⟨s, by simpa using hs, hj⟩) (fun t s hs => ?_) ?_
    (fun id x g hx hg => Or.inl ⟨x, ?_, hg⟩) fun k s hs => ?_
  · rw [View.taskCount_modifyGeneration]
    exact h.tasksNumbered t s (by simpa using hs)
  · rw [View.tabs_modifyGeneration]
    exact h.ordered
  · unfold View.tab? at hx ⊢
    rwa [View.tabs_modifyGeneration] at hx
  · rw [View.issued_modifyGeneration]
    rw [View.generation?_modifyGeneration] at hs
    split at hs
    · next hk =>
      subst hk
      obtain ⟨s', hs', -⟩ := Option.map_eq_some_iff.1 hs
      exact h.generationsNumbered k s' hs'
    · exact h.generationsNumbered k s hs

theorem modifyTask (h : v.Sound e) (t : TaskId) {f : Standing → Standing}
    (hf : ∀ s, (f s).job = s.job ∧ (s.cancelled = true → (f s).cancelled = true) ∧
      (s.ended = true → (f s).ended = true)) : (v.modifyTask t f).Sound e := by
  have hold : ∀ u s', (v.modifyTask t f).tasks u = some s' →
      ∃ s, v.tasks u = some s ∧ s'.job = s.job := by
    intro u s' hs'
    rw [View.tasks_modifyTask] at hs'
    split at hs'
    · next hu =>
      obtain ⟨s, hs, rfl⟩ := Option.map_eq_some_iff.1 hs'
      exact ⟨s, hu ▸ hs, (hf s).1⟩
    · exact ⟨s', hs', rfl⟩
  refine h.of_locks_eq (View.le_modifyTask v t f hf) rfl (fun u s' j hs' hj => ?_)
    (fun u s' hs' => ?_) h.ordered (fun id x g hx hg => Or.inl ⟨x, hx, hg⟩)
    h.generationsNumbered
  · obtain ⟨s, hs, hj'⟩ := hold u s' hs'
    exact Or.inl ⟨s, hs, hj' ▸ hj⟩
  · obtain ⟨s, hs, -⟩ := hold u s' hs'
    exact h.tasksNumbered u s hs

theorem cancel (h : v.Sound e) (t : TaskId) : (v.cancel t).Sound e :=
  h.modifyTask t fun _ => ⟨rfl, fun h => by simp [h], id⟩

theorem cancelAll (h : v.Sound e) (ts : List TaskId) : (ts.foldl View.cancel v).Sound e := by
  induction ts generalizing v with
  | nil => exact h
  | cons t ts ih => exact ih (h.cancel t)

theorem addTask (h : v.Sound e) {job : Option Job} (hj : ∀ j, job = some j → j.Coherent v) :
    (v.addTask job).Sound e := by
  have hle := View.le_addTask h.tasksNumbered job
  refine h.of_locks_eq hle rfl (fun t s' j hs' hj' => ?_) (fun t s hs => ?_)
    h.ordered (fun id x g hx hg => Or.inl ⟨x, hx, hg⟩) h.generationsNumbered
  · rw [View.tasks_addTask] at hs'
    split at hs'
    · obtain rfl := Option.some.inj hs'
      exact Or.inr ((hj j hj').mono hle)
    · exact Or.inl ⟨s', hs', hj'⟩
  · rw [View.tasks_addTask] at hs
    split at hs
    · next ht => rw [ht]; exact Nat.lt_succ_self _
    · exact Nat.lt_succ_of_lt (h.tasksNumbered t s hs)

theorem spawn (h : v.Sound e) (n : Nat) (description : String) (context : Context) {j : Job}
    (hj : j.Coherent v) : (v.spawn n description context j).Sound e := by
  unfold View.spawn
  split
  · exact h
  · refine (h.addTask fun j' hj' => ?_).modifyGeneration n fun _ => ⟨rfl, id⟩
    exact Option.some.inj hj' ▸ hj

/-- A change of nothing but the tabs and the turn. -/
theorem of_tabs (h : v.Sound e) {tabs : Keyed TabEntry} {holder : Option TaskId}
    (hordered : Keyed.Ordered tabs)
    (hrecorded : ∀ id x' g, Keyed.get? id tabs = some x' → x'.generation = some g →
      (∃ x, v.tab? id = some x ∧ x.generation = some g) ∨ g.tab = id ∧ v.Known g) :
    View.Sound e { v with tabs, holder } :=
  h.of_locks_eq (View.le_of_eq (Nat.le_refl _) (.refl _) rfl rfl rfl) rfl
    (fun _ s _ hs hj => Or.inl ⟨s, hs, hj⟩) h.tasksNumbered hordered hrecorded
    h.generationsNumbered

theorem holder (h : v.Sound e) (holder : Option TaskId) : View.Sound e { v with holder } :=
  h.of_tabs h.ordered fun _ x _ hx hg => Or.inl ⟨x, hx, hg⟩

end View.Sound

theorem View.get?_generations_insert (v : View) (n k : Nat) (s : GenerationState) :
    (v.generations.insert n s)[k]? = if k = n then some s else v.generation? k := by
  rw [Std.ExtTreeMap.getElem?_insert]
  by_cases hk : n = k
  · subst hk; simp
  · simp [hk, Ne.symm hk, View.generation?]

theorem Effect.sound (h : Effect e t γ v γ' v') (hs : v.Sound e) : v'.Sound e := by
  have hle := h.le hs
  cases h with
  | idle | miss | awaited => exact hs
  | draw hi => exact hs.draw hi
  | touch hf => exact hs.modifyGeneration _ fun s => ⟨(hf s).1, fun h => (hf s).2.2.trans h⟩
  | spawn hi _ hj => exact (hs.draw hi).spawn _ _ _ (hj.mono (View.le_draw hi))
  | obtain => exact hs.of_sheds (.obtain ..) (hs.locks.obtain ..) (.obtain _ _ _ _)
  | @listen l g key block r hr =>
    refine View.Sound.modifyGeneration ?_ g.number fun _ => ⟨rfl, id⟩
    refine hs.of_locks (Nat.le_refl _) (.subscribe ..) (hs.locks.subscribe ..)
      (fun l' x' hx' s hmem => ?_) fun l' x' hx' w hw => ?_
    · by_cases hl : l' = l
      · subst hl
        cases hx : v.locks.lock? l' with
        | none =>
          rw [LockTable.subscribe, LockTable.lock?_modify, if_pos rfl, hx] at hx'
          exact absurd hx' (by simp)
        | some x =>
          rw [LockTable.lock?_subscribe hx, Option.some.injEq] at hx'
          subst hx'
          simp only at hmem
          split at hmem
          · exact Or.inl ⟨x, rfl, hmem⟩
          · rcases List.mem_append.1 hmem with hmem | hmem
            · exact Or.inl ⟨x, rfl, hmem⟩
            · rw [List.mem_singleton.1 hmem]
              exact Or.inr ⟨rfl, hr⟩
      · rw [LockTable.lock?_subscribe_of_ne hl] at hx'
        exact Or.inl ⟨x', hx', hmem⟩
    · by_cases hl : l' = l
      · subst hl
        cases hx : v.locks.lock? l' with
        | none =>
          rw [LockTable.subscribe, LockTable.lock?_modify, if_pos rfl, hx] at hx'
          exact absurd hx' (by simp)
        | some x =>
          rw [LockTable.lock?_subscribe hx, Option.some.injEq] at hx'
          subst hx'
          exact Or.inl ⟨x, rfl, rfl, hw⟩
      · rw [LockTable.lock?_subscribe_of_ne hl] at hx'
        exact Or.inl ⟨x', hx', rfl, hw⟩
  | signal => exact hs.of_sheds (.deliver ..) (hs.locks.deliver ..) (.deliver _ _ _)
  | cancel => exact hs.cancelAll _
  | put _ _ hput =>
    refine hs.of_tabs (hput.ordered hs.ordered) fun id x' g hx' hg => ?_
    rcases hput.entry id x' hx' with ⟨x, hx, -, hgen, -⟩ | ⟨-, -, hgen⟩
    · exact Or.inl ⟨x, hx, hgen ▸ hg⟩
    · rw [hgen] at hg
      exact absurd hg (by simp)
  | enter | yield => exact hs.holder _
  | take =>
    refine hs.of_tabs (hs.ordered.insert ..) fun id' x' g hx' hg => ?_
    rw [Keyed.get?_insert] at hx'
    split at hx'
    · rw [← Option.some.inj hx'] at hg
      exact absurd hg (by simp)
    · exact Or.inl ⟨x', hx', hg⟩
  | takeAll =>
    let f : TabEntry → TabEntry := fun x => { x with status := .stopped none, generation := none }
    refine hs.of_tabs (hs.ordered.map f) fun id' x' g hx' hg => ?_
    obtain ⟨x, -, rfl⟩ := Option.map_eq_some_iff.1 ((Keyed.get?_map id' f v.tabs).symm.trans hx')
    exact absurd hg (by simp [f])
  | withdraw =>
    refine hs.of_tabs (hs.ordered.erase _) fun id' x' g hx' hg => ?_
    rw [Keyed.get?_erase] at hx'
    split at hx'
    · exact absurd hx' (by simp)
    · exact Or.inl ⟨x', hx', hg⟩
  | release | bury =>
    exact hs.of_sheds (.release hs.locks _) (hs.locks.release _) (.release hs.locks _)
  | releaseAll =>
    exact hs.of_sheds (.releaseAll hs.locks) hs.locks.releaseAll (.releaseAll hs.locks)
  | @unlisten _ _ _ ss =>
    have ht := LockTable.Thinned.unsubscribeAll v.locks ss
    refine View.Sound.modifyGeneration ?_ _ fun _ => ⟨rfl, id⟩
    exact hs.of_sheds ht.le (ht.sound hs.locks) (.thinned ht)
  | abort => exact hs.cancel _
  | @destroy _ n _ =>
    exact hs.modifyGeneration n (f := fun s => { s with tracked := [], destroyed := true })
      fun _ => ⟨rfl, fun _ => rfl⟩
  | @mark _ id _ f _ _ _ hf =>
    unfold View.modifyTab
    split
    · next x hx =>
      refine hs.of_tabs (hs.ordered.insert ..) fun id' x' g hx' hg => ?_
      rw [Keyed.get?_insert] at hx'
      split at hx'
      · next hid =>
        obtain rfl := Option.some.inj hx'
        rcases (hf x).2.2 with hn | hn
        · rw [hn] at hg
          exact absurd hg (by simp)
        · exact Or.inl ⟨x, hid ▸ hx, hn ▸ hg⟩
      · exact Or.inl ⟨x', hx', hg⟩
    · exact hs
  | renew =>
    refine hs.of_locks_eq hle rfl (fun t s j hs' hj => Or.inl ⟨s, hs', hj⟩) hs.tasksNumbered
      hs.ordered (fun id x g hx hg => Or.inl ⟨x, hx, hg⟩) fun n s hn => ?_
    unfold View.generation? at hn
    rw [View.get?_generations_insert] at hn
    split at hn
    · next hk => rw [hk]; exact Nat.lt_succ_self _
    · exact Nat.lt_succ_of_lt (hs.generationsNumbered n s hn)
  | @install _ g _ _ hk =>
    unfold View.modifyTab
    split
    · refine hs.of_tabs (hs.ordered.insert ..) fun id' x' g' hx' hg => ?_
      rw [Keyed.get?_insert] at hx'
      split at hx'
      · next hid =>
        rw [← Option.some.inj hx'] at hg
        obtain rfl := Option.some.inj hg
        exact Or.inr ⟨hid.symm, hk⟩
      · exact Or.inl ⟨x', hx', hg⟩
    · exact hs

theorem Talk.sound (h : Talk e σ v σ' v') (hs : v.Sound e) : v'.Sound e := by
  have hregister : ∀ (i : Nat) (l : LockId) (f : SignalFilter), v.issued ≤ i →
      (∀ x, v.locks.lock? l = some x → ∀ signature,
        x.key ≠ (LockKey.procedure signature).text) →
      View.Sound e { v with issued := i, locks := (v.locks.register l f).2 } := by
    intro i l f hi hl
    refine hs.of_locks hi (.register ..) (hs.locks.register ..) (fun l' x' hx' s hmem => ?_)
      fun l' x' hx' w hw => ?_
    · by_cases he : l' = l
      · subst he
        cases hx : v.locks.lock? l' with
        | none =>
          rw [LockTable.register_of_none hx] at hx'
          exact absurd (hx.symm.trans hx') (by simp)
        | some x =>
          obtain ⟨ws, hx'', -⟩ := LockTable.lock?_register hx f
          obtain rfl := Option.some.inj (hx''.symm.trans hx')
          exact Or.inl ⟨x, rfl, hmem⟩
      · rw [LockTable.lock?_register_of_ne he] at hx'
        exact Or.inl ⟨x', hx', hmem⟩
    · by_cases he : l' = l
      · subst he
        cases hx : v.locks.lock? l' with
        | none =>
          rw [LockTable.register_of_none hx] at hx'
          exact absurd (hx.symm.trans hx') (by simp)
        | some x =>
          obtain ⟨ws, hx'', -⟩ := LockTable.lock?_register hx f
          obtain rfl := Option.some.inj (hx''.symm.trans hx')
          exact Or.inr (hl x hx)
      · rw [LockTable.lock?_register_of_ne he] at hx'
        exact Or.inl ⟨x', hx', rfl, hw⟩
  cases h with
  | doze hl =>
    obtain ⟨x, hx, -, hkey⟩ := hl
    refine hregister _ _ _ (Nat.le_refl _) fun y hy σ hk => ?_
    obtain rfl := Option.some.inj (hx.symm.trans hy)
    exact procedure_not_plain σ (hk ▸ hkey)
  | wake | conclude => exact hs.of_sheds (.close ..) (hs.locks.close _) (.close _ _)
  | @enroll _ a hp =>
    obtain ⟨-, y, -, hy, -, -, -, hkey, -⟩ := hp
    refine hregister _ _ _ (Nat.le_succ _) fun z hz σ hk => ?_
    obtain rfl := Option.some.inj (hy.symm.trans hz)
    exact procedureReturn_ne_procedure a.signature σ (hkey.symm.trans hk)
  | request => exact hs.of_sheds (.deliver ..) (hs.locks.deliver ..) (.deliver _ _ _)
  | @startBody _ a _ _ _ _ d arguments returns _ hr =>
    have hgrow := View.le_draw (Nat.le_succ v.issued)
    refine (hs.draw (Nat.le_succ _)).spawn _ _ _ ?_
    obtain ⟨σ, m, -, -, hk, hp⟩ := hr
    exact ⟨hk.mono hgrow, σ, a.calls, hp.mono hgrow⟩

theorem Change.le (h : Change e t γ σ v γ' σ' v') (hs : v.Sound e) : v ≤ v' := by
  cases h with
  | effect h => exact h.le hs
  | talk h => exact h.le hs

theorem Change.sound (h : Change e t γ σ v γ' σ' v') (hs : v.Sound e) : v'.Sound e := by
  cases h with
  | effect h => exact h.sound hs
  | talk h => exact h.sound hs

end BlockEngine
