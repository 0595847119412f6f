import BlockEngine.Proofs.Turns

/-!
# Steps that concern one tab

What the steps of a teardown leave alone: locks, values, waiters, subscriptions, tasks and listeners
of all other tabs.

* `World.Spares` : nothing that belongs to another tab is changed;
* one lemma for each step: `World.Spares.releaseLocks`, `.releaseBlocks`, `.destroy`, `.cancel`,
  `.settle`, and `.tabs` for what takes a generation out.
-/

namespace BlockEngine

variable {e : Engine} {c t u : TaskId} {w w' : World} {id : String} {n : Nat}

/-! ## What is spared -/

/-- Nothing that belongs to another tab is changed: neither its entry nor its locks, with their
values, waiters and subscriptions, nor its generations, with their values, listeners and tracked
tasks, nor how its tasks stand. -/
structure World.Spares (id : String) (w w' : World) : Prop where
  turn : w'.turn.holder = w.turn.holder
  vars : w'.vars = w.vars
  tab : ∀ k, k ≠ id → w'.tab? k = w.tab? k
  held : ∀ k, k ≠ id → w'.locks.ofTab k = w.locks.ofTab k
  lock : ∀ l x, w.locks.lock? l = some x → x.tab ≠ id → w'.locks.lock? l = some x
  mailbox : ∀ l x, w.locks.lock? l = some x → x.tab ≠ id → ∀ y ∈ x.waiters,
    w'.locks.mailbox? y.mailbox = w.locks.mailbox? y.mailbox
  generation : ∀ n s, w.generation? n = some s → s.tab ≠ id → w'.generation? n = some s
  task : ∀ t, (∀ x j s, w.view.tasks t = some x → x.job = some j →
    w.generation? j.owner = some s → s.tab ≠ id) → w'.view.tasks t = w.view.tasks t

namespace LockTable

variable {ρ : Type} {tbl tbl' : LockTable ρ} {l : LockId}

theorem lock?_unsubscribeAll {ss : List (LockId × SubscriptionId)} (h : ∀ s ∈ ss, s.1 ≠ l) :
    (tbl.unsubscribeAll ss).lock? l = tbl.lock? l := by
  induction ss generalizing tbl with
  | nil => rfl
  | cons s ss ih =>
    refine (ih fun s' hs' => h s' (List.mem_cons_of_mem _ hs')).trans ?_
    exact (lock?_modify ..).trans (if_neg (h s List.mem_cons_self))

end LockTable

namespace World.Spares

/-- Nothing but the view could differ, and it does not. -/
theorem of_view (hvars : w'.vars = w.vars) (hview : w'.view = w.view) : w.Spares id w' where
  turn := congrArg View.holder hview
  vars := hvars
  tab k _ := congrArg (View.tab? · k) hview
  held k _ := congrArg (fun v => v.locks.ofTab k) hview
  lock l _ hx _ := (congrArg (fun v => v.locks.lock? l) hview).trans hx
  mailbox _ _ _ _ y _ := congrArg (fun v => v.locks.mailbox? y.mailbox) hview
  generation n _ hs _ := (congrArg (View.generation? · n) hview).trans hs
  task t _ := congrArg (View.tasks · t) hview

theorem trans {w'' : World} (h : w.Spares id w') (h' : w'.Spares id w'')
    (hgen : ∀ n s', w'.generation? n = some s' → ∃ s, w.generation? n = some s ∧ s.tab = s'.tab) :
    w.Spares id w'' where
  turn := h'.turn.trans h.turn
  vars := h'.vars.trans h.vars
  tab k hk := (h'.tab k hk).trans (h.tab k hk)
  held k hk := (h'.held k hk).trans (h.held k hk)
  lock l x hx htab := h'.lock l x (h.lock l x hx htab) htab
  mailbox l x hx htab y hy :=
    (h'.mailbox l x (h.lock l x hx htab) htab y hy).trans (h.mailbox l x hx htab y hy)
  generation n s hs htab := h'.generation n s (h.generation n s hs htab) htab
  task t ht := by
    have hfirst := h.task t ht
    refine (h'.task t fun x j s' hx hj hs' => ?_).trans hfirst
    obtain ⟨s, hs, htab⟩ := hgen _ s' hs'
    exact htab ▸ ht x j s (hfirst ▸ hx) hj hs

/-- Only locks differ, and none of another tab. -/
theorem of_locks {locks : LockTable Reaction} (hvars : w'.vars = w.vars)
    (hview : w'.view = { w.view with locks })
    (hheld : ∀ k, k ≠ id → locks.ofTab k = w.locks.ofTab k)
    (hlock : ∀ l x, w.locks.lock? l = some x → x.tab ≠ id → locks.lock? l = some x)
    (hmailbox : ∀ l x, w.locks.lock? l = some x → x.tab ≠ id → ∀ y ∈ x.waiters,
      locks.mailbox? y.mailbox = w.locks.mailbox? y.mailbox) : w.Spares id w' := by
  have hlocks : w'.locks = locks := congrArg View.locks hview
  exact {
    turn := congrArg View.holder hview
    vars := hvars
    tab := fun k _ => congrArg (View.tab? · k) hview
    held := fun k hk => by rw [hlocks]; exact hheld k hk
    lock := fun l x hx htab => by rw [hlocks]; exact hlock l x hx htab
    mailbox := fun l x hx htab y hy => by rw [hlocks]; exact hmailbox l x hx htab y hy
    generation := fun n s hs _ => (congrArg (View.generation? · n) hview).trans hs
    task := fun t _ => congrFun (congrArg View.tasks hview) t }

/-- Only entries of the tab differ. -/
theorem tabs {tabs : Keyed TabEntry} (h : ∀ k, k ≠ id → Keyed.get? k tabs = w.tab? k) :
    w.Spares id { w with tabs } where
  turn := rfl
  vars := rfl
  tab := h
  held _ _ := rfl
  lock _ _ hx _ := hx
  mailbox _ _ _ _ _ _ := rfl
  generation _ _ hs _ := hs
  task _ _ := rfl

/-- A generation of the tab is changed. -/
theorem modifyGeneration (hn : ∀ s, w.generation? n = some s → s.tab = id)
    (f : GenerationState → GenerationState) : w.Spares id (w.modifyGeneration n f) := by
  have hview := World.view_modifyGeneration w n f
  exact {
    turn := (congrArg View.holder hview).trans (View.holder_modifyGeneration ..)
    vars := (World.Silent.modifyGeneration ..).vars
    tab := fun k _ => congrArg (Keyed.get? k)
      ((congrArg View.tabs hview).trans (View.tabs_modifyGeneration ..))
    held := fun k _ => congrArg (LockTable.ofTab · k)
      ((congrArg View.locks hview).trans (View.locks_modifyGeneration ..))
    lock := fun l x hx _ => (congrArg (LockTable.lock? · l)
      ((congrArg View.locks hview).trans (View.locks_modifyGeneration ..))).trans hx
    mailbox := fun _ _ _ _ y _ => congrArg (LockTable.mailbox? · y.mailbox)
      ((congrArg View.locks hview).trans (View.locks_modifyGeneration ..))
    generation := fun k s hs htab => by
      have hne : k ≠ n := by
        rintro rfl
        exact htab (hn s hs)
      exact (congrArg (View.generation? · k) hview).trans
        ((View.generation?_modifyGeneration ..).trans ((if_neg hne).trans hs))
    task := fun t _ => congrFun
      ((congrArg View.tasks hview).trans (View.tasks_modifyGeneration ..)) t }

/-! ### Steps -/

/-- The end of the locks of the tab. -/
theorem releaseLocks (hs : w.locks.Sound) (ht : w.locks.Tidy) : w.Spares id (w.releaseLocks id) := by
  refine .of_locks (World.Silent.wakeAll ..).vars (World.view_releaseLocks w id)
    (fun k hk => (LockTable.ofTab_release ..).trans (if_neg hk)) (fun l x hx htab => ?_)
      fun l x hx htab y hy => ?_
  · rw [hs.lock?_release hx, if_neg htab]
  · refine (LockTable.Leaves.release hs fun l' y' x' hwaits _ hx' heq => htab ?_).mailbox
    obtain rfl := ht.once _ _ _ _ _ hwaits ⟨x, hx, hy, rfl⟩
    rwa [Option.some.inj (hx.symm.trans hx')]

/-- A generation is destroyed. -/
theorem destroy (hn : ∀ s, w.generation? n = some s → s.tab = id) :
    w.Spares id (w.destroy n).2 :=
  .modifyGeneration hn _

/-- A task of the tab is asked to end. -/
theorem cancel {x : Standing} {j : Job} {s : GenerationState} (hx : w.view.tasks u = some x)
    (hj : x.job = some j) (hs : w.generation? j.owner = some s) (htab : s.tab = id) :
    w.Spares id (w.cancel u) := by
  have hview := World.view_cancel w u
  exact {
    turn := congrArg View.holder hview
    vars := (World.Silent.cancel ..).vars
    tab := fun k _ => congrArg (View.tab? · k) hview
    held := fun k _ => congrArg (fun v => v.locks.ofTab k) hview
    lock := fun l x hx _ => (congrArg (fun v => v.locks.lock? l) hview).trans hx
    mailbox := fun _ _ _ _ y _ => congrArg (fun v => v.locks.mailbox? y.mailbox) hview
    generation := fun n s hs _ => (congrArg (View.generation? · n) hview).trans hs
    task := fun t ht => by
      have hne : t ≠ u := by
        rintro rfl
        exact ht x j s hx hj hs htab
      rw [hview]
      exact if_neg hne }

/-- The end of a task has been waited for. -/
theorem settle (c u : TaskId) : w.Spares id (w.settle c (.ended u)) :=
  .of_view (World.Silent.settle ..).vars (World.view_settle w c (.ended u))

/-- The listeners of a generation of the tab run: they take back subscriptions to its own locks. -/
theorem releaseBlocks (howns : w.view.Owns) (hn : ∀ s, w.generation? n = some s → s.tab = id) :
    w.Spares id (w.releaseBlocks n).2 := by
  let w₁ := w.modifyGeneration n fun s => { s with listeners := [] }
  have hview₁ : w₁.view = w.view.modifyGeneration n (·.dropListeners) :=
    World.view_modifyGeneration ..
  have hlocks₁ : w₁.locks = w.locks :=
    (congrArg View.locks hview₁).trans (View.locks_modifyGeneration ..)
  refine (modifyGeneration hn _ : w.Spares id w₁).trans (.of_locks (World.Silent.runListeners ..).vars
    (Supervisor.view_runListeners w₁ _) (fun k _ => ?_) (fun l x hx htab => ?_)
    fun l x _ _ y _ => ?_) fun k s' hs' => ?_
  · exact congrArg (fun held => (Keyed.get? k held).getD [])
      (LockTable.Thinned.unsubscribeAll w₁.locks _).held
  · refine (LockTable.lock?_unsubscribeAll fun sub hsub => ?_).trans hx
    obtain ⟨⟨block, listener⟩, hmem, heq⟩ := List.mem_filterMap.1 hsub
    cases listener with
    | host => cases heq
    | unsubscribe l' i =>
      cases heq
      rintro rfl
      unfold World.generation? at hn hmem
      cases hs : w.generations[n]? with
      | none => rw [hs] at hmem; cases hmem
      | some s =>
        rw [hs] at hmem
        obtain ⟨y, hy, hytab⟩ := (howns n s hs).listeners block l' i hmem
        rw [hlocks₁] at hx
        obtain rfl : x = y := Option.some.inj (hx.symm.trans hy)
        exact htab (hytab.trans (hn s hs))
  · exact congrArg (fun ms => List.find? (fun b : Mailbox => b.id = y.mailbox) ms)
      (LockTable.Thinned.unsubscribeAll w₁.locks _).mailboxes
  · have hs' : (w.view.modifyGeneration n (·.dropListeners)).generation? k = some s' :=
      (congrArg (View.generation? · k) hview₁).symm.trans hs'
    rw [View.generation?_modifyGeneration] at hs'
    split at hs'
    · next hk =>
      subst hk
      obtain ⟨s, hs, rfl⟩ := Option.map_eq_some_iff.1 hs'
      exact ⟨s, hs, rfl⟩
    · exact ⟨s', hs', rfl⟩

end World.Spares
end BlockEngine
