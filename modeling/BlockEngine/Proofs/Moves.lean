import BlockEngine.Proofs.Threads

/-!
# Moves of the machine

* `TaskSound` : what is true of one task and its thread; `Conducted` : of all, and of the state;
* `Passage` : what a move comes to: a change, a stored argument, a reply, a departure, or nothing;
* `Conducted.move`, `Conducted.run` : every move and every run keeps the invariant.
-/

namespace BlockEngine

variable {α : Type} {e : Engine} {t u : TaskId} {γ γ' : Stage} {σ σ' : Stance} {v v' : View}
  {φ φ' : TaskId → Stage} {ψ ψ' : TaskId → Stance} {log ds : List Deed} {m m' : Machine}

/-! ## Departures in the view -/

/-- A task that has ended. -/
def Standing.finished (s : Standing) : Standing := { s with ended := true }

namespace World

variable (w : World)

theorem view_finish (t : TaskId) :
    (w.finish t).view = (w.yieldTurn t).view.modifyTask t Standing.finished := by
  unfold finish
  rw [view_wakeAll]
  exact view_modifyTask _ t _ _ fun _ => rfl

theorem view_newCaller : w.newCaller.view = w.view.addTask none := by
  refine View.ext rfl rfl rfl rfl rfl rfl (funext fun u => ?_)
  simp only [newCaller, view_tasks, task?, View.addTask]
  rw [Std.ExtTreeMap.getElem?_insert]
  by_cases hu : w.taskCount = u
  · subst hu; simp [view, TaskRecord.standing]
  · simp [view, hu, Ne.symm hu]

/-- Only the turn of the task `t` is given away. -/
theorem view_yieldTurn_spec (t : TaskId) :
    ∃ holder, (w.yieldTurn t).view = { w.view with holder } ∧
      (holder = w.turn.holder ∨ w.turn.holder = some t) := by
  rw [view_yieldTurn]
  split
  · next h => exact ⟨_, rfl, .inr h⟩
  · exact ⟨_, rfl, .inl rfl⟩

/-- Who drops an execution gives up the turn and the mailbox it waits for. -/
theorem view_forsake (t : TaskId) (p : Execution α) :
    ∃ holder locks, (Machine.forsake w t p).view = { w.view with holder, locks } ∧
      (holder = w.turn.holder ∨ w.turn.holder = some t) ∧
      (locks = w.locks ∨ ∃ m d k, p = .pause (.mail m d) k ∧ locks = w.locks.close m) := by
  have hyield : ∀ w₁ : World, w₁.view = w.view →
      ∃ holder, (w₁.yieldTurn t).view = { w.view with holder } ∧
        (holder = w.turn.holder ∨ w.turn.holder = some t) := by
    intro w₁ hw₁
    have hholder : w₁.turn.holder = w.turn.holder := congrArg View.holder hw₁
    rw [← hw₁, ← hholder]
    exact view_yieldTurn_spec w₁ t
  cases p with
  | pause q k =>
    have hview := view_unregister w t q
    cases q with
    | mail m d =>
      have hholder : (w.unregister t (.mail m d)).turn.holder = w.turn.holder :=
        congrArg View.holder hview
      have hlocks : (w.unregister t (.mail m d)).locks = w.locks := congrArg View.locks hview
      obtain ⟨holder, hw, hh⟩ := view_yieldTurn_spec { w.unregister t (.mail m d) with
        locks := (w.unregister t (.mail m d)).locks.close m } t
      refine ⟨holder, w.locks.close m, hw.trans ?_, hholder ▸ hh, .inr ⟨m, d, k, rfl, rfl⟩⟩
      change { (w.unregister t (.mail m d)).view with
        locks := (w.unregister t (.mail m d)).locks.close m, holder } = _
      rw [hview, hlocks]
    | time | ended | allEnded | turn =>
      obtain ⟨holder, hw, hh⟩ := hyield _ hview
      exact ⟨holder, w.locks, hw, hh, .inl rfl⟩
  | _ =>
    obtain ⟨holder, hw, hh⟩ := hyield w rfl
    exact ⟨holder, w.locks, hw, hh, .inl rfl⟩

end World

/-! ## Logs -/

namespace Deed

theorem statesOf_append (t : TaskId) (log ds : List Deed) :
    statesOf t (log ++ ds) = statesOf t log ++ statesOf t ds := List.filterMap_append

@[simp] theorem statesOf_performed (t : TaskId) (p : Execution Unit) (w : World) :
    statesOf t [.performed t p w] = [w] := by simp [statesOf]

theorem statesOf_performed_of_ne (h : u ≠ t) (p : Execution Unit) (w : World) :
    statesOf u [.performed t p w] = [] := by simp [statesOf, Ne.symm h]

theorem statesOf_eq_nil (h : ∀ p w, Deed.performed t p w ∉ ds) : statesOf t ds = [] := by
  refine List.filterMap_eq_nil_iff.2 fun d hd => ?_
  cases d with
  | dropped => rfl
  | performed u p w => exact if_neg fun (hu : u = t) => h p w (hu ▸ hd)

@[simp] theorem statesOf_dropped (u t : TaskId) (w : World) :
    statesOf u [.dropped t w] = [] := by simp [statesOf]

end Deed

/-- A call was dropped. -/
def Lapsed (log : List Deed) : Prop := ∃ t w, Deed.dropped t w ∈ log

/-- The generations lost by dropped calls: what a caller with the turn leaves behind that is neither
recorded nor gone. -/
def Lost (log : List Deed) (n : Nat) : Prop :=
  ∃ t w, Deed.dropped t w ∈ log ∧ w.turn.holder = some t ∧ (∃ s, w.generation? n = some s) ∧
    ¬ w.view.Records n ∧ ¬ w.view.Gone n

theorem lapsed_append (p : Execution Unit) (w : World) :
    Lapsed (log ++ [.performed t p w]) = Lapsed log := by simp [Lapsed]

theorem lost_append (p : Execution Unit) (w : World) :
    Lost (log ++ [.performed t p w]) = Lost log := by funext n; simp [Lost]

/-! ## The invariant -/

/-- The stances after one of them has changed. -/
def setStance (ψ : TaskId → Stance) (t : TaskId) (σ : Stance) : TaskId → Stance :=
  fun u => if u = t then σ else ψ u

@[simp] theorem setStance_same (ψ : TaskId → Stance) (t : TaskId) (σ : Stance) :
    setStance ψ t σ t = σ := if_pos rfl

theorem setStance_of_ne (h : u ≠ t) (σ : Stance) : setStance ψ t σ u = ψ u := if_neg h

/-- What is true of one task and its thread. -/
structure TaskSound (e : Engine) (log : List Deed) (v : View) (thread : Option (Execution Unit))
    (γ : Stage) (σ : Stance) (t : TaskId) : Prop where
  carries : ∀ p, thread = some p → ∃ s, v.tasks t = some s ∧ s.ended = false ∧ γ.Fits s.job ∧
    Carries e t (Deed.statesOf t log) v s.job γ σ p
  resting : thread = none → γ.AtRest ∧ σ = .free
  caller : ∀ s, v.tasks t = some s → s.job = none → s.ended = false
  untouched : thread = none → (∀ s, v.tasks t = some s → s.job ≠ none ∧ s.ended = false) →
    Deed.statesOf t log = []
  replied : ∀ s b arguments request returns, v.tasks t = some s →
    s.job = some (.body b arguments request returns) → s.ended = true →
    s.cancelled = true ∨ ∃ r, e.Replied t b arguments request (Deed.statesOf t log) r

/-- What is true of a machine after every run, with where the threads stand. -/
structure Conducted (e : Engine) (log : List Deed) (m : Machine) (φ : TaskId → Stage)
    (ψ : TaskId → Stance) : Prop where
  sound : m.world.view.Sound e
  supervised : Supervised (Lapsed log) (Lost log) φ m.world.view
  task : ∀ t, TaskSound e log m.world.view m.threads[t]? (φ t) (ψ t) t

/-- A task of which nothing but what others did to it changes. -/
theorem TaskSound.mono {log' : List Deed} {thread : Option (Execution Unit)}
    (h : TaskSound e log v thread γ σ t) (hle : v ≤ v')
    (htask : ∀ s', v'.tasks t = some s' →
      (∃ s, v.tasks t = some s ∧ s'.job = s.job ∧ s'.ended = s.ended) ∨
      v.tasks t = none ∧ s'.ended = false)
    (hlog : Deed.statesOf t log' = Deed.statesOf t log) :
    TaskSound e log' v' thread γ σ t where
  carries p hp := by
    obtain ⟨s, hs, hend, hfits, hc⟩ := h.carries p hp
    obtain ⟨s', hs', hj, -⟩ := hle.task t s hs
    rcases htask s' hs' with ⟨s₀, hs₀, -, hend'⟩ | ⟨hnone, -⟩
    · obtain rfl : s = s₀ := Option.some.inj (hs.symm.trans hs₀)
      exact ⟨s', hs', hend'.trans hend, hj ▸ hfits, hj ▸ hlog ▸ hc.mono hle⟩
    · exact absurd (hnone.symm.trans hs) (by simp)
  resting := h.resting
  caller s' hs' hj := by
    rcases htask s' hs' with ⟨s, hs, hjob, hend⟩ | ⟨-, hend⟩
    · rw [hend]
      exact h.caller s hs (hjob ▸ hj)
    · exact hend
  untouched hn hall := by
    rw [hlog]
    refine h.untouched hn fun s hs => ?_
    obtain ⟨s', hs', hj, -, hend⟩ := hle.task t s hs
    obtain ⟨hj', hend'⟩ := hall s' hs'
    refine ⟨hj ▸ hj', ?_⟩
    cases he : s.ended with
    | false => rfl
    | true => exact absurd ((hend he).symm.trans hend') (by simp)
  replied s' b arguments request returns hs' hj hend := by
    rcases htask s' hs' with ⟨s, hs, hjob, hend'⟩ | ⟨-, hend'⟩
    · obtain ⟨s'', hs'', -, hcan, -⟩ := hle.task t s hs
      obtain rfl : s' = s'' := Option.some.inj (hs'.symm.trans hs'')
      rw [hlog]
      exact (h.replied s b arguments request returns hs (hjob ▸ hj) (hend'.symm.trans hend)).imp_left
        hcan
    · exact absurd (hend.symm.trans hend') (by simp)

/-! ## What a move comes to -/

/-- Nothing but the turn, tasks and mailboxes differs: tasks keep their jobs. -/
structure View.Settles (v v' : View) : Prop where
  le : v ≤ v'
  issued : v'.issued = v.issued
  generations : v'.generations = v.generations
  tabs : v'.tabs = v.tabs
  task : ∀ u s' j, v'.tasks u = some s' → s'.job = some j →
    ∃ s, v.tasks u = some s ∧ s.job = some j

/-- What a move comes to, by the thread that makes it. -/
inductive Passage (e : Engine) (log : List Deed) (m : Machine) (φ : TaskId → Stage)
    (ψ : TaskId → Stance) :
    List Deed → View → (TaskId → Stage) → (TaskId → Stance) → Prop
  /-- A step that is a change. -/
  | change {t : TaskId} {p : Execution Unit} {x : Standing} {γ' : Stage} {σ' : Stance}
      {v' : View} :
      m.threads[t]? = some p → m.world.view.tasks t = some x →
      Unfinished e t (Deed.statesOf t log) x.job →
      Change e t (φ t) (ψ t) m.world.view γ' σ' v' →
      Passage e log m φ ψ [.performed t p m.world] v' (setStage φ t γ') (setStance ψ t σ')
  /-- A body stores an argument. -/
  | store {t : TaskId} {p : Execution Unit} {x : Standing} {s : Site}
      {arguments : List (String × String)} {request : Json} {returns : LockId}
      {a : String × String} :
      m.threads[t]? = some p → m.world.view.tasks t = some x →
      x.job = some (.body s arguments request returns) →
      Unfinished e t (Deed.statesOf t log) x.job → a ∈ arguments → ¬ IsReserved a.2 →
      (Unreserved arguments → arguments[(Deed.statesOf t log).length]? = some a) →
      p.Stores s.generation.number s.id a.2 (requested request a.1) →
      Passage e log m φ ψ [.performed t p m.world]
        (m.world.view.modifyGeneration s.generation.number
          (·.store s.id a.2 (requested request a.1))) φ ψ
  /-- The reply of a body. -/
  | reply {t : TaskId} {p : Execution Unit} {x : Standing} {s : Site}
      {arguments : List (String × String)} {request : Json} {returns : LockId}
      {r : Except EngineError Signal} :
      m.threads[t]? = some p → m.world.view.tasks t = some x →
      x.job = some (.body s arguments request returns) → ψ t = .free →
      e.replay t (e.bodyChain s arguments request) (Deed.statesOf t log) = some (.done r) →
      Passage e log m φ ψ [.performed t p m.world]
        { m.world.view with
          locks := (m.world.locks.deliver returns (Engine.replyTo request r)).2 } φ ψ
  /-- A thread begins or goes away; it takes its mailbox with it. One that goes away before it has
  come to its end belongs to a task that ends or to a dropped call. -/
  | depart {t : TaskId} {ds : List Deed} {γ : Stage} {v' : View} :
      (∀ u p w, Deed.performed u p w ∉ ds) →
      (∀ p, m.threads[t]? = some p → p = .done () ∨ v'.isEnded t = true ∨
        Deed.dropped t m.world ∈ ds) →
      γ.AtRest → m.world.view.Settles v' →
      (v'.locks = m.world.locks ∨
        ∃ b, (ψ t).mailbox? = some b ∧ v'.locks = m.world.locks.close b) →
      Passage e log m φ ψ ds v' (setStage φ t γ) (setStance ψ t .free)
  /-- Nothing that anybody depends on. -/
  | still {v' : View} :
      m.world.view.Settles v' → v'.locks = m.world.locks → Passage e log m φ ψ [] v' φ ψ

theorem Passage.le (h : Passage e log m φ ψ ds v' φ' ψ') (hs : m.world.view.Sound e) :
    m.world.view ≤ v' := by
  cases h with
  | change _ _ _ hchange => exact hchange.le hs
  | @store _ _ _ s _ _ _ a =>
    exact View.KeepsTasks_le (GenerationState.keepsTasks_store s.id a.2 _) m.world.view _
  | reply => exact View.le_withLocks (.deliver ..)
  | depart _ _ _ hsettles | still hsettles => exact hsettles.le

/-! ## Steps of threads -/

theorem threads_insert (m : Machine) (t u : TaskId) (p : Execution Unit) :
    (m.threads.insert t p)[u]? = if u = t then some p else m.threads[u]? := by
  rw [Std.ExtTreeMap.getElem?_insert]
  by_cases hu : t = u
  · subst hu; simp
  · simp [hu, Ne.symm hu]

theorem threads_erase (m : Machine) (t u : TaskId) :
    (m.threads.erase t)[u]? = if u = t then none else m.threads[u]? := by
  rw [Std.ExtTreeMap.getElem?_erase]
  by_cases hu : t = u
  · subst hu; simp
  · simp [hu, Ne.symm hu]

variable {p q : Execution Unit} {w : World}

/-- The tasks of others go on while a thread performs a step. -/
theorem TaskSound.others {thread : Option (Execution Unit)}
    (h : TaskSound e log v thread γ σ u) (hu : u ≠ t) (hle : v ≤ v')
    (hadds : v.Adds v' fun _ _ => True) :
    TaskSound e (log ++ [.performed t p w]) v' thread γ σ u := by
  refine h.mono hle (fun s' hs' => ?_) ?_
  · refine (hadds u s' hs').imp_right fun ⟨hnone, j, _, hj⟩ => ⟨hnone, ?_⟩
    rw [hj]
  · rw [Deed.statesOf_append, Deed.statesOf_performed_of_ne hu, List.append_nil]

/-- The task of the thread itself goes on with what is left of the thread. -/
theorem TaskSound.onward {s : Standing} (hs : v.tasks t = some s) (hlive : s.ended = false)
    (hle : v ≤ v') (hadds : v.Adds v' fun _ _ => True) (hfits : γ.Fits s.job)
    (hcarries : Carries e t (Deed.statesOf t log ++ [w]) v' s.job γ σ q) :
    TaskSound e (log ++ [.performed t p w]) v' (some q) γ σ t := by
  obtain ⟨s', hs', hj, hend⟩ := hadds.later hle hs
  have hgoes : ∀ s'', v'.tasks t = some s'' → s''.ended = false := fun s'' hs'' => by
    obtain rfl := Option.some.inj (hs'.symm.trans hs'')
    exact hend.trans hlive
  refine ⟨fun p' hp' => ?_, nofun, fun s'' hs'' _ => hgoes s'' hs'', nofun,
    fun s'' _ _ _ _ hs'' _ hended => ?_⟩
  · obtain rfl := Option.some.inj hp'
    rw [Deed.statesOf_append, Deed.statesOf_performed]
    exact ⟨s', hs', hend.trans hlive, hj ▸ hfits, hj ▸ hcarries⟩
  · exact absurd (hended.symm.trans (hgoes s'' hs'')) (by simp)

namespace Conducted

/-- A step of a thread keeps the invariant. -/
theorem perform (he : e.Orderly) (h : Conducted e log m φ ψ) (hp : m.threads[t]? = some p)
    (hstep : e.step t m.world p = some (q, w)) :
    ∃ φ' ψ', Passage e log m φ ψ [.performed t p m.world] w.view φ' ψ' ∧
      Conducted e (log ++ [.performed t p m.world]) ⟨w, m.threads.insert t q⟩ φ' ψ' := by
  obtain ⟨s, hs, hlive, hfits, hcarries⟩ := (h.task t).carries p hp
  have hcoherent : ∀ j, s.job = some j → j.Coherent m.world.view := fun j hj =>
    h.sound.jobs t s j hs hj
  rcases hcarries.step he (View.le_refl _) h.sound hcoherent hstep with
    ⟨hgoing, γ', σ', hchange, hcarries'⟩ | ⟨b, arguments, request, returns, a, hj, hgoing, ha,
      hreserved, hplace, hstores, hw, hcarries'⟩ | ⟨b, arguments, request, returns, r, hj, hσ, rfl, hreplied,
      hreplay, hview⟩
  · have hle := hchange.le h.sound
    have hadds := hchange.adds h.sound
    refine ⟨_, _, .change hp hs hgoing hchange, hchange.sound h.sound, ?_, fun u => ?_⟩
    · rw [lapsed_append, lost_append]
      exact h.supervised.change h.sound hs hlive hfits hchange
    · rw [threads_insert]
      by_cases hu : u = t
      · subst hu
        rw [if_pos rfl, setStage_same, setStance_same]
        exact .onward hs hlive hle hadds (hchange.fits hs hfits) hcarries'
      · rw [if_neg hu, setStage_of_ne hu, setStance_of_ne hu]
        exact (h.task u).others hu hle hadds
  · have hkeeps : KeepsTasks (·.store b.id a.2 (requested request a.1)) :=
      GenerationState.keepsTasks_store b.id a.2 _
    have hview : w.view = m.world.view.modifyGeneration b.generation.number
        (·.store b.id a.2 (requested request a.1)) := hw ▸ World.view_storeValue ..
    have hframe : m.world.view.Frames w.view := hview ▸
      (View.Frames.refl _).modifyGeneration _ hkeeps
    have hadds : m.world.view.Adds w.view (fun _ _ => True) :=
      .of_eq (by rw [hview, View.tasks_modifyGeneration])
    refine ⟨φ, ψ, hview ▸ .store hp hs hj hgoing ha hreserved hplace hstores, ?_, ?_, fun u => ?_⟩
    · rw [hview]
      exact h.sound.modifyGeneration _ fun x => ⟨(hkeeps x).1, fun h => (hkeeps x).2.2.trans h⟩
    · rw [lapsed_append, lost_append]
      exact h.supervised.frame hframe
    · rw [threads_insert]
      by_cases hu : u = t
      · subst hu
        rw [if_pos rfl]
        exact .onward hs hlive hframe.le hadds hfits hcarries'
      · rw [if_neg hu]
        exact (h.task u).others hu hframe.le hadds
  · have hframe : m.world.view.Frames w.view := by
      rw [hview]
      exact .of_sheds (.deliver ..) (.deliver _ _ _)
    have hadds : m.world.view.Adds w.view (fun _ _ => True) := .of_eq (by rw [hview])
    refine ⟨φ, ψ, hview ▸ .reply hp hs hj hσ hreplay, ?_, ?_, fun u => ?_⟩
    · rw [hview]
      exact h.sound.of_sheds (.deliver ..) (h.sound.locks.deliver ..) (.deliver _ _ _)
    · rw [lapsed_append, lost_append]
      exact h.supervised.frame hframe
    · rw [threads_insert]
      by_cases hu : u = t
      · subst hu
        rw [if_pos rfl]
        refine .onward hs hlive hframe.le hadds hfits ?_
        rw [hj, hσ]
        exact .replied hreplied
      · rw [if_neg hu]
        exact (h.task u).others hu hframe.le hadds

end Conducted

/-! ## Beginnings and ends -/

namespace Supervised

variable {lapsed : Prop} {lost : Nat → Prop}

/-- A thread that has nothing becomes another one that has nothing. -/
theorem rest (h : Supervised lapsed lost φ v) (ht : (φ t).AtRest) (hγ : γ.AtRest) :
    Supervised lapsed lost (setStage φ t γ) v := by
  refine h.restage (fun u => ?_) fun id _ _ ho => ho.set_of_eq (hγ.2.trans ht.2.symm)
  by_cases hu : u = t
  · subst hu
    rw [setStage_same, hγ.1, ht.1]
  · rw [setStage_of_ne hu]

/-- The turn of a thread without a hand goes to somebody, and a mailbox is closed. -/
theorem settle (h : Supervised lapsed lost φ v) (ht : (φ t).hand = none)
    {holder : Option TaskId} {locks : LockTable Reaction}
    (hholder : holder = v.holder ∨ v.holder = some t)
    (hlocks : locks = v.locks ∨ ∃ b, locks = v.locks.close b) :
    Supervised lapsed lost φ { v with holder, locks } := by
  have h' : Supervised lapsed lost φ { v with holder } := h.pass fun u hd hu => by
    rcases hholder with rfl | hholder
    · exact h.holder u hd hu
    · exact absurd hu (h.nobody ht (.inr hholder) hd)
  rcases hlocks with rfl | ⟨b, rfl⟩
  · exact h'
  · exact h'.frame (.of_sheds (.close ..) (.close _ _))

end Supervised

namespace View

/-- What is left when the thread of a task ends: the turn is given away, a mailbox closed. -/
theorem Settles.of_locks {holder : Option TaskId} {locks : LockTable Reaction}
    (hlocks : locks = v.locks ∨ ∃ b, locks = v.locks.close b) :
    v.Settles { v with holder, locks } where
  le := by
    refine le_of_eq (Nat.le_refl _) ?_ rfl rfl rfl
    rcases hlocks with rfl | ⟨b, rfl⟩
    · exact .refl _
    · exact .close ..
  issued := rfl
  generations := rfl
  tabs := rfl
  task _ s _ hs hj := ⟨s, hs, hj⟩

theorem Settles.modifyTask (h : v.Settles v') (t : TaskId) :
    v.Settles (v'.modifyTask t Standing.finished) where
  le := le_trans h.le (le_modifyTask v' t _ fun _ => ⟨rfl, id, fun _ => rfl⟩)
  issued := h.issued
  generations := h.generations
  tabs := h.tabs
  task u s' j hs' hj := by
    rw [tasks_modifyTask] at hs'
    split at hs'
    · next hu =>
      obtain ⟨s, hs, rfl⟩ := Option.map_eq_some_iff.1 hs'
      exact h.task u s j (hu ▸ hs) hj
    · exact h.task u s' j hs' hj

theorem Settles.addCaller (hs : v.TasksNumbered) : v.Settles (v.addTask none) where
  le := le_addTask hs none
  issued := rfl
  generations := rfl
  tabs := rfl
  task u s j h hj := by
    rw [tasks_addTask] at h
    split at h
    · cases h
      cases hj
    · exact ⟨s, h, hj⟩

theorem Sound.settle (h : v.Sound e) {holder : Option TaskId} {locks : LockTable Reaction}
    (hlocks : locks = v.locks ∨ ∃ b, locks = v.locks.close b) :
    View.Sound e { v with holder, locks } := by
  rcases hlocks with rfl | ⟨b, rfl⟩
  · exact h.holder holder
  · exact (h.holder holder).of_sheds (.close ..) (h.locks.close b) (.close _ _)

theorem Frames.addCaller (h : v.TasksNumbered) : v.Frames (v.addTask none) where
  le := le_addTask h none
  tabs := rfl
  holder := rfl
  generation _ s hs := ⟨s, hs, rfl, rfl, fun _ hy _ => hy⟩
  task u s j hs hj := .inl ((Settles.addCaller h).task u s j hs hj)
  listens _ x hx _ hs := .inl ⟨x, hx, hs⟩

end View

namespace World

/-- The end of a task in the view. -/
theorem view_finish_spec (w : World) (t : TaskId) :
    ∃ holder, (w.finish t).view = View.modifyTask { w.view with holder } t Standing.finished ∧
      (holder = w.turn.holder ∨ w.turn.holder = some t) := by
  obtain ⟨holder, hw, hh⟩ := view_yieldTurn_spec w t
  exact ⟨holder, by rw [view_finish, hw], hh⟩

theorem view_leave (w : World) (t : TaskId) (p : Execution Unit) :
    ∃ holder locks,
      (Machine.leave w t p).view = View.modifyTask { w.view with holder, locks } t
        Standing.finished ∧
      (holder = w.turn.holder ∨ w.turn.holder = some t) ∧
      (locks = w.locks ∨ ∃ m d k, p = .pause (.mail m d) k ∧ locks = w.locks.close m) := by
  obtain ⟨holder, locks, hw, hh, hl⟩ := view_forsake w t p
  obtain ⟨holder', hw', hh'⟩ := view_finish_spec (Machine.forsake w t p) t
  have hholder : (Machine.forsake w t p).turn.holder = holder := congrArg View.holder hw
  refine ⟨holder', locks, ?_, ?_, hl⟩
  · unfold Machine.leave
    rw [hw', hw]
  · rw [hholder] at hh'
    rcases hh' with rfl | h'
    · exact hh
    · rcases hh with rfl | h
      · exact .inr h'
      · exact .inr h

end World

theorem View.isEnded_modifyTask_finished (v : View) (t : TaskId) :
    (v.modifyTask t Standing.finished).isEnded t = true := by
  unfold View.isEnded
  rw [View.tasks_modifyTask, if_pos rfl]
  cases v.tasks t <;> rfl

/-- A task that has ended stays so. -/
theorem View.isEnded_mono (h : v.isEnded t = true) (hle : v ≤ v')
    (hx : ∃ x, v.tasks t = some x) : v'.isEnded t = true := by
  obtain ⟨x, hx⟩ := hx
  obtain ⟨x', hx', -, -, hend⟩ := hle.task t x hx
  unfold View.isEnded at h ⊢
  rw [hx] at h
  rw [hx']
  exact hend h

/-- What a move comes to for a thread that has not come to its end: it performs a step, or nothing
happens to it, or its task ends, or it is dropped. -/
theorem Move.of_thread {p : Execution Unit} (hmove : Move e m ds m')
    (hp : m.threads[u]? = some p) (hdone : p ≠ .done ()) :
    (∃ q w, e.step u m.world p = some (q, w) ∧ ds = [.performed u p m.world] ∧
      m' = ⟨w, m.threads.insert u q⟩) ∨
    ((∀ q w, Deed.performed u q w ∉ ds) ∧
      (m'.threads[u]? = m.threads[u]? ∨ m'.world.view.isEnded u = true)) ∨
    Deed.dropped u m.world ∈ ds := by
  have hnone : ∀ t : TaskId, m.threads[t]? = none → u ≠ t := by
    rintro t hnone rfl
    exact absurd (hnone.symm.trans hp) (by simp)
  have hended : ∀ t : TaskId, m.threads[t]? = some (.done ()) → u ≠ t := by
    rintro t hend rfl
    exact hdone (Option.some.inj (hp.symm.trans hend))
  have hinsert : ∀ (t : TaskId) (q : Execution Unit), u ≠ t →
      (m.threads.insert t q)[u]? = m.threads[u]? := fun t q hu => by rw [threads_insert, if_neg hu]
  have herase : ∀ t : TaskId, u ≠ t → (m.threads.erase t)[u]? = m.threads[u]? := fun t hu => by
    rw [threads_erase, if_neg hu]
  cases hmove with
  | @perform t q r w hq hstep =>
    by_cases hu : u = t
    · subst hu
      obtain rfl := Option.some.inj (hp.symm.trans hq)
      exact .inl ⟨r, w, hstep, rfl, rfl⟩
    · refine .inr (.inl ⟨fun q' w' h => hu ?_, .inl (hinsert t r hu)⟩)
      cases List.mem_singleton.1 h
      rfl
  | @begin t j _ hn =>
    exact .inr (.inl ⟨fun _ _ => List.not_mem_nil, .inl (hinsert t _ (hnone t hn))⟩)
  | @finish t j _ hd =>
    exact .inr (.inl ⟨fun _ _ => List.not_mem_nil, .inl (herase t (hended t hd))⟩)
  | @leave t j q =>
    by_cases hu : u = t
    · subst hu
      obtain ⟨holder, locks, hview, -⟩ := World.view_leave m.world u q
      refine .inr (.inl ⟨fun _ _ => List.not_mem_nil, .inr ?_⟩)
      change (Machine.leave m.world u q).view.isEnded u = true
      rw [hview]
      exact View.isEnded_modifyTask_finished ..
    · exact .inr (.inl ⟨fun _ _ => List.not_mem_nil, .inl (herase t hu)⟩)
  | leaveEarly | reschedule | appear =>
    exact .inr (.inl ⟨fun _ _ => List.not_mem_nil, .inl rfl⟩)
  | @call t call _ hn =>
    exact .inr (.inl ⟨fun _ _ => List.not_mem_nil, .inl (hinsert t _ (hnone t hn))⟩)
  | @«return» t _ hd =>
    exact .inr (.inl ⟨fun _ _ => List.not_mem_nil, .inl (herase t (hended t hd))⟩)
  | @drop t q =>
    by_cases hu : u = t
    · subst hu
      exact .inr (.inr List.mem_cons_self)
    · refine .inr (.inl ⟨fun q' w' h => ?_, .inl (herase t hu)⟩)
      cases List.mem_singleton.1 h

namespace Conducted

variable {w : World} {threads : Std.ExtTreeMap TaskId (Execution Unit)} {j : Job}

theorem cancelled_of {s : Standing} (h : Machine.isCancelled m.world t = true)
    (hs : m.world.view.tasks t = some s) : s.cancelled = true := by
  obtain ⟨r, hr, rfl⟩ := Option.map_eq_some_iff.1 hs
  unfold Machine.isCancelled at h
  rw [hr] at h
  exact h

theorem caller_of (h : m.world.IsCaller t) :
    ∃ s, m.world.view.tasks t = some s ∧ s.job = none := by
  obtain ⟨r, hr, hj⟩ := h
  exact ⟨r.standing, by rw [World.view_tasks, hr]; rfl, hj⟩

/-- A task of the machine as its record is. -/
theorem standing_of_live (h : m.world.IsLive t j) :
    ∃ s, m.world.view.tasks t = some s ∧ s.job = some j ∧ s.ended = false := by
  obtain ⟨r, hr, hj, hend⟩ := h
  exact ⟨r.standing, by rw [World.view_tasks, hr]; rfl, hj, hend⟩

/-- The thread of a task has nothing in hand. -/
theorem atRest_of_job (h : Conducted e log m φ ψ) {s : Standing}
    (hs : m.world.view.tasks t = some s) (hj : s.job = some j) : (φ t).AtRest := by
  cases hp : m.threads[t]? with
  | none => exact ((h.task t).resting hp).1
  | some p =>
    obtain ⟨s', hs', -, hfits, -⟩ := (h.task t).carries p hp
    obtain rfl := Option.some.inj (hs.symm.trans hs')
    rw [hj] at hfits
    rw [show φ t = .ofHome j.home? from hfits]
    exact ⟨rfl, rfl⟩

/-- A thread begins or returns: only its own stage is another one. -/
theorem restart (h : Conducted e log m φ ψ)
    (hdone : m.threads[t]? = none ∨ m.threads[t]? = some (.done ())) (ht : (φ t).AtRest)
    (hσ : ψ t = .free) (hγ : γ.AtRest) (hthreads : ∀ u, u ≠ t → threads[u]? = m.threads[u]?)
    (htask : TaskSound e log m.world.view threads[t]? γ .free t) :
    ∃ φ' ψ', Passage e log m φ ψ [] m.world.view φ' ψ' ∧
      Conducted e (log ++ []) ⟨m.world, threads⟩ φ' ψ' := by
  refine ⟨_, _, .depart (t := t) (fun _ _ _ => List.not_mem_nil) (fun p hp => .inl ?_) hγ
    (.of_locks (.inl rfl)) (.inl rfl), ?_⟩
  · rcases hdone with hdone | hdone <;> rw [hdone] at hp <;> cases hp
    rfl
  rw [List.append_nil]
  refine ⟨h.sound, h.supervised.rest ht hγ, fun u => ?_⟩
  by_cases hu : u = t
  · subst hu
    rw [setStage_same, setStance_same]
    exact htask
  · rw [setStage_of_ne hu, setStance_of_ne hu]
    change TaskSound e log _ threads[u]? _ _ u
    rw [hthreads u hu]
    exact h.task u

/-- A task ends. -/
theorem quit (h : Conducted e log m φ ψ) (hlive : m.world.IsLive t j)
    {holder : Option TaskId} {locks : LockTable Reaction}
    (hview : w.view = View.modifyTask { m.world.view with holder, locks } t Standing.finished)
    (hholder : holder = m.world.turn.holder ∨ m.world.turn.holder = some t)
    (hlocks : locks = m.world.locks ∨
      ∃ b, (ψ t).mailbox? = some b ∧ locks = m.world.locks.close b)
    (hnone : threads[t]? = none) (hthreads : ∀ u, u ≠ t → threads[u]? = m.threads[u]?)
    (hreplied : ∀ s b arguments request returns, m.world.view.tasks t = some s →
      s.job = some (.body b arguments request returns) →
      s.cancelled = true ∨ ∃ r, e.Replied t b arguments request (Deed.statesOf t log) r) :
    ∃ φ' ψ', Passage e log m φ ψ [] w.view φ' ψ' ∧
      Conducted e (log ++ []) ⟨w, threads⟩ φ' ψ' := by
  obtain ⟨s, hs, hj, -⟩ := standing_of_live hlive
  have hrest := h.atRest_of_job hs hj
  have hclose : locks = m.world.view.locks ∨ ∃ b, locks = m.world.view.locks.close b :=
    hlocks.imp_right fun ⟨b, _, hb⟩ => ⟨b, hb⟩
  have hsettles : m.world.view.Settles w.view := by
    rw [hview]
    exact (View.Settles.of_locks hclose).modifyTask t
  have hfinished : ∀ r : Standing, r.finished.job = r.job ∧
      (r.cancelled = true → r.finished.cancelled = true) ∧
      (r.ended = true → r.finished.ended = true) := fun _ => ⟨rfl, id, fun _ => rfl⟩
  refine ⟨_, _, .depart (t := t) (γ := φ t) (fun _ _ _ => List.not_mem_nil)
    (fun _ _ => .inr (.inl ?_)) hrest hsettles ?_, ?_⟩
  · rw [hview]
    exact View.isEnded_modifyTask_finished ..
  · rw [hview]
    exact hlocks
  rw [List.append_nil, setStage_self]
  refine ⟨?_, ?_, fun u => ?_⟩
  · rw [hview]
    exact (h.sound.settle hclose).modifyTask t hfinished
  · rw [hview]
    exact (h.supervised.settle hrest.1 hholder hclose).frame
      ((View.Frames.refl _).modifyTask t hfinished)
  · by_cases hu : u = t
    · subst hu
      have hat : w.view.tasks u = some s.finished := by
        rw [hview, View.tasks_modifyTask, if_pos rfl]
        exact congrArg (Option.map _) hs
      rw [setStance_same]
      change TaskSound e log _ threads[u]? _ _ u
      rw [hnone]
      refine ⟨nofun, fun _ => ⟨hrest, rfl⟩, fun s' hs' hj' => ?_, fun _ hall => ?_,
        fun s' b arguments request returns hs' hj' _ => ?_⟩
      · obtain rfl := Option.some.inj (hat.symm.trans hs')
        exact absurd (hj.symm.trans hj') (by simp)
      · exact absurd (hall _ hat).2 (by simp [Standing.finished])
      · obtain rfl := Option.some.inj (hat.symm.trans hs')
        exact hreplied s b arguments request returns hs hj'
    · rw [setStance_of_ne hu]
      change TaskSound e log _ threads[u]? _ _ u
      rw [hthreads u hu]
      refine (h.task u).mono hsettles.le (fun s' hs' => .inl ?_) rfl
      rw [hview, View.tasks_modifyTask, if_neg hu] at hs'
      exact ⟨s', hs', rfl, rfl⟩

/-- A caller drops its call. -/
theorem forsake (h : Conducted e log m φ ψ) (hc : m.world.IsCaller t) {p : Execution Unit}
    (hp : m.threads[t]? = some p) :
    ∃ φ' ψ', Passage e log m φ ψ [.dropped t m.world] (Machine.forsake m.world t p).view φ' ψ' ∧
      Conducted e (log ++ [.dropped t m.world])
        ⟨Machine.forsake m.world t p, m.threads.erase t⟩ φ' ψ' := by
  obtain ⟨r, hs, hj⟩ := caller_of hc
  obtain ⟨s', -, -, -, hcarries⟩ := (h.task t).carries p hp
  obtain ⟨holder, locks, hview, hholder, hlocks⟩ := World.view_forsake m.world t p
  have hmail : locks = m.world.locks ∨
      ∃ b, (ψ t).mailbox? = some b ∧ locks = m.world.locks.close b := by
    refine hlocks.imp_right ?_
    rintro ⟨b, d, k, rfl, hb⟩
    exact ⟨b, hcarries.of_pause.1, hb⟩
  have hclose : locks = m.world.view.locks ∨ ∃ b, locks = m.world.view.locks.close b :=
    hmail.imp_right fun ⟨b, _, hb⟩ => ⟨b, hb⟩
  have hlog : ∀ u, Deed.statesOf u (log ++ [.dropped t m.world]) = Deed.statesOf u log := fun u => by
    rw [Deed.statesOf_append, Deed.statesOf_dropped, List.append_nil]
  have hsettles : m.world.view.Settles { m.world.view with holder, locks } := .of_locks hclose
  rw [hview]
  refine ⟨_, _, .depart (t := t) (γ := .idle) (by simp) (fun _ _ => .inr (.inr (by simp)))
    ⟨rfl, rfl⟩ hsettles hmail, ?_, ?_, fun u => ?_⟩
  · change View.Sound e (Machine.forsake m.world t p).view
    rw [hview]
    exact h.sound.settle hclose
  · change Supervised _ _ _ (Machine.forsake m.world t p).view
    rw [hview]
    refine Supervised.settle (t := t) ?_ (by rw [setStage_same]; rfl) hholder hclose
    refine h.supervised.drop rfl (fun ⟨u, w, hw⟩ => ⟨u, w, List.mem_append_left _ hw⟩)
      (.inl ⟨t, m.world, by simp⟩) (fun n ⟨u, w, hw, hrest⟩ => ⟨u, w, List.mem_append_left _ hw, hrest⟩)
      ?_ fun hd n s hhand hhas hn => ?_
    · rintro n ⟨u, w, hw, hturn, ⟨s, hn⟩, hrec, hgone⟩
      rcases List.mem_append.1 hw with hw | hw
      · exact .inl ⟨u, w, hw, hturn, ⟨s, hn⟩, hrec, hgone⟩
      · obtain ⟨rfl, rfl⟩ : u = t ∧ w = m.world := by simpa using hw
        rcases h.supervised.placed n s hn with hr' | ⟨u', hd, hhand, -⟩ | hg | hl
        · exact absurd hr' hrec
        · obtain rfl : u = u' := Option.some.inj (hturn.symm.trans (h.supervised.holder u' hd hhand))
          exact .inr ⟨by rw [hhand]; simp, ⟨s, hn⟩, hrec⟩
        · exact absurd hg hgone
        · exact .inl hl
    · by_cases hrec : m.world.view.Records n
      · exact .inl hrec
      · by_cases hgone : m.world.view.Gone n
        · exact .inr (.inl hgone)
        · exact .inr (.inr ⟨t, m.world, by simp, h.supervised.holder t hd hhand, ⟨s, hn⟩, hrec, hgone⟩)
  · rw [threads_erase]
    have hgoes : ∀ s', View.tasks (Machine.forsake m.world t p).view u = some s' →
        m.world.view.tasks u = some s' := fun s' hs' => by rw [hview] at hs'; exact hs'
    by_cases hu : u = t
    · subst hu
      rw [if_pos rfl, setStage_same, setStance_same]
      refine ⟨nofun, fun _ => ⟨⟨rfl, rfl⟩, rfl⟩, fun s hs hj => ?_, fun _ hall => ?_,
        fun s _ _ _ _ hs' hj' _ => ?_⟩
      · exact (h.task u).caller s (hgoes s hs) hj
      · refine absurd hj (hall r ?_).1
        rw [hview]
        exact hs
      · obtain rfl := Option.some.inj (hs.symm.trans (hgoes s hs'))
        exact absurd (hj.symm.trans hj') (by simp)
    · rw [if_neg hu, setStage_of_ne hu, setStance_of_ne hu]
      refine (h.task u).mono ?_ (fun s' hs' => .inl ⟨s', hgoes s' hs', rfl, rfl⟩) (hlog u)
      rw [hview]
      exact hsettles.le

/-- Time passes and tasks are queued. -/
theorem reschedule (h : Conducted e log m φ ψ) (hw : m.world.Rescheduled w) :
    ∃ φ' ψ', Passage e log m φ ψ [] w.view φ' ψ' ∧
      Conducted e (log ++ []) ⟨w, m.threads⟩ φ' ψ' := by
  have hview : View.Settles m.world.view m.world.view := .of_locks (.inl rfl)
  rw [List.append_nil, hw.view]
  refine ⟨φ, ψ, .still hview rfl, ?_, ?_, fun u => ?_⟩
  · change View.Sound e w.view
    rw [hw.view]
    exact h.sound
  · change Supervised _ _ _ w.view
    rw [hw.view]
    exact h.supervised
  · change TaskSound e log w.view m.threads[u]? _ _ u
    rw [hw.view]
    exact h.task u

theorem new_task (h : v.TasksNumbered) {s' : Standing} {job : Option Job}
    (hs' : (v.addTask job).tasks u = some s') :
    v.tasks u = some s' ∨ v.tasks u = none ∧ s' = ⟨job, false, false⟩ := by
  rw [View.tasks_addTask] at hs'
  split at hs'
  · next hu =>
    refine .inr ⟨?_, (Option.some.inj hs').symm⟩
    cases hx : v.tasks u with
    | none => rfl
    | some x => exact absurd hu (Nat.ne_of_lt (h u x hx))
  · exact .inl hs'

/-- A caller appears. -/
theorem appear (h : Conducted e log m φ ψ) :
    ∃ φ' ψ', Passage e log m φ ψ [] m.world.newCaller.view φ' ψ' ∧
      Conducted e (log ++ []) ⟨m.world.newCaller, m.threads⟩ φ' ψ' := by
  have hnew := h.sound.tasksNumbered
  have hview := World.view_newCaller m.world
  rw [List.append_nil, hview]
  refine ⟨φ, ψ, .still (.addCaller hnew) rfl, ?_, ?_, fun u => ?_⟩
  · change View.Sound e m.world.newCaller.view
    rw [hview]
    exact h.sound.addTask fun j hj => absurd hj (by simp)
  · change Supervised _ _ _ m.world.newCaller.view
    rw [hview]
    exact h.supervised.frame (.addCaller hnew)
  · change TaskSound e log m.world.newCaller.view m.threads[u]? _ _ u
    rw [hview]
    refine (h.task u).mono (View.le_addTask hnew none) (fun s' hs' => ?_) rfl
    rcases new_task hnew hs' with hs | ⟨hnone, rfl⟩
    · exact .inl ⟨s', hs, rfl, rfl⟩
    · exact .inr ⟨hnone, rfl⟩

/-! ## Every move -/

/-- Every move keeps the invariant. -/
theorem move (he : e.Orderly) (h : Conducted e log m φ ψ) (hmove : Move e m ds m') :
    ∃ φ' ψ', Passage e log m φ ψ ds m'.world.view φ' ψ' ∧
      Conducted e (log ++ ds) m' φ' ψ' := by
  cases hmove with
  | perform hp hstep => exact h.perform he hp hstep
  | @begin t j hlive hnone =>
    obtain ⟨s, hs, hj, hend⟩ := standing_of_live hlive
    obtain ⟨hrest, hσ⟩ := (h.task t).resting hnone
    refine h.restart (.inl hnone) hrest hσ (γ := .ofHome j.home?) ⟨rfl, rfl⟩
      (fun u hu => by rw [threads_insert, if_neg hu]) ?_
    rw [threads_insert, if_pos rfl]
    have hempty : Deed.statesOf t log = [] := (h.task t).untouched hnone fun s' hs' => by
      obtain rfl := Option.some.inj (hs.symm.trans hs')
      exact ⟨by rw [hj]; simp, hend⟩
    refine ⟨fun p hp => ?_, nofun, (h.task t).caller, nofun, (h.task t).replied⟩
    obtain rfl := Option.some.inj hp
    refine ⟨s, hs, hend, by rw [hj]; rfl, ?_⟩
    rw [hempty, hj]
    exact .work hs hj (h.sound.jobs t s j hs hj)
  | @finish t j hlive hp =>
    obtain ⟨holder, hview, hholder⟩ := World.view_finish_spec m.world t
    obtain ⟨s, hs, -, -, hcarries⟩ := (h.task t).carries _ hp
    refine h.quit hlive hview hholder (.inl rfl) (by rw [threads_erase, if_pos rfl])
      (fun u hu => by rw [threads_erase, if_neg hu]) fun s' b arguments request returns hs' hj' => ?_
    obtain rfl := Option.some.inj (hs.symm.trans hs')
    exact .inr (hcarries.of_done.2.2 b arguments request returns hj')
  | @leave t j p hlive hcancelled hp =>
    obtain ⟨holder, locks, hview, hholder, hlocks⟩ := World.view_leave m.world t p
    obtain ⟨s, hs, -, -, hcarries⟩ := (h.task t).carries _ hp
    refine h.quit hlive hview hholder ?_ (by rw [threads_erase, if_pos rfl])
      (fun u hu => by rw [threads_erase, if_neg hu]) fun s' _ _ _ _ hs' _ =>
        .inl (cancelled_of hcancelled hs')
    refine hlocks.imp_right ?_
    rintro ⟨b, d, k, rfl, hb⟩
    exact ⟨b, hcarries.of_pause.1, hb⟩
  | @leaveEarly t j hlive hcancelled hnone =>
    obtain ⟨holder, hview, hholder⟩ := World.view_finish_spec m.world t
    exact h.quit hlive hview hholder (.inl rfl) hnone (fun _ _ => rfl) fun s' _ _ _ _ hs' _ =>
      .inl (cancelled_of hcancelled hs')
  | @reschedule w hw => exact h.reschedule hw
  | appear => exact h.appear
  | @call t c hc hnone =>
    obtain ⟨s, hs, hj⟩ := caller_of hc
    obtain ⟨hrest, hσ⟩ := (h.task t).resting hnone
    refine h.restart (.inl hnone) hrest hσ (γ := .idle) ⟨rfl, rfl⟩
      (fun u hu => by rw [threads_insert, if_neg hu]) ?_
    rw [threads_insert, if_pos rfl]
    refine ⟨fun p hp => ?_, nofun, (h.task t).caller, nofun, (h.task t).replied⟩
    obtain rfl := Option.some.inj hp
    refine ⟨s, hs, (h.task t).caller s hs hj, by rw [hj]; rfl, ?_⟩
    rw [hj]
    exact .call ⟨s, hs, hj⟩ c
  | @«return» t hc hp =>
    obtain ⟨s, hs, hj⟩ := caller_of hc
    obtain ⟨s', hs', -, -, hcarries⟩ := (h.task t).carries _ hp
    obtain rfl := Option.some.inj (hs.symm.trans hs')
    obtain ⟨hσ, hrest, -⟩ := hcarries.of_done
    refine h.restart (.inr hp) (hrest hj) hσ (γ := .idle) ⟨rfl, rfl⟩
      (fun u hu => by rw [threads_erase, if_neg hu]) ?_
    rw [threads_erase, if_pos rfl]
    refine ⟨nofun, fun _ => ⟨⟨rfl, rfl⟩, rfl⟩, (h.task t).caller, fun _ hall => ?_,
      (h.task t).replied⟩
    exact absurd hj (hall s hs).1
  | @drop t p hc hp => exact h.forsake hc hp

/-! ## Runs -/

/-- Before anything has happened only the host is there. -/
theorem tasks_start {capacity : Nat} {s : Standing}
    (hs : (World.start capacity).view.tasks t = some s) :
    t = World.host ∧ s = ⟨none, false, false⟩ := by
  have hs : (((∅ : Std.ExtTreeMap TaskId TaskRecord).insert World.host
    ⟨none, false, false, false, []⟩)[t]?).map TaskRecord.standing = some s := hs
  rw [Std.ExtTreeMap.getElem?_insert] at hs
  split at hs
  · next h => exact ⟨(Std.LawfulEqCmp.eq_of_compare h).symm, (Option.some.inj hs).symm⟩
  · simp at hs

theorem start (e : Engine) (capacity : Nat) :
    Conducted e [] (.start capacity) (fun _ => .idle) fun _ => .free := by
  have hgenerations : ∀ n s, (World.start capacity).view.generation? n ≠ some s := by
    intro n s hs
    change (∅ : Std.ExtTreeMap Nat GenerationState)[n]? = some s at hs
    simp at hs
  have htabs : ∀ id x, (World.start capacity).view.tab? id ≠ some x := by
    intro id x hx
    cases hx
  have hlocks : ∀ l x, (World.start capacity).view.locks.lock? l ≠ some x := by
    intro l x hx
    cases hx
  refine ⟨?_, ?_, fun t => ⟨fun p hp => ?_, fun _ => ⟨⟨rfl, rfl⟩, rfl⟩, fun s hs _ => ?_,
    fun _ _ => rfl, fun s _ _ _ _ hs hj => ?_⟩⟩
  · exact {
      locks := .empty
      subscribed := fun l x hx => absurd hx (hlocks l x)
      unheard := fun l x _ hx => absurd hx (hlocks l x)
      jobs := fun t s j hs hj => by rw [(tasks_start hs).2] at hj; cases hj
      ordered := List.Pairwise.nil
      recorded := fun id x _ hx => absurd hx (htabs id x)
      tasksNumbered := fun t s hs => (tasks_start hs).1 ▸ Nat.lt_succ_self 0
      generationsNumbered := fun n s hs => absurd hs (hgenerations n s) }
  · exact {
      status := fun id x hx => absurd hx (htabs id x)
      alive := fun n ⟨id, x, _, hx, _⟩ => absurd hx (htabs id x)
      current := fun id x _ hx => absurd hx (htabs id x)
      holder := fun _ _ h => by cases h
      hands := fun _ _ h => by cases h
      placed := fun n s hs => absurd hs (hgenerations n s)
      tracked := fun t s j hs hj => by rw [(tasks_start hs).2] at hj; cases hj
      lost := fun n ⟨_, _, h, _⟩ => by cases h }
  · change (∅ : Std.ExtTreeMap TaskId (Execution Unit))[t]? = some p at hp
    simp at hp
  · rw [(tasks_start hs).2]
  · rw [(tasks_start hs).2] at hj
    cases hj

/-- A task with a thread has not ended. -/
theorem not_ended (hc : Conducted e log m φ ψ) {p : Execution Unit}
    (hp : m.threads[t]? = some p) : m.world.view.isEnded t = false := by
  obtain ⟨x, hx, hlive, -⟩ := (hc.task t).carries p hp
  unfold View.isEnded
  rw [hx]
  exact hlive

/-- A task that has ended performs no step. -/
theorem not_performed (hc : Conducted e log m φ ψ) (hmove : Move e m ds m')
    (hended : m.world.view.isEnded t = true) : ∀ p w, Deed.performed t p w ∉ ds := by
  intro p w hmem
  cases hmove with
  | @perform t _ _ _ hp =>
    cases List.mem_singleton.1 hmem
    exact absurd (hended.symm.trans (hc.not_ended hp)) (by simp)
  | drop => cases List.mem_singleton.1 hmem
  | _ => exact absurd hmem List.not_mem_nil

/-- So does every run, and the view only grows. -/
theorem extend (he : e.Orderly) {log' : List Deed} (h : Conducted e log m φ ψ)
    (hrun : Run e m log' m') :
    ∃ φ' ψ', Conducted e (log ++ log') m' φ' ψ' ∧ m.world.view ≤ m'.world.view := by
  induction hrun with
  | refl => exact ⟨φ, ψ, by rw [List.append_nil]; exact h, View.le_refl _⟩
  | move _ hmove ih =>
    obtain ⟨φ₁, ψ₁, h₁, hle⟩ := ih
    obtain ⟨φ₂, ψ₂, hp, h₂⟩ := h₁.move he hmove
    exact ⟨φ₂, ψ₂, by rw [← List.append_assoc]; exact h₂, View.le_trans hle (hp.le h₁.sound)⟩

theorem run (he : e.Orderly) {capacity : Nat} (hrun : Run e (.start capacity) log m) :
    ∃ φ ψ, Conducted e log m φ ψ := by
  obtain ⟨φ, ψ, h, -⟩ := (start e capacity).extend he hrun
  exact ⟨φ, ψ, h⟩

/-- The task that is about to be numbered has no thread and has performed no step. -/
theorem new {φ : TaskId → Stage} {ψ : TaskId → Stance} (hc : Conducted e log m φ ψ) :
    m.threads[m.world.taskCount]? = none ∧ Deed.statesOf m.world.taskCount log = [] := by
  have hnone : m.world.view.tasks m.world.taskCount = none := by
    cases hx : m.world.view.tasks m.world.taskCount with
    | none => rfl
    | some x => exact absurd (hc.sound.tasksNumbered _ x hx) (Nat.lt_irrefl _)
  have hthread : m.threads[m.world.taskCount]? = none := by
    cases hp : m.threads[m.world.taskCount]? with
    | none => rfl
    | some p =>
      obtain ⟨x, hx, -⟩ := (hc.task _).carries p hp
      exact nomatch hnone.symm.trans hx
  exact ⟨hthread, (hc.task _).untouched hthread fun x hx => nomatch hnone.symm.trans hx⟩

end Conducted
end BlockEngine
