import BlockEngine.Proofs.Replies
import BlockEngine.Proofs.Stopping

/-!
# Following one thread

What one thread does on the way through a part of its work, while all others make their moves.

* `World.added`, `Deed.started` : the tasks that a step, or all steps of a thread, start;
* `Reaches`, `Performs` : an execution comes to another one, or to its end, by steps in some states
  of a run, and starts some tasks; one inversion lemma for each way executions are built;
* `Course`, `Run.course` : how a thread comes to the end of a part of its work in a run, step by step
  among the moves of others;
* `Run.performs` : what a thread did for a part of its work, when it has come to the end of it;
* `Prompt` : an execution that never waits and ends; `Prompt.run` : it comes to its end alone.
-/

namespace BlockEngine

variable {α β : Type} {e : Engine} {t u : TaskId} {log log' ds : List Deed} {m m' : Machine}
  {w w' : World} {ws : List World} {xs : List (TaskId × Job)}

/-! ## Tasks that steps start -/

/-- The tasks that one state has more than another one before, with their jobs. -/
def World.added (w w' : World) : List (TaskId × Job) :=
  (List.range' w.taskCount (w'.taskCount - w.taskCount)).filterMap fun t =>
    ((w'.task? t).bind (·.job)).map (t, ·)

/-- The tasks that the steps of the task `t` have started, in order. -/
def Deed.started (e : Engine) (t : TaskId) (log : List Deed) : List (TaskId × Job) :=
  log.flatMap fun
    | .performed u p w => if u = t then ((e.step t w p).map fun r => w.added r.2).getD [] else []
    | .dropped .. => []

theorem World.added_of_taskCount (h : w'.taskCount = w.taskCount) : w.added w' = [] := by
  unfold added
  rw [h, Nat.sub_self]
  rfl

theorem World.added_of_view {w₁ w₂ : World} (h : w₁.view = w₂.view) : w.added w₁ = w.added w₂ := by
  have htask : ∀ t, (w₁.task? t).bind (·.job) = (w₂.task? t).bind (·.job) := by
    intro t
    have hstanding : (w₁.task? t).map TaskRecord.standing = (w₂.task? t).map TaskRecord.standing :=
      congrArg (View.tasks · t) h
    have hjob := congrArg (fun o => Option.bind o Standing.job) hstanding
    rwa [Option.bind_map, Option.bind_map] at hjob
  have hcount : w₁.taskCount = w₂.taskCount := congrArg View.taskCount h
  unfold added
  simp only [htask, hcount]

/-- A generation that takes tasks is asked for one: that task is started, and no other. -/
theorem World.added_spawn (n : Nat) (d : String) (c : Context) (j : Job) :
    w.added (w.spawn n d c j).2 = if w.isDestroyed n then [] else [(w.taskCount, j)] := by
  cases h : w.isDestroyed n with
  | true =>
    rw [spawn_of_destroyed h]
    exact added_of_taskCount rfl
  | false =>
    obtain ⟨-, hcount, htask, -⟩ := spawn_spec h d c j
    unfold added
    rw [hcount, Nat.add_sub_cancel_left]
    simp [htask]

namespace Deed

theorem started_append (log log' : List Deed) :
    started e t (log ++ log') = started e t log ++ started e t log' := List.flatMap_append

theorem started_of_others (h : ∀ p w, Deed.performed t p w ∉ ds) : started e t ds = [] := by
  refine List.flatMap_eq_nil_iff.2 fun d hd => ?_
  cases d with
  | dropped => rfl
  | performed u p w => exact if_neg fun (hu : u = t) => h p w (hu ▸ hd)

theorem started_performed {p q : Execution Unit} (h : e.step t w p = some (q, w')) :
    started e t [.performed t p w] = w.added w' := by
  simp [started, h]

end Deed

/-! ## Executions on their way -/

/-- By steps in some states of a run an execution comes to another one, and these steps start some
tasks. What a step leaves has grown into the states of all later steps, and into the view `v`. -/
inductive Reaches (e : Engine) (t : TaskId) (v : View) :
    Execution α → List World → List (TaskId × Job) → Execution α → Prop
  | refl (p : Execution α) : Reaches e t v p [] [] p
  | step {p q r : Execution α} {w w' : World} {ws : List World} {xs : List (TaskId × Job)} :
      w.view.Sound e → e.step t w p = some (q, w') → w'.view ≤ v →
      (∀ w₁ ∈ ws, w'.view ≤ w₁.view) → Reaches e t v q ws xs r →
      Reaches e t v p (w :: ws) (w.added w' ++ xs) r

/-- By steps in some states of a run an execution comes to its end, with an answer; these steps
start some tasks. -/
abbrev Performs (e : Engine) (t : TaskId) (v : View) (p : Execution α) (ws : List World)
    (xs : List (TaskId × Job)) (a : α) : Prop :=
  Reaches e t v p ws xs (.done a)

namespace Reaches

variable {v v' : View} {p q q' r : Execution α} {a a' : α} {b : β}

/-! ### What was done, by the way an execution is built -/

theorem of_done (h : Performs e t v (.done a') ws xs a) : ws = [] ∧ xs = [] ∧ a = a' := by
  cases h with
  | refl => exact ⟨rfl, rfl, rfl⟩
  | step _ hstep => cases hstep

/-- A composition does its first part, then its second one. What the first part leaves has grown
into every state of the second one. -/
theorem of_bind {k : α → Execution β} (h : Performs e t v (p.bind k) ws xs b) :
    ∃ ws₁ ws₂ xs₁ xs₂ a, ws = ws₁ ++ ws₂ ∧ xs = xs₁ ++ xs₂ ∧ Performs e t v p ws₁ xs₁ a ∧
      (∀ w ∈ ws₂, Performs e t w.view p ws₁ xs₁ a) ∧ Performs e t v (k a) ws₂ xs₂ b := by
  unfold Performs at h
  generalize hq : p.bind k = q at h
  generalize hr : Execution.done b = r at h
  induction h generalizing p with
  | refl q =>
    subst hr
    cases p with
    | done a =>
      refine ⟨[], [], [], [], a, rfl, rfl, .refl _, fun _ _ => .refl _, ?_⟩
      rw [show k a = .done b from hq]
      exact .refl _
    | _ => cases hq
  | @step q q' r w w' ws xs hs hstep hle hws hrest ih =>
    by_cases hp : ∃ a, p = .done a
    · obtain ⟨a, rfl⟩ := hp
      obtain rfl : k a = q := hq
      subst hr
      exact ⟨[], _, [], _, a, rfl, rfl, .refl _, fun _ _ => .refl _, .step hs hstep hle hws hrest⟩
    · rw [← hq, Engine.step_bind e t w k fun a ha => hp ⟨a, ha⟩] at hstep
      obtain ⟨⟨p', w₁⟩, hp', heq⟩ := Option.map_eq_some_iff.1 hstep
      obtain ⟨rfl, rfl⟩ := Prod.mk.inj heq
      obtain ⟨ws₁, ws₂, xs₁, xs₂, a, rfl, rfl, h₁, hgrown, h₂⟩ := ih rfl hr
      have hws₁ := fun w' hw' => hws w' (List.mem_append_left _ hw')
      exact ⟨w :: ws₁, ws₂, w.added w₁ ++ xs₁, xs₂, a, rfl, (List.append_assoc ..).symm,
        .step hs hp' hle hws₁ h₁,
        fun w' hw' => .step hs hp' (hws w' (List.mem_append_right _ hw')) hws₁ (hgrown w' hw'), h₂⟩

/-- Nothing is done to make an answer of another one. -/
theorem of_answered {g : α → β} (h : Performs e t v (p.bind fun a => .done (g a)) ws xs b) :
    ∃ a, Performs e t v p ws xs a := by
  obtain ⟨ws₁, ws₂, xs₁, xs₂, a, rfl, rfl, hp, -, hend⟩ := h.of_bind
  obtain ⟨rfl, rfl, -⟩ := hend.of_done
  exact ⟨a, by simpa using hp⟩

/-- A change of the state is one step. -/
theorem of_act {f : World → World} {k : World → Execution α}
    (h : Performs e t v (.act f k) ws xs a) :
    ∃ w ws' xs', ws = w :: ws' ∧ xs = w.added (f w) ++ xs' ∧ w.view.Sound e ∧ (f w).view ≤ v ∧
      Performs e t v (k w) ws' xs' a := by
  cases h with
  | step hs hstep hle _ hrest =>
    obtain ⟨rfl, rfl⟩ := Prod.mk.inj (Option.some.inj hstep)
    exact ⟨_, _, _, rfl, rfl, hs, hle, hrest⟩

theorem of_atomically {f : World → α × World}
    (h : Performs e t v (Execution.atomically f) ws xs a) :
    ∃ w, ws = [w] ∧ xs = w.added (f w).2 ∧ w.view.Sound e ∧ (f w).2.view ≤ v ∧ a = (f w).1 := by
  obtain ⟨w, ws', xs', rfl, rfl, hs, hle, hrest⟩ := h.of_act
  obtain ⟨rfl, rfl, rfl⟩ := hrest.of_done
  exact ⟨w, rfl, List.append_nil _, hs, hle, rfl⟩

theorem of_change {f : World → World} {a : Unit}
    (h : Performs e t v (Execution.change f) ws xs a) :
    ∃ w, ws = [w] ∧ xs = w.added (f w) ∧ w.view.Sound e ∧ (f w).view ≤ v := by
  obtain ⟨w, ws', xs', rfl, rfl, hs, hle, hrest⟩ := h.of_act
  obtain ⟨rfl, rfl, -⟩ := hrest.of_done
  exact ⟨w, rfl, List.append_nil _, hs, hle⟩

theorem of_look {a : World} (h : Performs e t v Execution.look ws xs a) :
    ws = [a] ∧ xs = [] ∧ a.view.Sound e ∧ a.view ≤ v := by
  obtain ⟨w, ws', xs', rfl, rfl, hs, hle, hrest⟩ := h.of_act
  obtain ⟨rfl, rfl, rfl⟩ := hrest.of_done
  exact ⟨rfl, (List.append_nil _).trans (World.added_of_taskCount rfl), hs, hle⟩

/-- A signal is one step, which starts no task; the reactions follow. -/
theorem of_signalLock {l : LockId} {x : Json} {a : Nat}
    (h : Performs e t v (Execution.signalLock l x) ws xs a) :
    ∃ w ws', ws = w :: ws' ∧ w.view.Sound e ∧
      Performs e t v (e.reactAll x (w.locks.deliver l x).1.2) ws' xs () := by
  cases h with
  | @step _ _ _ w w' ws xs hs hstep hle hws hrest =>
    rw [Execution.signalLock, Engine.step_signal] at hstep
    obtain ⟨rfl, rfl⟩ := Prod.mk.inj (Option.some.inj hstep)
    obtain ⟨ws₁, ws₂, xs₁, xs₂, _, rfl, rfl, h₁, -, h₂⟩ := hrest.of_bind
    obtain ⟨rfl, rfl, -⟩ := h₂.of_done
    have hcount : (w.deliver l x).2.taskCount = w.taskCount :=
      congrArg View.taskCount (World.view_deliver w l x)
    rw [World.added_of_taskCount hcount, List.append_nil, List.append_nil, List.nil_append]
    exact ⟨w, ws₁, rfl, hs, h₁⟩

end Reaches

/-! ## A thread in a run -/

/-- Whose deed it is. -/
def Deed.actor : Deed → TaskId
  | .performed t .. | .dropped t _ => t

/-- A thread that has to do `p` first and `k` then comes to the end of `p` with an answer: by turns
others make their moves and the thread performs a step of `p`. -/
inductive Course (e : Engine) (t : TaskId) (k : α → Execution Unit) (m' : Machine) :
    Machine → Execution α → List Deed → α → Prop
  | done {m : Machine} {a : α} {log : List Deed} :
      Run e m log m' → (∀ d ∈ log, d.actor ≠ t) → Course e t k m' m (.done a) log a
  | step {m m₁ : Machine} {p q : Execution α} {w : World} {log log' : List Deed} {a : α} :
      Run e m log m₁ → (∀ d ∈ log, d.actor ≠ t) → m₁.threads[t]? = some (p.bind k) →
      e.step t m₁.world p = some (q, w) →
      Course e t k m' ⟨w, m₁.threads.insert t (q.bind k)⟩ q log' a →
      Course e t k m' m p (log ++ .performed t (p.bind k) m₁.world :: log') a

namespace Deed

/-- A thread that has performed no step and was not dropped has no deeds. -/
theorem actor_ne (h : statesOf t log = []) (hdrop : ∀ w, .dropped t w ∉ log) :
    ∀ d ∈ log, d.actor ≠ t := by
  rintro d hd rfl
  cases d with
  | dropped u w => exact hdrop w hd
  | performed u p w =>
    have hnone := List.filterMap_eq_nil_iff.1 h _ hd
    exact absurd ((if_pos rfl).symm.trans hnone) nofun

theorem statesOf_of_others (h : ∀ d ∈ log, d.actor ≠ t) : statesOf t log = [] :=
  statesOf_eq_nil fun _ _ hmem => h _ hmem rfl

/-- The first step that a thread has performed. -/
theorem statesOf_eq_cons (h : statesOf t log = w :: ws) :
    ∃ log₁ p log₂, log = log₁ ++ .performed t p w :: log₂ ∧ statesOf t log₁ = [] ∧
      statesOf t log₂ = ws := by
  obtain ⟨log₁, d, log₂, rfl, hnone, hd, hrest⟩ := List.filterMap_eq_cons_iff.1 h
  cases d with
  | dropped => cases hd
  | performed u p w' =>
    by_cases hu : u = t
    · subst hu
      obtain rfl : w' = w := by simpa using hd
      exact ⟨log₁, p, log₂, rfl, List.filterMap_eq_nil_iff.2 hnone, hrest⟩
    · simp [hu] at hd

end Deed

section

variable {φ : TaskId → Stage} {ψ : TaskId → Stance} {log₀ : List Deed} {k : α → Execution Unit}

/-- While others make their moves a thread has to do what it had to, unless its task has ended. -/
theorem Run.thread_of_others (he : e.Orderly) (hc : Conducted e log₀ m φ ψ)
    (hrun : Run e m log m') {p : Execution Unit} (hp : m.threads[t]? = some p)
    (hdone : p ≠ .done ()) (hlog : ∀ d ∈ log, d.actor ≠ t) :
    m'.threads[t]? = some p ∨ m'.world.view.isEnded t = true := by
  induction hrun with
  | refl => exact .inl hp
  | @move log ds m₁ m₂ hrun hmove ih =>
    obtain ⟨φ₁, ψ₁, hc₁, hle₁⟩ := hc.extend he hrun
    obtain ⟨φ₂, ψ₂, hpass, -⟩ := hc₁.move he hmove
    rcases ih fun d hd => hlog d (List.mem_append_left _ hd) with hp₁ | hended
    · rcases hmove.of_thread hp₁ hdone with ⟨q, w, -, rfl, -⟩ | ⟨-, hsame | hended⟩ | hdrop
      · exact absurd rfl (hlog _ (List.mem_append_right _ (List.mem_singleton_self _)))
      · exact .inl (hsame.trans hp₁)
      · exact .inr hended
      · exact absurd rfl (hlog _ (List.mem_append_right _ hdrop))
    · obtain ⟨x, hx, -⟩ := (hc.task t).carries p hp
      obtain ⟨x₁, hx₁, -⟩ := hle₁.task t x hx
      exact .inr (View.isEnded_mono hended (hpass.le hc₁.sound) ⟨x₁, hx₁⟩)

/-- A task with a job drops nothing. -/
theorem Run.not_dropped (he : e.Orderly) (hc : Conducted e log₀ m φ ψ) (hrun : Run e m log m')
    {j : Job} (hlive : m.world.IsLive t j) (w : World) : Deed.dropped t w ∉ log := by
  intro hmem
  obtain ⟨log₁, log₂, rfl⟩ := List.append_of_mem hmem
  obtain ⟨m₁, m₂, hrun₁, hmove, -⟩ := hrun.split
  obtain ⟨-, -, -, hle⟩ := hc.extend he hrun₁
  obtain ⟨r, hr, hj, -⟩ := hlive
  obtain ⟨x, hx, hjob, -⟩ := hle.task t r.standing (by rw [World.view_tasks, hr]; rfl)
  cases hmove with
  | drop hcaller =>
    obtain ⟨r', hr', hnone⟩ := hcaller
    obtain ⟨r₁, hr₁, rfl⟩ := Option.map_eq_some_iff.1 hx
    obtain rfl := Option.some.inj (hr'.symm.trans hr₁)
    exact absurd (hj.symm.trans (hjob.symm.trans hnone)) (Option.some_ne_none _)

/-- The course of a thread that comes to the end of the first part of its work in a run. -/
theorem Run.course (he : e.Orderly) (hc : Conducted e log₀ m φ ψ) (hrun : Run e m log m')
    {p : Execution α} (hp : m.threads[t]? = some (p.bind k))
    (hdrop : ∀ w, Deed.dropped t w ∉ log) {a : α}
    (hdone : e.replay t p (Deed.statesOf t log) = some (.done a)) : Course e t k m' m p log a := by
  generalize hws : Deed.statesOf t log = ws at hdone
  induction ws generalizing m log log₀ φ ψ p with
  | nil =>
    obtain rfl := Option.some.inj hdone
    exact .done hrun (Deed.actor_ne hws hdrop)
  | cons w ws ih =>
    obtain ⟨log₁, r, log₂, rfl, hnone, hrest⟩ := Deed.statesOf_eq_cons hws
    obtain ⟨m₁, m₂, hbefore, hmove, hafter⟩ := hrun.split
    obtain ⟨⟨q, w'⟩, hstep, hdone'⟩ := Option.bind_eq_some_iff.1 hdone
    have hne : ∀ a, p ≠ .done a := by
      rintro a rfl
      cases hstep
    have hothers := Deed.actor_ne hnone fun w hw => hdrop w (List.mem_append_left _ hw)
    obtain ⟨φ₁, ψ₁, hc₁, -⟩ := hc.extend he hbefore
    obtain ⟨φ₂, ψ₂, -, hc₂⟩ := hc₁.move he hmove
    have hp₁ : m₁.threads[t]? = some (p.bind k) := by
      refine (hbefore.thread_of_others he hc hp (fun h => ?_) hothers).resolve_right fun hended => ?_
      · cases p with
        | done a => exact hne a rfl
        | _ => cases h
      · exact hc₁.not_performed hmove hended _ _ (List.mem_singleton_self _)
    cases hmove with
    | perform hr hstep' =>
      obtain rfl := Option.some.inj (hp₁.symm.trans hr)
      rw [Engine.step_bind e t _ k hne, hstep] at hstep'
      obtain ⟨rfl, rfl⟩ := Prod.mk.inj (Option.some.inj hstep')
      refine .step hbefore hothers hp₁ hstep (ih hc₂ hafter ?_ (fun w hw => ?_) hrest hdone')
      · rw [threads_insert, if_pos rfl]
      · exact hdrop w (List.mem_append_right _ (List.mem_cons_of_mem _ hw))

namespace Course

variable {p : Execution α} {a : α}

/-- Steps of others do not count. -/
theorem deeds_of_others (h : ∀ d ∈ log, d.actor ≠ t) (r : Execution Unit) (w : World)
    (log' : List Deed) :
    Deed.statesOf t (log ++ .performed t r w :: log') = w :: Deed.statesOf t log' ∧
      Deed.started e t (log ++ .performed t r w :: log') =
        Deed.started e t [.performed t r w] ++ Deed.started e t log' := by
  constructor
  · rw [Deed.statesOf_append, Deed.statesOf_of_others h]
    simp [Deed.statesOf]
  · rw [Deed.started_append, Deed.started_of_others fun p w hmem => h _ hmem rfl,
      List.nil_append, ← Deed.started_append]
    rfl

/-- What the thread has done on its course, in states that have all grown out of the first one. -/
theorem performs (he : e.Orderly) (hc : Conducted e log₀ m φ ψ) (h : Course e t k m' m p log a) :
    Performs e t m'.world.view p (Deed.statesOf t log) (Deed.started e t log) a ∧
      m.world.view ≤ m'.world.view ∧ ∀ w ∈ Deed.statesOf t log, m.world.view ≤ w.view := by
  induction h generalizing log₀ φ ψ with
  | done hrun hothers =>
    obtain ⟨-, -, -, hle⟩ := hc.extend he hrun
    rw [Deed.statesOf_of_others hothers, Deed.started_of_others fun p w hmem => hothers _ hmem rfl]
    exact ⟨.refl _, hle, nofun⟩
  | @step m m₁ p q w log log' a hrun hothers hp hstep _ ih =>
    obtain ⟨φ₁, ψ₁, hc₁, hle₁⟩ := hc.extend he hrun
    have hstep' : e.step t m₁.world (p.bind k) = some (q.bind k, w) := by
      rw [Engine.step_bind e t _ k (by rintro a rfl; cases hstep), hstep]
      rfl
    obtain ⟨φ₂, ψ₂, hpass, hc₂⟩ := hc₁.perform he hp hstep'
    have hle₂ : m₁.world.view ≤ w.view := hpass.le hc₁.sound
    obtain ⟨hperforms, hle', hgrown⟩ := ih hc₂
    obtain ⟨hstates, hstarted⟩ := deeds_of_others (e := e) hothers (p.bind k) m₁.world log'
    rw [hstates, hstarted, Deed.started_performed hstep']
    refine ⟨.step hc₁.sound hstep hle' hgrown hperforms,
      View.le_trans hle₁ (View.le_trans hle₂ hle'), fun w' hw' => ?_⟩
    rcases List.mem_cons.1 hw' with rfl | hw'
    · exact hle₁
    · exact View.le_trans hle₁ (View.le_trans hle₂ (hgrown w' hw'))

/-- The run that a course goes along. -/
theorem run (h : Course e t k m' m p log a) : Run e m log m' := by
  induction h with
  | done hrun => exact hrun
  | @step m m₁ p q w log log' a hrun _ hp hstep _ ih =>
    refine hrun.trans ((Run.single (.perform hp ?_)).trans ih)
    rw [Engine.step_bind e t _ k (by rintro a rfl; cases hstep), hstep]
    rfl

/-! ### What happened, by the way an execution is built -/

/-- A part of one step: the step is among moves of others. -/
theorem of_single (h : Course e t k m' m p log a) (hp : ∀ a, p ≠ .done a)
    (hone : ∀ w q w', e.step t w p = some (q, w') → ∃ a, q = .done a) :
    ∃ m₁ log₁ log₂ q w, log = log₁ ++ .performed t q m₁.world :: log₂ ∧
      e.step t m₁.world p = some (.done a, w) ∧ Run e m log₁ m₁ ∧ (∀ d ∈ log₁, d.actor ≠ t) ∧
      Move e m₁ [.performed t q m₁.world] ⟨w, m₁.threads.insert t (k a)⟩ ∧
      Run e ⟨w, m₁.threads.insert t (k a)⟩ log₂ m' ∧ ∀ d ∈ log₂, d.actor ≠ t := by
  cases h with
  | done => exact absurd rfl (hp a)
  | @step _ m₁ _ q w _ _ _ hrun hothers hthread hstep hrest =>
    obtain ⟨a', rfl⟩ := hone _ _ _ hstep
    cases hrest with
    | done hrun' hothers' =>
      refine ⟨m₁, _, _, _, w, rfl, hstep, hrun, hothers, .perform hthread ?_, hrun', hothers'⟩
      rw [Engine.step_bind e t _ k hp, hstep]
      rfl
    | step _ _ _ hstep' => cases hstep'

/-- A composition comes to the end of its first part, then to the end of its second one. -/
theorem of_bind {l : α → Execution β} {k : β → Execution Unit} {b : β}
    (h : Course e t k m' m (p.bind l) log b) :
    ∃ m₁ log₁ log₂ a, log = log₁ ++ log₂ ∧ Course e t (fun a => (l a).bind k) m₁ m p log₁ a ∧
      Course e t k m' m₁ (l a) log₂ b := by
  generalize hq : p.bind l = q at h
  induction h generalizing p with
  | @done m b log hrun hothers =>
    cases p with
    | done a =>
      obtain hq : l a = .done b := hq
      exact ⟨m, [], log, a, rfl, .done .refl nofun, hq ▸ .done hrun hothers⟩
    | _ => cases hq
  | @step m m₁ q q' w log log' b hrun hothers hp hstep hrest ih =>
    by_cases hdone : ∃ a, p = .done a
    · obtain ⟨a, rfl⟩ := hdone
      obtain rfl : l a = q := hq
      exact ⟨m, [], _, a, rfl, .done .refl nofun, .step hrun hothers hp hstep hrest⟩
    · subst hq
      rw [Engine.step_bind e t _ l fun a ha => hdone ⟨a, ha⟩] at hstep
      obtain ⟨⟨p', w'⟩, hp', heq⟩ := Option.map_eq_some_iff.1 hstep
      obtain ⟨rfl, rfl⟩ := Prod.mk.inj heq
      obtain ⟨m₂, log₁, log₂, a, rfl, h₁, h₂⟩ := ih rfl
      rw [Execution.bind_assoc] at hp h₁ ⊢
      exact ⟨m₂, log ++ .performed t _ m₁.world :: log₁, log₂, a, by simp,
        .step hrun hothers hp hp' h₁, h₂⟩

end Course

/-- What a thread has done for the first part of its work, once it has come to the end of it. -/
theorem Run.performs (he : e.Orderly) (hc : Conducted e log₀ m φ ψ) (hrun : Run e m log m')
    {p : Execution α} (hp : m.threads[t]? = some (p.bind k))
    (hdrop : ∀ w, Deed.dropped t w ∉ log) {a : α}
    (hdone : e.replay t p (Deed.statesOf t log) = some (.done a)) :
    Performs e t m'.world.view p (Deed.statesOf t log) (Deed.started e t log) a :=
  ((hrun.course he hc hp hdrop hdone).performs he hc).1

end

/-! ## Executions that never wait -/

/-- In every sound state after `v` that is like `I` an execution can make a step, which leaves the
state like `I`; and so on until it has come to its end. -/
inductive Prompt (e : Engine) (t : TaskId) (I : World → Prop) : View → Execution α → Prop
  | done {v : View} {a : α} : Prompt e t I v (.done a)
  | step {v : View} {p : Execution α} (q : World → Execution α) (f : World → World) :
      (∀ w, v ≤ w.view → w.view.Sound e → I w →
        e.step t w p = some (q w, f w) ∧ w.view ≤ (f w).view ∧ I (f w)) →
      (∀ w, v ≤ w.view → w.view.Sound e → I w → Prompt e t I (f w).view (q w)) →
      Prompt e t I v p

namespace Prompt

variable {I : World → Prop} {v v' : View} {p : Execution α}

theorem mono (h : Prompt e t I v p) (hle : v ≤ v') : Prompt e t I v' p := by
  cases h with
  | done => exact .done
  | step q f hstep hrest =>
    exact .step q f (fun w hw => hstep w (View.le_trans hle hw))
      fun w hw => hrest w (View.le_trans hle hw)

theorem bind (h : Prompt e t I v p) {k : α → Execution β}
    (hk : ∀ v' a, v ≤ v' → Prompt e t I v' (k a)) : Prompt e t I v (p.bind k) := by
  induction h with
  | done => exact hk _ _ (View.le_refl _)
  | @step v p q f hstep _ ih =>
    by_cases hp : ∃ a, p = .done a
    · obtain ⟨a, rfl⟩ := hp
      exact hk v a (View.le_refl v)
    · refine .step (fun w => (q w).bind k) f (fun w hw hs hI => ?_) fun w hw hs hI =>
        ih w hw hs hI fun v' a hle => hk v' a (View.le_trans hw (View.le_trans
          (hstep w hw hs hI).2.1 hle))
      rw [Engine.step_bind e t w k fun a ha => hp ⟨a, ha⟩, (hstep w hw hs hI).1]
      exact ⟨rfl, (hstep w hw hs hI).2⟩

theorem act {f : World → World} {k : World → Execution α}
    (hf : ∀ w, v ≤ w.view → w.view.Sound e → I w → w.view ≤ (f w).view ∧ I (f w))
    (hk : ∀ w, v ≤ w.view → w.view.Sound e → I w → Prompt e t I (f w).view (k w)) :
    Prompt e t I v (.act f k) :=
  .step k f (fun w hw hs hI => ⟨rfl, hf w hw hs hI⟩) hk

theorem atomically {f : World → α × World}
    (hf : ∀ w, w.view.Sound e → I w → w.view ≤ (f w).2.view ∧ I (f w).2) :
    Prompt e t I v (Execution.atomically f) :=
  .act (fun w _ hs hI => hf w hs hI) fun _ _ _ _ => .done

theorem change {f : World → World}
    (hf : ∀ w, w.view.Sound e → I w → w.view ≤ (f w).view ∧ I (f w)) :
    Prompt e t I v (Execution.change f) :=
  .act (fun w _ hs hI => hf w hs hI) fun _ _ _ _ => .done

theorem look {k : World → Execution α}
    (hk : ∀ w, v ≤ w.view → w.view.Sound e → I w → Prompt e t I w.view (k w)) :
    Prompt e t I v (Execution.look.bind k) :=
  .act (fun w _ _ hI => ⟨View.le_refl w.view, hI⟩) hk

/-- A thread that never waits comes to the end of its work alone. -/
theorem run (he : e.Orderly) (h : Prompt e t I v p) {φ : TaskId → Stage} {ψ : TaskId → Stance}
    (hc : Conducted e log m φ ψ) (hle : v ≤ m.world.view) (hI : I m.world)
    {k : α → Execution Unit} (hp : m.threads[t]? = some (p.bind k)) :
    ∃ log' m' a, Run e m log' m' ∧ (∀ d ∈ log', ∃ q w, d = .performed t q w ∧ I w) ∧
      e.replay t p (Deed.statesOf t log') = some (.done a) := by
  induction h generalizing m log φ ψ with
  | @done v a => exact ⟨[], m, a, .refl, nofun, rfl⟩
  | @step v p q f hstep _ ih =>
    by_cases hdone : ∃ a, p = .done a
    · obtain ⟨a, rfl⟩ := hdone
      exact ⟨[], m, a, .refl, nofun, rfl⟩
    · obtain ⟨hfirst, -, hI'⟩ := hstep m.world hle hc.sound hI
      have hmove : Move e m [.performed t (p.bind k) m.world]
          ⟨f m.world, m.threads.insert t ((q m.world).bind k)⟩ := by
        refine .perform hp ?_
        rw [Engine.step_bind e t m.world k fun a ha => hdone ⟨a, ha⟩, hfirst]
        rfl
      obtain ⟨φ', ψ', -, hc'⟩ := hc.move he hmove
      obtain ⟨log', m', a, hrun, hdeeds, hreplay⟩ := ih m.world hle hc.sound hI hc'
        (View.le_refl _) hI' (by rw [threads_insert, if_pos rfl])
      refine ⟨_, m', a, (Run.single hmove).trans hrun, ?_, ?_⟩
      · exact List.forall_mem_cons.2 ⟨⟨_, _, rfl, hI⟩, hdeeds⟩
      · rw [Deed.statesOf_append, Deed.statesOf_performed]
        simp only [List.cons_append, List.nil_append, Engine.replay, hfirst, Option.bind_some]
        exact hreplay

end Prompt

end BlockEngine
