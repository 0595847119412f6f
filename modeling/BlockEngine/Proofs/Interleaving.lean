import BlockEngine.Proofs.View
import BlockEngine.Supervisor

/-!
# Interleavings

Any number of callers ask the supervisor at the same time, and any task may go on at any time. A
step of an execution is atomic; between two steps of one thread all others may step.

* `Call` : what a caller asks of the supervisor;
* `Move` : one move of the whole engine, by anybody who can make one;
* `Run` : moves in any order, with the log of the steps performed and the calls dropped;
* `Engine.replay` : what an execution has come to after steps in some states.
-/

namespace BlockEngine

variable {α β : Type}

/-! ## Calls -/

/-- What a caller asks of the supervisor. -/
inductive Call where
  | create (id name content : String)
  | save (id content : String)
  | delete (id : String)
  | reload (id : String)
  | release (id : String)
  | loadAll (sources : List TabSource)
  | shutdown

/-- What is done for a call, but for its answer. -/
def Call.execution (e : Engine) : Call → Execution Unit
  | .create id name content => do let _ ← (Supervisor.create id name content).run
  | .save id content => do let _ ← (Supervisor.save e id content).run
  | .delete id => do let _ ← (Supervisor.delete e id).run
  | .reload id => do let _ ← (Supervisor.reload e id).run
  | .release id => do let _ ← (Supervisor.release id).run
  | .loadAll sources => do let _ ← Supervisor.loadAll e sources
  | .shutdown => Supervisor.shutdown

/-! ## Moves -/

/-- What a log keeps of a move. -/
inductive Deed where
  /-- A thread performed the first step of what it had to do in a state. -/
  | performed (t : TaskId) (p : Execution Unit) (w : World)
  /-- A caller dropped its call in a state. -/
  | dropped (t : TaskId) (w : World)

/-- Whether a deed is the end of a call before its time. -/
def Deed.isDrop : Deed → Bool
  | .performed .. => false
  | .dropped .. => true

/-- The states in which a task performed its steps, in order. -/
def Deed.statesOf (t : TaskId) (log : List Deed) : List World :=
  log.filterMap fun
    | .performed u _ w => if u = t then some w else none
    | .dropped .. => none

namespace World

/-- A task that works on a job and has not ended. -/
def IsLive (w : World) (t : TaskId) (j : Job) : Prop :=
  ∃ r, w.task? t = some r ∧ r.job = some j ∧ r.ended = false

/-- A task that stands for a caller of the supervisor. -/
def IsCaller (w : World) (t : TaskId) : Prop := ∃ r, w.task? t = some r ∧ r.job = none

/-- One more caller. -/
def newCaller (w : World) : World :=
  { w with
    taskCount := w.taskCount + 1
    tasks := w.tasks.insert w.taskCount ⟨none, false, false, false, []⟩ }

/-- Nothing but the schedule differs: queues, timers, registrations and the clock. -/
structure Rescheduled (w w' : World) : Prop where
  view : w'.view = w.view
  vars : w'.vars = w.vars
  notifications : w'.notifications = w.notifications
  journal : w'.journal = w.journal
  subscriptionNames : w'.subscriptionNames = w.subscriptionNames
  clock : w.clock ≤ w'.clock

end World

/-- One move of the engine, with its log. -/
inductive Move (e : Engine) (m : Machine) : List Deed → Machine → Prop
  /-- A thread performs a step. -/
  | perform {t : TaskId} {p q : Execution Unit} {w : World} :
      m.threads[t]? = some p → e.step t m.world p = some (q, w) →
      Move e m [.performed t p m.world] ⟨w, m.threads.insert t q⟩
  /-- A task begins its work. -/
  | begin {t : TaskId} {j : Job} :
      m.world.IsLive t j → m.threads[t]? = none →
      Move e m [] ⟨m.world, m.threads.insert t (e.work j)⟩
  /-- A task has done its work and ends. -/
  | finish {t : TaskId} {j : Job} :
      m.world.IsLive t j → m.threads[t]? = some (.done ()) →
      Move e m [] ⟨m.world.finish t, m.threads.erase t⟩
  /-- A cancelled task goes away from its work. -/
  | leave {t : TaskId} {j : Job} {p : Execution Unit} :
      m.world.IsLive t j → Machine.isCancelled m.world t = true → m.threads[t]? = some p →
      Move e m [] ⟨Machine.leave m.world t p, m.threads.erase t⟩
  /-- A cancelled task ends before its work has begun. -/
  | leaveEarly {t : TaskId} {j : Job} :
      m.world.IsLive t j → Machine.isCancelled m.world t = true → m.threads[t]? = none →
      Move e m [] ⟨m.world.finish t, m.threads⟩
  /-- Time passes and tasks are queued. -/
  | reschedule {w : World} : m.world.Rescheduled w → Move e m [] ⟨w, m.threads⟩
  /-- A caller appears. -/
  | appear : Move e m [] ⟨m.world.newCaller, m.threads⟩
  /-- A caller that has no call yet makes one. -/
  | call {t : TaskId} (c : Call) :
      m.world.IsCaller t → m.threads[t]? = none →
      Move e m [] ⟨m.world, m.threads.insert t (c.execution e)⟩
  /-- A call returns. -/
  | return {t : TaskId} :
      m.world.IsCaller t → m.threads[t]? = some (.done ()) →
      Move e m [] ⟨m.world, m.threads.erase t⟩
  /-- A caller drops its call. -/
  | drop {t : TaskId} {p : Execution Unit} :
      m.world.IsCaller t → m.threads[t]? = some p →
      Move e m [.dropped t m.world] ⟨Machine.forsake m.world t p, m.threads.erase t⟩

/-- Moves one after the other, with their log. -/
inductive Run (e : Engine) (m : Machine) : List Deed → Machine → Prop
  | refl : Run e m [] m
  | move {log ds : List Deed} {m' m'' : Machine} :
      Run e m log m' → Move e m' ds m'' → Run e m (log ++ ds) m''

variable {e : Engine} {m m' m'' : Machine} {log log' : List Deed} {t : TaskId}

theorem Run.trans (h : Run e m log m') (h' : Run e m' log' m'') : Run e m (log ++ log') m'' := by
  induction h' with
  | refl => rwa [List.append_nil]
  | move _ hm ih => rw [← List.append_assoc]; exact ih.move hm

theorem Run.single {ds : List Deed} (h : Move e m ds m') : Run e m ds m' := by
  simpa using Run.refl.move h

/-- A move has at most one deed. -/
theorem Move.deeds {ds : List Deed} (h : Move e m ds m') : ds = [] ∨ ∃ d, ds = [d] := by
  cases h with
  | perform | drop => exact .inr ⟨_, rfl⟩
  | _ => exact .inl rfl

/-- A run goes through the move that any deed of its log stands for. -/
theorem Run.split {d : Deed} (h : Run e m (log ++ d :: log') m') :
    ∃ m₁ m₂, Run e m log m₁ ∧ Move e m₁ [d] m₂ ∧ Run e m₂ log' m' := by
  generalize hlog : log ++ d :: log' = log₀ at h
  induction h generalizing log' with
  | refl => exact absurd hlog (by simp)
  | @move log₁ ds m₁ m₂ hrun hmove ih =>
    rcases hmove.deeds with rfl | ⟨d', rfl⟩
    · rw [List.append_nil] at hlog
      obtain ⟨m₃, m₄, hbefore, hd, hafter⟩ := ih hlog
      exact ⟨m₃, m₄, hbefore, hd, by simpa using hafter.move hmove⟩
    · rcases List.eq_nil_or_concat log' with rfl | ⟨log₂, d₂, rfl⟩
      · obtain ⟨rfl, hd⟩ := List.append_inj' hlog rfl
        obtain rfl := (List.cons.inj hd).1
        exact ⟨m₁, m₂, hrun, hmove, .refl⟩
      · rw [List.concat_eq_append, ← List.cons_append, ← List.append_assoc] at hlog
        obtain ⟨hlog₁, hd⟩ := List.append_inj' hlog rfl
        obtain rfl := (List.cons.inj hd).1
        obtain ⟨m₃, m₄, hbefore, hd, hafter⟩ := ih hlog₁
        rw [List.concat_eq_append]
        exact ⟨m₃, m₄, hbefore, hd, hafter.move hmove⟩

/-- A run can be cut where its log is cut. -/
theorem Run.cut (h : Run e m (log ++ log') m') : ∃ m₁, Run e m log m₁ ∧ Run e m₁ log' m' := by
  cases log' with
  | nil => exact ⟨m', by simpa using h, .refl⟩
  | cons d log' =>
    obtain ⟨m₁, m₂, hbefore, hmove, hafter⟩ := h.split
    exact ⟨m₁, hbefore, (Run.single hmove).trans hafter⟩

/-- Who performs a step has it to do. -/
theorem Move.thread {p : Execution Unit} {w : World} (h : Move e m [.performed t p w] m') :
    m.threads[t]? = some p := by
  generalize hds : [Deed.performed t p w] = ds at h
  cases h with
  | perform hp => cases hds; exact hp
  | _ => cases hds

/-- Where a step was performed in a run. -/
theorem Run.at_deed {p : Execution Unit} {w : World}
    (hrun : Run e m (log ++ .performed t p w :: log') m') :
    ∃ m₁ m₂ q, w = m₁.world ∧ e.step t w p = some (q, m₂.world) ∧ Run e m log m₁ ∧
      Move e m₁ [.performed t p w] m₂ ∧ Run e m₂ log' m' := by
  obtain ⟨m₁, m₂, hbefore, hmove, hrest⟩ := hrun.split
  generalize hds : [Deed.performed t p w] = ds at hmove
  have hmove' := hmove
  cases hmove with
  | perform hp hstep =>
    cases hds
    exact ⟨_, _, _, rfl, hstep, hbefore, hmove', hrest⟩
  | _ => cases hds

/-! ## Steps of a composition -/

namespace Engine

theorem afterTurn_bind (g : Except EngineError Signal → Execution α) (k : α → Execution β)
    (x : Except EngineError Turned) :
    (afterTurn g x).bind k = afterTurn (fun s => (g s).bind k) x := by
  cases x with
  | ok y => cases y <;> rfl
  | error err => rfl

theorem step_bind (e : Engine) (t : TaskId) (w : World) {p : Execution α} (k : α → Execution β)
    (hp : ∀ a, p ≠ .done a) :
    e.step t w (p.bind k) = (e.step t w p).map fun r => (r.1.bind k, r.2) := by
  cases p with
  | done a => exact absurd rfl (hp a)
  | act f g => rfl
  | pause q g =>
    simp only [Execution.bind, step, Option.map_map]
    rfl
  | signal l v g =>
    simp only [Execution.bind, step, Option.map_some, Execution.bind_assoc]
  | evaluate s g =>
    simp only [Execution.bind, step, Option.map_some, Execution.bind_assoc]
  | run r g =>
    simp only [Execution.bind, step, Option.map_some, Execution.bind_assoc, afterTurn_bind]

/-- What an execution of the task `t` has come to after steps in some states. -/
def replay (e : Engine) (t : TaskId) : Execution α → List World → Option (Execution α)
  | p, [] => some p
  | p, w :: ws => (e.step t w p).bind fun r => e.replay t r.1 ws

theorem replay_append (p : Execution α) (ws ws' : List World) :
    e.replay t p (ws ++ ws') = (e.replay t p ws).bind fun q => e.replay t q ws' := by
  induction ws generalizing p with
  | nil => rfl
  | cons w ws ih =>
    simp only [List.cons_append, replay, ih, Option.bind_assoc]

/-- What is done has come to what it was, before any step. -/
theorem replay_done_iff {a b : α} {ws : List World} :
    e.replay t (.done a) ws = some (.done b) ↔ ws = [] ∧ a = b := by
  cases ws with
  | nil => exact ⟨fun h => ⟨rfl, Execution.done.inj (Option.some.inj h)⟩, fun h => by rw [h.2]; rfl⟩
  | cons w ws => exact ⟨nofun, fun h => nomatch h.1⟩

/-- A composition is done when its first part is and then what follows its answer is. -/
theorem replay_bind_iff {p : Execution α} {k : α → Execution β} {ws : List World} {b : β} :
    e.replay t (p.bind k) ws = some (.done b) ↔
      ∃ ws₁ ws₂ a, ws = ws₁ ++ ws₂ ∧ e.replay t p ws₁ = some (.done a) ∧
        e.replay t (k a) ws₂ = some (.done b) := by
  constructor
  · intro h
    induction ws generalizing p with
    | nil =>
      cases p with
      | done a => exact ⟨[], [], a, rfl, rfl, h⟩
      | _ => cases h
    | cons w ws ih =>
      by_cases hp : ∃ a, p = .done a
      · obtain ⟨a, rfl⟩ := hp
        exact ⟨[], w :: ws, a, rfl, rfl, h⟩
      · obtain ⟨⟨q, w₁⟩, hstep, hrest⟩ := Option.bind_eq_some_iff.1 h
        rw [step_bind e t w k fun a ha => hp ⟨a, ha⟩] at hstep
        obtain ⟨⟨p', w'⟩, hp', heq⟩ := Option.map_eq_some_iff.1 hstep
        obtain ⟨rfl, rfl⟩ := Prod.mk.inj heq
        obtain ⟨ws₁, ws₂, a, rfl, hfirst, hsecond⟩ := ih hrest
        exact ⟨w :: ws₁, ws₂, a, rfl, Option.bind_eq_some_iff.2 ⟨_, hp', hfirst⟩, hsecond⟩
  · rintro ⟨ws₁, ws₂, a, rfl, hfirst, hsecond⟩
    induction ws₁ generalizing p with
    | nil =>
      obtain rfl := Option.some.inj hfirst
      exact hsecond
    | cons w ws₁ ih =>
      obtain ⟨⟨p', w'⟩, hp', hrest⟩ := Option.bind_eq_some_iff.1 hfirst
      have hnot : ∀ a, p ≠ .done a := by
        rintro a rfl
        cases hp'
      refine Option.bind_eq_some_iff.2 ⟨(p'.bind k, w'), ?_, ih hrest⟩
      rw [step_bind e t w k hnot, hp']
      rfl

end Engine
end BlockEngine
