import BlockEngine.Proofs.Following
import BlockEngine.Proofs.Rules

/-!
# Tasks in the order of the queue

On one thread a task goes on until it has to wait or has ended; then the first task of the queue has
its turn. Whoever is woken or started gets to the end of the queue.

* `World.Enqueues` : a change that puts tasks at the end of the queue and leaves the others there;
  one lemma for each operation;
* `Worker` : the machine and the task whose turn it is; `Worker.Step`, `Worker.Runs` : what one
  thread does;
* `Worker.Runs.run` : it is a run of the engine; `Worker.Runs.of_resume`, `Worker.Runs.of_tick` :
  the turns of the machine are such runs;
* `Worker.Kept` : tasks that have not begun are in the queue; `Worker.Runs.kept`;
* `Engine.Straight` : an execution that never waits, with a rule for its steps;
* `Worker.Place` : where a task that never waits stands; `Worker.Place.of_run` : it keeps its place,
  so `Worker.Runs.overtakes_nobody` : no later task performs a step before it has ended.
-/

namespace BlockEngine

variable {α β : Type} {e : Engine} {t u h : TaskId} {log log' ds : List Deed} {m m' : Machine}
  {w w' w'' : World}

/-! ## The queue -/

/-- Tasks that are there were put at the end of the queue, and nobody else was. Tasks keep their
jobs, and none has ended but those in `x`. New ones have the next numbers, and are in the queue
unless they are callers. -/
structure World.Enqueues (x : TaskId → Prop) (w w' : World) : Prop where
  ready : ∃ added, w'.ready = w.ready ++ added ∧ ∀ u ∈ added, (w'.task? u).isSome
  task : ∀ u r, w.task? u = some r →
    ∃ r', w'.task? u = some r' ∧ r'.job = r.job ∧ (r'.ended = r.ended ∨ x u ∧ r'.ended = true)
  count : w.taskCount ≤ w'.taskCount
  new : ∀ u r', w'.task? u = some r' →
    (w.task? u).isSome ∨ u < w'.taskCount ∧ (r'.job ≠ none → u ∈ w'.ready)

namespace World.Enqueues

variable {x : TaskId → Prop}

/-- Neither the queue nor the tasks differ. -/
theorem same (hready : w'.ready = w.ready) (htasks : w'.tasks = w.tasks)
    (hcount : w'.taskCount = w.taskCount) : w.Enqueues x w' where
  ready := ⟨[], hready.trans (List.append_nil _).symm, nofun⟩
  task u r hr := ⟨r, by unfold task? at *; rwa [htasks], rfl, .inl rfl⟩
  count := Nat.le_of_eq hcount.symm
  new u r' hr' := .inl (Option.isSome_of_eq_some (by unfold task? at *; rwa [← htasks]))

theorem refl (w : World) : w.Enqueues x w := same rfl rfl rfl

theorem isSome (h : w.Enqueues x w') (hu : (w.task? u).isSome) : (w'.task? u).isSome := by
  obtain ⟨r, hr⟩ := Option.isSome_iff_exists.1 hu
  obtain ⟨r', hr', -⟩ := h.task u r hr
  exact Option.isSome_of_eq_some hr'

/-- Who is in the queue stays there. -/
theorem mem_ready (h : w.Enqueues x w') (hu : u ∈ w.ready) : u ∈ w'.ready := by
  obtain ⟨added, hadded, -⟩ := h.ready
  exact hadded ▸ List.mem_append_left _ hu

theorem trans (h : w.Enqueues x w') (h' : w'.Enqueues x w'') : w.Enqueues x w'' where
  ready := by
    obtain ⟨us, hus, hknown⟩ := h.ready
    obtain ⟨us', hus', hknown'⟩ := h'.ready
    refine ⟨us ++ us', by rw [hus', hus, List.append_assoc], fun u hu => ?_⟩
    exact (List.mem_append.1 hu).elim (fun hu => h'.isSome (hknown u hu)) (hknown' u)
  task u r hr := by
    obtain ⟨r', hr', hj, hend⟩ := h.task u r hr
    obtain ⟨r'', hr'', hj', hend'⟩ := h'.task u r' hr'
    refine ⟨r'', hr'', hj'.trans hj, ?_⟩
    rcases hend' with hsame | hover
    · rw [hsame]
      exact hend
    · exact .inr hover
  count := Nat.le_trans h.count h'.count
  new u r'' hr'' := by
    rcases h'.new u r'' hr'' with hold | hnew
    · obtain ⟨r', hr'⟩ := Option.isSome_iff_exists.1 hold
      obtain ⟨r₁, hr₁, hj, -⟩ := h'.task u r' hr'
      obtain rfl := Option.some.inj (hr''.symm.trans hr₁)
      refine (h.new u r' hr').imp_right fun ⟨hlt, hready⟩ => ?_
      exact ⟨Nat.lt_of_lt_of_le hlt h'.count, fun hne => h'.mem_ready (hready (hj ▸ hne))⟩
    · exact .inr hnew

theorem mono (h : w.Enqueues x w') {y : TaskId → Prop} (hxy : ∀ u, x u → y u) :
    w.Enqueues y w' :=
  { h with
    task := fun u r hr => by
      obtain ⟨r', hr', hj, hend⟩ := h.task u r hr
      exact ⟨r', hr', hj, hend.imp_right (.imp_left (hxy u))⟩ }

/-- The tasks have numbers below the count, as before. -/
theorem numbered (h : w.Enqueues x w') (hw : w.view.TasksNumbered) : w'.view.TasksNumbered := by
  intro u s hs
  obtain ⟨r', hr', -⟩ := Option.map_eq_some_iff.1 hs
  rcases h.new u r' hr' with hold | ⟨hlt, -⟩
  · obtain ⟨r, hr⟩ := Option.isSome_iff_exists.1 hold
    have hlt : u < w.taskCount := hw u r.standing (by rw [World.view_tasks, hr]; rfl)
    exact Nat.lt_of_lt_of_le hlt h.count
  · exact hlt

/-- A task that lives was there before, or is in the queue. -/
theorem live_or_ready (h : w.Enqueues x w') {j : Job} (hlive : w'.IsLive u j) :
    w.IsLive u j ∨ u ∈ w'.ready := by
  obtain ⟨r', hr', hj, hend⟩ := hlive
  refine (h.new u r' hr').imp (fun hold => ?_) fun hnew => hnew.2 (by rw [hj]; exact nofun)
  obtain ⟨r, hr⟩ := Option.isSome_iff_exists.1 hold
  obtain ⟨r₁, hr₁, hjob, hover⟩ := h.task u r hr
  obtain rfl := Option.some.inj (hr'.symm.trans hr₁)
  refine ⟨r, hr, hjob.symm.trans hj, ?_⟩
  rcases hover with hsame | ⟨-, hover⟩
  · exact hsame.symm.trans hend
  · exact absurd (hend.symm.trans hover) nofun

/-! ### One lemma for each operation -/

theorem ready_modifyTask (w : World) (t : TaskId) (f : TaskRecord → TaskRecord) :
    (w.modifyTask t f).ready = w.ready ∧ (w.modifyTask t f).taskCount = w.taskCount := by
  unfold World.modifyTask
  split <;> exact ⟨rfl, rfl⟩

theorem modifyTask (w : World) (t : TaskId) {f : TaskRecord → TaskRecord}
    (hf : ∀ r, (f r).job = r.job ∧ ((f r).ended = r.ended ∨ x t ∧ (f r).ended = true)) :
    w.Enqueues x (w.modifyTask t f) := by
  have htask := World.task?_modifyTask w t
  obtain ⟨hready, hcount⟩ := ready_modifyTask w t f
  refine ⟨⟨[], hready.trans (List.append_nil _).symm, nofun⟩, fun u r hr => ?_,
    Nat.le_of_eq hcount.symm, fun u r' hr' => .inl ?_⟩
  · rw [htask]
    by_cases hu : u = t
    · subst hu
      rw [if_pos rfl, hr]
      exact ⟨f r, rfl, hf r⟩
    · rw [if_neg hu]
      exact ⟨r, hr, rfl, .inl rfl⟩
  · rw [htask] at hr'
    split at hr'
    · next hut =>
      obtain ⟨r, hr, -⟩ := Option.map_eq_some_iff.1 hr'
      exact hut ▸ Option.isSome_of_eq_some hr
    · exact Option.isSome_of_eq_some hr'

theorem modifyGeneration (w : World) (n : Nat) (f : GenerationState → GenerationState) :
    w.Enqueues x (w.modifyGeneration n f) := by
  unfold World.modifyGeneration
  split <;> exact same rfl rfl rfl

theorem wake (w : World) (t : TaskId) : w.Enqueues x (w.wake t) := by
  unfold World.wake
  cases hr : w.task? t with
  | none => exact refl w
  | some r =>
    simp only
    split
    · exact refl w
    · have hmod := modifyTask (x := x) w t (f := fun r => { r with queued := true })
        fun _ => ⟨rfl, .inl rfl⟩
      refine ⟨⟨[t], rfl, fun u hu => ?_⟩, hmod.task, hmod.count, fun u r' hr' => ?_⟩
      · rw [List.mem_singleton.1 hu]
        exact hmod.isSome (Option.isSome_of_eq_some hr)
      · exact (hmod.new u r' hr').imp_right (.imp_right fun hready hne =>
          List.mem_append_left _ ((ready_modifyTask w t _).1 ▸ hready hne))

/-- A new task has the next number, and is the last of the queue. -/
theorem newTask (hw : w.view.TasksNumbered) (j : Job) : w.Enqueues x (w.newTask j).2 := by
  have htask : ∀ u, (w.newTask j).2.task? u =
      if w.taskCount = u then some ⟨some j, true, false, false, []⟩ else w.task? u := fun u => by
    simp [World.newTask, task?, Std.ExtTreeMap.getElem?_insert]
  refine ⟨⟨[w.taskCount], rfl, fun u hu => ?_⟩, fun u r hr => ⟨r, ?_, rfl, .inl rfl⟩,
    Nat.le_succ _, fun u r' hr' => ?_⟩
  · rw [List.mem_singleton.1 hu, htask, if_pos rfl]
    rfl
  · have hlt : u < w.taskCount := hw u r.standing (by rw [World.view_tasks, hr]; rfl)
    rw [htask, if_neg (Nat.ne_of_gt hlt)]
    exact hr
  · rw [htask] at hr'
    split at hr'
    · next heq =>
      exact .inr ⟨heq ▸ Nat.lt_succ_self _, fun _ =>
        heq ▸ List.mem_append_right _ List.mem_cons_self⟩
    · exact .inl (Option.isSome_of_eq_some hr')

/-- To take back registrations changes nothing. -/
theorem unregister (w : World) (t : TaskId) (p : Pause) : w.Enqueues x (w.unregister t p) := by
  have hobservers : ∀ (us : List TaskId) (w : World),
      w.Enqueues x (us.foldl (fun w u => w.modifyTask u fun r =>
        { r with observers := r.observers.filter (· ≠ t) }) w) := by
    intro us
    induction us with
    | nil => exact refl
    | cons u us ih =>
      intro w
      have hfirst : w.Enqueues x (w.modifyTask u fun r =>
          { r with observers := r.observers.filter (· ≠ t) }) :=
        modifyTask w u fun _ => ⟨rfl, .inl rfl⟩
      exact hfirst.trans (ih _)
  exact (hobservers p.observed w).trans (same rfl rfl rfl)

theorem settle (w : World) (t : TaskId) (p : Pause) : w.Enqueues x (w.settle t p) := by
  refine (unregister w t p).trans ?_
  cases p <;> exact same rfl rfl rfl

theorem await (w : World) (t : TaskId) (p : Pause) : w.Enqueues x (w.await t p) := by
  have hobservers : ∀ (us : List TaskId) (w : World),
      w.Enqueues x (us.foldl (fun w u => w.modifyTask u fun r =>
        if r.ended || r.observers.contains t then r
        else { r with observers := r.observers ++ [t] }) w) := by
    intro us
    induction us with
    | nil => exact refl
    | cons u us ih =>
      refine fun w => (modifyTask w u fun r => ?_).trans (ih _)
      split <;> exact ⟨rfl, .inl rfl⟩
  have htimer : ∀ (w : World) (d : Nat), w.Enqueues x
      (if w.timers.any fun x => x.task = t && !x.outer then w
        else { w with timers := w.timers ++ [⟨d, t, false⟩] }) := by
    intro w d
    split <;> exact same rfl rfl rfl
  have hmail : ∀ (w : World) (m : MailboxId), w.Enqueues x
      (if (w.readers.lookup m).isSome then w else { w with readers := w.readers ++ [(m, t)] }) := by
    intro w m
    split <;> exact same rfl rfl rfl
  unfold World.await
  refine (hobservers p.observed w).trans ?_
  cases p with
  | time d => exact htimer _ d
  | mail m d =>
    cases d with
    | none => exact hmail _ m
    | some d => exact (hmail _ m).trans (htimer _ d)
  | ended u => exact refl _
  | allEnded us d => exact htimer _ d
  | turn =>
    simp only [Pause.deadline?]
    split <;> exact same rfl rfl rfl

theorem wakeAll (w : World) (ts : List TaskId) : w.Enqueues x (w.wakeAll ts) := by
  unfold World.wakeAll
  induction ts generalizing w with
  | nil => exact refl w
  | cons t ts ih => exact (wake w t).trans (ih _)

theorem yieldTurn (w : World) (t : TaskId) : w.Enqueues x (w.yieldTurn t) := by
  unfold World.yieldTurn World.passTurn
  split
  · split
    · exact same rfl rfl rfl
    · next v rest _ =>
      have hturn : w.Enqueues x { w with turn := ⟨some v, rest⟩ } := same rfl rfl rfl
      exact hturn.trans (wake _ v)
  · exact refl w

theorem forsake (w : World) (t : TaskId) (p : Execution α) :
    w.Enqueues x (Machine.forsake w t p) := by
  cases p with
  | pause q k =>
    refine (unregister w t q).trans (.trans ?_ (yieldTurn _ t))
    cases q <;> exact same rfl rfl rfl
  | _ => exact yieldTurn w t

/-- A task ends, and no other one. -/
theorem finish (w : World) (t : TaskId) : w.Enqueues (· = t) (w.finish t) := by
  have hend : ∀ w : World, w.Enqueues (· = t)
      (w.modifyTask t fun r => { r with ended := true, observers := [] }) := fun w =>
    modifyTask w t fun _ => ⟨rfl, .inr ⟨rfl, rfl⟩⟩
  exact (yieldTurn w t).trans ((hend _).trans (wakeAll _ _))

theorem leave (w : World) (t : TaskId) (p : Execution Unit) :
    w.Enqueues (· = t) (Machine.leave w t p) := (forsake w t p).trans (finish _ t)

/-- A caller that appears is not in the queue. -/
theorem newCaller (hw : w.view.TasksNumbered) : w.Enqueues x w.newCaller := by
  have htask : ∀ u, w.newCaller.task? u =
      if w.taskCount = u then some ⟨none, false, false, false, []⟩ else w.task? u := fun u => by
    simp [World.newCaller, task?, Std.ExtTreeMap.getElem?_insert]
  refine ⟨⟨[], (List.append_nil _).symm, fun _ hu => absurd hu List.not_mem_nil⟩, fun u r hr => ⟨r, ?_, rfl, .inl rfl⟩,
    Nat.le_succ _, fun u r' hr' => ?_⟩
  · have hlt : u < w.taskCount := hw u r.standing (by rw [World.view_tasks, hr]; rfl)
    rw [htask, if_neg (Nat.ne_of_gt hlt)]
    exact hr
  · rw [htask] at hr'
    split at hr'
    · next heq =>
      exact .inr ⟨heq ▸ Nat.lt_succ_self _, fun hne => absurd (Option.some.inj hr' ▸ rfl) hne⟩
    · exact .inl (Option.isSome_of_eq_some hr')

end World.Enqueues

/-- Where tasks have numbers below the count, a change puts tasks at the end of the queue and ends
none. -/
def World.Lined (w w' : World) : Prop := w.view.TasksNumbered → w.Enqueues (fun _ => False) w'

/-- Blocks and callers are given the queue for nothing else. -/
instance : CallerRule World.Lined where
  refl w _ := .refl w
  trans h h' hw := (h hw).trans (h' ((h hw).numbered hw))
  fresh _ _ := .same rfl rfl rfl
  modifyGeneration w n f _ := .modifyGeneration w n f
  newTask _ j hw := .newTask hw j
  withLocks _ _ _ := .same rfl rfl rfl
  wake w t _ := .wake w t
  modifyTask w t _ hf _ := .modifyTask w t fun r => ⟨(hf r).1, .inl (hf r).2⟩
  vars _ _ _ := .same rfl rfl rfl
  notifications _ _ _ := .same rfl rfl rfl
  note _ _ _ _ := .same rfl rfl rfl
  settle w t p _ := .settle w t p
  newGeneration _ _ _ _ _ := .same rfl rfl rfl
  tabs _ _ _ := .same rfl rfl rfl
  turn _ _ _ := .same rfl rfl rfl

/-! ## One thread -/

/-- The first task is taken out of the queue. -/
def World.dequeue (w : World) (t : TaskId) (rest : List TaskId) : World :=
  { w with ready := rest }.modifyTask t fun r => { r with queued := false }

/-- The machine, and the task whose turn it is. -/
structure Worker where
  machine : Machine
  current : Option TaskId

/-- What one thread does next: a task whose turn it is goes on; when it waits or has ended, the
first task of the queue has its turn. Callers may have theirs at any time in between, and so may
come and go; at any time tasks may be woken. -/
inductive Worker.Step (e : Engine) : Worker → List Deed → Worker → Prop
  -- Whose turn it is.
  | take {m : Machine} {t : TaskId} {rest : List TaskId} :
      m.world.ready = t :: rest →
      Step e ⟨m, none⟩ [] ⟨⟨m.world.dequeue t rest, m.threads⟩, some t⟩
  | attend {m : Machine} {t : TaskId} : m.world.IsCaller t → Step e ⟨m, none⟩ [] ⟨m, some t⟩
  -- What it does in its turn.
  | begin {m : Machine} {t : TaskId} {j : Job} :
      m.world.IsLive t j → Machine.isCancelled m.world t = false → m.threads[t]? = none →
      Step e ⟨m, some t⟩ [] ⟨⟨m.world, m.threads.insert t (e.work j)⟩, some t⟩
  | call {m : Machine} {t : TaskId} (c : Call) :
      m.world.IsCaller t → m.threads[t]? = none →
      Step e ⟨m, some t⟩ [] ⟨⟨m.world, m.threads.insert t (c.execution e)⟩, some t⟩
  | perform {m : Machine} {t : TaskId} {p q : Execution Unit} {w : World} :
      m.threads[t]? = some p → e.step t m.world p = some (q, w) →
      Step e ⟨m, some t⟩ [.performed t p m.world] ⟨⟨w, m.threads.insert t q⟩, some t⟩
  | return {m : Machine} {t : TaskId} :
      m.world.IsCaller t → m.threads[t]? = some (.done ()) →
      Step e ⟨m, some t⟩ [] ⟨⟨m.world, m.threads.erase t⟩, some t⟩
  -- How its turn ends.
  | finish {m : Machine} {t : TaskId} {j : Job} :
      m.world.IsLive t j → m.threads[t]? = some (.done ()) →
      Step e ⟨m, some t⟩ [] ⟨⟨m.world.finish t, m.threads.erase t⟩, none⟩
  | leave {m : Machine} {t : TaskId} {j : Job} {p : Execution Unit} :
      m.world.IsLive t j → Machine.isCancelled m.world t = true → m.threads[t]? = some p →
      Step e ⟨m, some t⟩ [] ⟨⟨Machine.leave m.world t p, m.threads.erase t⟩, none⟩
  | leaveEarly {m : Machine} {t : TaskId} {j : Job} :
      m.world.IsLive t j → Machine.isCancelled m.world t = true → m.threads[t]? = none →
      Step e ⟨m, some t⟩ [] ⟨⟨m.world.finish t, m.threads⟩, none⟩
  | await {m : Machine} {t : TaskId} {p : Pause} {k : p.Reply → Execution Unit} :
      m.threads[t]? = some (.pause p k) →
      Step e ⟨m, some t⟩ [] ⟨⟨m.world.await t p, m.threads⟩, none⟩
  | rest {m : Machine} {t : TaskId} :
      (m.world.isEnded t = true ∨ m.world.IsCaller t ∧ m.threads[t]? = none) →
      Step e ⟨m, some t⟩ [] ⟨m, none⟩
  -- What happens around it.
  | appear {m : Machine} {current : Option TaskId} :
      Step e ⟨m, current⟩ [] ⟨⟨m.world.newCaller, m.threads⟩, current⟩
  | drop {m : Machine} {t : TaskId} {p : Execution Unit} :
      m.world.IsCaller t → m.threads[t]? = some p →
      Step e ⟨m, none⟩ [.dropped t m.world] ⟨⟨Machine.forsake m.world t p, m.threads.erase t⟩, none⟩
  | wake {m : Machine} {current : Option TaskId} {w : World} :
      m.world.Rescheduled w → m.world.Enqueues (fun _ => False) w →
      Step e ⟨m, current⟩ [] ⟨⟨w, m.threads⟩, current⟩

/-- Steps of one thread, one after the other, with their log. -/
inductive Worker.Runs (e : Engine) (c : Worker) : List Deed → Worker → Prop
  | refl : Runs e c [] c
  | step {log ds : List Deed} {c' c'' : Worker} :
      Runs e c log c' → Step e c' ds c'' → Runs e c (log ++ ds) c''

variable {c c' c'' : Worker}

namespace Worker

theorem Runs.trans (hrun : Runs e c log c') (hrun' : Runs e c' log' c'') :
    Runs e c (log ++ log') c'' := by
  induction hrun' with
  | refl => rwa [List.append_nil]
  | step _ hstep ih => rw [← List.append_assoc]; exact ih.step hstep

theorem Runs.single (hstep : Step e c ds c') : Runs e c ds c' := by
  simpa using Runs.refl.step hstep

/-- A step has at most one deed. -/
theorem Step.deeds (hstep : Step e c ds c') : ds = [] ∨ ∃ d, ds = [d] := by
  cases hstep with
  | perform | drop => exact .inr ⟨_, rfl⟩
  | _ => exact .inl rfl

/-- A run goes through the step that any deed of its log stands for. -/
theorem Runs.split {d : Deed} (hrun : Runs e c (log ++ d :: log') c') :
    ∃ c₁ c₂, Runs e c log c₁ ∧ Step e c₁ [d] c₂ ∧ Runs e c₂ log' c' := by
  generalize hlog : log ++ d :: log' = log₀ at hrun
  induction hrun generalizing log' with
  | refl => exact absurd hlog (by simp)
  | @step log₁ ds c₁ c₂ hrun hstep ih =>
    rcases hstep.deeds with rfl | ⟨d', rfl⟩
    · rw [List.append_nil] at hlog
      obtain ⟨c₃, c₄, hbefore, hd, hafter⟩ := ih hlog
      exact ⟨c₃, c₄, hbefore, hd, by simpa using hafter.step hstep⟩
    · rcases List.eq_nil_or_concat log' with rfl | ⟨log₂, d₂, rfl⟩
      · obtain ⟨rfl, hd⟩ := List.append_inj' hlog rfl
        obtain rfl := (List.cons.inj hd).1
        exact ⟨c₁, c₂, hrun, hstep, .refl⟩
      · rw [List.concat_eq_append, ← List.cons_append, ← List.append_assoc] at hlog
        obtain ⟨hlog₁, hd⟩ := List.append_inj' hlog rfl
        obtain rfl := (List.cons.inj hd).1
        obtain ⟨c₃, c₄, hbefore, hd, hafter⟩ := ih hlog₁
        rw [List.concat_eq_append]
        exact ⟨c₃, c₄, hbefore, hd, hafter.step hstep⟩

/-- A run can be cut where its log is cut. -/
theorem Runs.cut (hrun : Runs e c (log ++ log') c') :
    ∃ c₁, Runs e c log c₁ ∧ Runs e c₁ log' c' := by
  cases log' with
  | nil => exact ⟨c', by simpa using hrun, .refl⟩
  | cons d log' =>
    obtain ⟨c₁, c₂, hbefore, hstep, hafter⟩ := hrun.split
    exact ⟨c₁, hbefore, (Runs.single hstep).trans hafter⟩

end Worker

/-! ## Runs of one thread are runs -/

namespace World.Rescheduled

theorem refl (w : World) : w.Rescheduled w := ⟨rfl, rfl, rfl, rfl, rfl, Nat.le_refl _⟩

theorem trans (hw : w.Rescheduled w') (hw' : w'.Rescheduled w'') : w.Rescheduled w'' :=
  ⟨hw'.view.trans hw.view, hw'.vars.trans hw.vars, hw'.notifications.trans hw.notifications,
    hw'.journal.trans hw.journal, hw'.subscriptionNames.trans hw.subscriptionNames,
    Nat.le_trans hw.clock hw'.clock⟩

/-- The standing of a task stays. -/
theorem modifyTask (w : World) (t : TaskId) {f : TaskRecord → TaskRecord}
    (hf : ∀ r, (f r).standing = r.standing) : w.Rescheduled (w.modifyTask t f) := by
  refine ⟨World.view_modifyTask_of_eq w t f hf, ?_, ?_, ?_, ?_, ?_⟩ <;>
    unfold World.modifyTask <;> split <;> first | exact Nat.le_refl _ | rfl

theorem wake (w : World) (t : TaskId) : w.Rescheduled (w.wake t) := by
  unfold World.wake
  split
  · split
    · exact refl w
    · have hmod := modifyTask w t (f := fun r => { r with queued := true }) fun _ => rfl
      exact { hmod with view := hmod.view }
  · exact refl w

theorem wakeAll (w : World) (ts : List TaskId) : w.Rescheduled (w.wakeAll ts) := by
  unfold World.wakeAll
  induction ts generalizing w with
  | nil => exact refl w
  | cons t ts ih => exact (wake w t).trans (ih _)

theorem dequeue (w : World) (t : TaskId) (rest : List TaskId) :
    w.Rescheduled (w.dequeue t rest) := by
  have hready : w.Rescheduled { w with ready := rest } := { refl w with }
  exact hready.trans (modifyTask _ t fun _ => rfl)

theorem await (w : World) (t : TaskId) (p : Pause) : w.Rescheduled (w.await t p) := by
  have hobservers : ∀ (us : List TaskId) (w : World),
      w.Rescheduled (us.foldl (fun w u => w.modifyTask u fun r =>
        if r.ended || r.observers.contains t then r
        else { r with observers := r.observers ++ [t] }) w) := by
    intro us
    induction us with
    | nil => exact refl
    | cons u us ih =>
      refine fun w => (modifyTask w u fun r => ?_).trans (ih _)
      split <;> rfl
  have htimer : ∀ (w : World) (d : Nat), w.Rescheduled
      (if w.timers.any fun x => x.task = t && !x.outer then w
        else { w with timers := w.timers ++ [⟨d, t, false⟩] }) := by
    intro w d
    split
    · exact refl w
    · exact { refl w with }
  have hmail : ∀ (w : World) (m : MailboxId), w.Rescheduled
      (if (w.readers.lookup m).isSome then w else { w with readers := w.readers ++ [(m, t)] }) := by
    intro w m
    split
    · exact refl w
    · exact { refl w with }
  unfold World.await
  refine (hobservers p.observed w).trans ?_
  cases p with
  | time d => exact htimer _ d
  | mail m d =>
    cases d with
    | none => exact hmail _ m
    | some d => exact (hmail _ m).trans (htimer _ d)
  | ended u => exact refl _
  | allEnded us d => exact htimer _ d
  | turn =>
    simp only [Pause.deadline?]
    split
    · exact refl _
    · exact { refl _ with }

/-- When time passes tasks are woken. -/
theorem tick (hw : w.tick = some w') : w.Rescheduled w' ∧ w.Enqueues (fun _ => False) w' := by
  obtain ⟨d, -, rfl⟩ := Option.map_eq_some_iff.1 hw
  let w₁ : World :=
    { w with
      clock := max d w.clock
      timers := w.timers.filter fun x => max d w.clock < x.deadline }
  have hclock : w.Rescheduled w₁ := { refl w with clock := Nat.le_max_right .. }
  have hqueue : w.Enqueues (fun _ => False) w₁ := .same rfl rfl rfl
  exact ⟨hclock.trans (wakeAll w₁ _), hqueue.trans (.wakeAll w₁ _)⟩

end World.Rescheduled

namespace Worker

theorem Step.run (hstep : Step e c ds c') : Run e c.machine ds c'.machine := by
  cases hstep with
  | take => exact .single (.reschedule (.dequeue ..))
  | attend | rest => exact .refl
  | begin hlive _ hnone => exact .single (.begin hlive hnone)
  | call a hcaller hnone => exact .single (.call a hcaller hnone)
  | perform hp hstep => exact .single (.perform hp hstep)
  | «return» hcaller hp => exact .single (.return hcaller hp)
  | finish hlive hp => exact .single (.finish hlive hp)
  | leave hlive hcancelled hp => exact .single (.leave hlive hcancelled hp)
  | leaveEarly hlive hcancelled hnone => exact .single (.leaveEarly hlive hcancelled hnone)
  | await => exact .single (.reschedule (.await ..))
  | appear => exact .single .appear
  | drop hcaller hp => exact .single (.drop hcaller hp)
  | wake hw => exact .single (.reschedule hw)

/-- What one thread does is a run of the engine. -/
theorem Runs.run (hrun : Runs e c log c') : Run e c.machine log c'.machine := by
  induction hrun with
  | refl => exact .refl
  | step _ hstep ih => exact ih.trans hstep.run

/-! ### Turns of the machine -/

theorem threads_insert_insert (threads : Std.ExtTreeMap TaskId (Execution Unit)) (t : TaskId)
    (p q : Execution Unit) : (threads.insert t p).insert t q = threads.insert t q := by
  refine Std.ExtTreeMap.ext_getElem? fun u => ?_
  simp only [Std.ExtTreeMap.getElem?_insert]
  split <;> rfl

theorem threads_insert_self {threads : Std.ExtTreeMap TaskId (Execution Unit)} {t : TaskId}
    {p : Execution Unit} (hp : threads[t]? = some p) : threads.insert t p = threads := by
  refine Std.ExtTreeMap.ext_getElem? fun u => ?_
  rw [Std.ExtTreeMap.getElem?_insert]
  split
  · next heq => rw [← hp, Nat.compare_eq_eq.1 heq]
  · rfl

/-- The steps of a task up to the next wait are steps in its turn. -/
theorem Runs.of_poll (fuel : Nat) {w : World} {p : Execution Unit}
    {threads : Std.ExtTreeMap TaskId (Execution Unit)} (hp : threads[t]? = some p) :
    ∃ log, Runs e ⟨⟨w, threads⟩, some t⟩ log
      ⟨⟨(e.poll t fuel w p).2, threads.insert t (e.poll t fuel w p).1⟩, some t⟩ := by
  induction fuel generalizing w p threads with
  | zero =>
    rw [Engine.poll, threads_insert_self hp]
    exact ⟨[], .refl⟩
  | succ fuel ih =>
    rw [Engine.poll]
    cases hstep : e.step t w p with
    | none =>
      simp only [threads_insert_self hp]
      exact ⟨[], .refl⟩
    | some r =>
      obtain ⟨q, w'⟩ := r
      obtain ⟨log, hrun⟩ := @ih w' q (threads.insert t q) (by simp)
      rw [threads_insert_insert] at hrun
      exact ⟨_, (Runs.single (.perform hp hstep)).trans hrun⟩

/-- After its steps a task ends its turn. -/
theorem Runs.of_park {j : Job} (hlive : m.world.IsLive t j) {p : Execution Unit}
    (hp : m.threads[t]? = some p) (hpark : m.park t m.world p = some m') :
    Runs e ⟨m, some t⟩ [] ⟨m', none⟩ := by
  cases p with
  | done =>
    obtain rfl := Option.some.inj hpark
    exact .single (.finish hlive hp)
  | pause q k =>
    rw [Machine.park] at hpark
    split at hpark
    · next hcancelled =>
      obtain rfl := Option.some.inj hpark
      exact .single (.leave hlive hcancelled hp)
    · obtain rfl := Option.some.inj hpark
      rw [threads_insert_self hp]
      exact .single (.await hp)
  | _ => cases hpark

/-- What the thread has come to is put down once more. -/
theorem park_insert (m : Machine) (t : TaskId) (w w' : World) (p q : Execution Unit) :
    Machine.park ⟨w', m.threads.insert t q⟩ t w p = m.park t w p := by
  have herase : (m.threads.insert t q).erase t = m.threads.erase t := by
    refine Std.ExtTreeMap.ext_getElem? fun u => ?_
    simp only [Std.ExtTreeMap.getElem?_erase, Std.ExtTreeMap.getElem?_insert]
    split <;> rfl
  cases p <;> simp only [Machine.park, herase, threads_insert_insert]

/-- A task goes on in its turn as the machine lets it go on. -/
theorem Runs.of_goes (he : e.Orderly) {capacity : Nat}
    (hbefore : Runs e ⟨.start capacity, none⟩ log ⟨m, some t⟩) {j : Job}
    (hlive : m.world.IsLive t j) {p : Execution Unit} (hp : m.threads[t]? = some p)
    (hpark : m.park t (e.poll t Machine.stepLimit m.world p).2
      (e.poll t Machine.stepLimit m.world p).1 = some m') :
    ∃ log', Runs e ⟨m, some t⟩ log' ⟨m', none⟩ := by
  obtain ⟨log', hpoll⟩ := Runs.of_poll (e := e) (w := m.world) Machine.stepLimit hp
  obtain ⟨φ, ψ, hc⟩ := Conducted.run he hbefore.run
  obtain ⟨φ', ψ', hc', hle⟩ := hc.extend he hpoll.run
  have hthread : (m.threads.insert t (e.poll t Machine.stepLimit m.world p).1)[t]? =
      some (e.poll t Machine.stepLimit m.world p).1 := (threads_insert m t t _).trans (if_pos rfl)
  obtain ⟨x, hx, hended, -⟩ := (hc'.task t).carries _ hthread
  obtain ⟨r, hr, hj, -⟩ := hlive
  obtain ⟨x', hx', hjob, -⟩ := hle.task t r.standing (by rw [World.view_tasks, hr]; rfl)
  obtain rfl := Option.some.inj (hx.symm.trans hx')
  obtain ⟨r', hr', rfl⟩ := Option.map_eq_some_iff.1 hx
  have hend := Runs.of_park (e := e) (j := j) ⟨r', hr', hjob.trans hj, hended⟩ hthread
    ((park_insert ..).trans hpark)
  exact ⟨_, hpoll.trans hend⟩

/-- The turn of the first task of the queue, as the machine runs it. -/
theorem Runs.of_resume (he : e.Orderly) {capacity : Nat}
    (hbefore : Runs e ⟨.start capacity, none⟩ log ⟨m, none⟩) {rest : List TaskId}
    (hready : m.world.ready = t :: rest) (hcaller : ¬ m.world.IsCaller t)
    (hresume : Machine.resume e { m with world := { m.world with ready := rest } } t = some m') :
    ∃ log', Runs e ⟨m, none⟩ log' ⟨m', none⟩ := by
  let w := m.world.dequeue t rest
  have htake : Runs e ⟨m, none⟩ [] ⟨⟨w, m.threads⟩, some t⟩ := .single (.take hready)
  suffices hturn : ∃ log', Runs e ⟨⟨w, m.threads⟩, some t⟩ log' ⟨m', none⟩ by
    obtain ⟨log', hturn⟩ := hturn
    exact ⟨log', htake.trans hturn⟩
  have hends : w.isEnded t = true → Runs e ⟨⟨w, m.threads⟩, some t⟩ [] ⟨⟨w, m.threads⟩, none⟩ :=
    fun h => .single (.rest (.inl h))
  cases hr : w.task? t with
  | none =>
    have hr' : ({ m.world with ready := rest }.modifyTask t
      fun r => { r with queued := false }).task? t = none := hr
    unfold Machine.resume at hresume
    simp only [hr'] at hresume
    obtain rfl := Option.some.inj hresume
    exact ⟨[], hends (by rw [World.isEnded, hr]; rfl)⟩
  | some r =>
    have hr' : ({ m.world with ready := rest }.modifyTask t
      fun r => { r with queued := false }).task? t = some r := hr
    unfold Machine.resume at hresume
    simp only [hr'] at hresume
    split at hresume
    · next hended =>
      obtain rfl := Option.some.inj hresume
      exact ⟨[], hends (by rw [World.isEnded, hr]; exact hended)⟩
    next hended =>
    obtain ⟨j, hj⟩ : ∃ j, r.job = some j := by
      refine Option.ne_none_iff_exists'.1 fun hnone => hcaller ?_
      have hview := congrArg (View.tasks · t) (World.Rescheduled.dequeue m.world t rest).view
      obtain ⟨r₀, hr₀, hstanding⟩ := Option.map_eq_some_iff.1
        (hview.symm.trans (congrArg (Option.map TaskRecord.standing) hr))
      exact ⟨r₀, hr₀, (congrArg Standing.job hstanding).trans hnone⟩
    have hlive : w.IsLive t j := ⟨r, hr, hj, by simpa using hended⟩
    have hcancelled : Machine.isCancelled w t = r.cancelled := by
      rw [Machine.isCancelled, hr]
      rfl
    cases hp : m.threads[t]? with
    | some p =>
      simp only [hp] at hresume
      split at hresume
      · next hasked =>
        obtain rfl := Option.some.inj hresume
        exact ⟨[], .single (.leave hlive (hcancelled.trans hasked) hp)⟩
      · exact Runs.of_goes he (hbefore.trans htake) hlive hp hresume
    | none =>
      simp only [hp, hj] at hresume
      split at hresume
      · next hasked =>
        obtain rfl := Option.some.inj hresume
        exact ⟨[], .single (.leaveEarly hlive (hcancelled.trans hasked) hp)⟩
      · next hasked =>
        have hbegin : Runs e ⟨⟨w, m.threads⟩, some t⟩ []
            ⟨⟨w, m.threads.insert t (e.work j)⟩, some t⟩ :=
          .single (.begin hlive (hcancelled.trans (Bool.eq_false_iff.2 hasked)) hp)
        obtain ⟨log', hgoes⟩ := Runs.of_goes (m := ⟨w, m.threads.insert t (e.work j)⟩) he
          ((hbefore.trans htake).trans hbegin) hlive ((threads_insert m t t _).trans (if_pos rfl))
          ((park_insert ..).trans hresume)
        exact ⟨_, hbegin.trans hgoes⟩

/-- The clock jumps to the next deadline. -/
theorem Runs.of_tick (e : Engine) (m : Machine) (current : Option TaskId)
    (hw : m.world.tick = some w) : Runs e ⟨m, current⟩ [] ⟨⟨w, m.threads⟩, current⟩ :=
  .single (.wake (World.Rescheduled.tick hw).1 (World.Rescheduled.tick hw).2)

end Worker

/-! ## What a step does to the queue -/

namespace Worker

/-- The queue holds tasks that are there, among them all that live and have not begun, unless it is
their turn; and what threads have to do keeps to the queue. -/
structure Kept (c : Worker) : Prop where
  numbered : c.machine.world.view.TasksNumbered
  queue : ∀ t ∈ c.machine.world.ready, (c.machine.world.task? t).isSome
  waiting : ∀ t j, c.machine.world.IsLive t j → c.machine.threads[t]? = none →
    c.current ≠ some t → t ∈ c.machine.world.ready
  obeys : ∀ (t : TaskId) (p : Execution Unit), c.machine.threads[t]? = some p → p.Obeys World.Lined

/-- Either the first task of the queue gets its turn, or tasks join the end of the queue, nobody but
the task whose turn it is ends, and only callers get their turn. -/
theorem Step.queue (hk : c.Kept) (he : e.Obeys World.Lined) (hstep : Step e c ds c') :
    (∃ t rest, c.machine.world.ready = t :: rest ∧ c.current = none ∧
      c' = ⟨⟨c.machine.world.dequeue t rest, c.machine.threads⟩, some t⟩ ∧ ds = []) ∨
    c.machine.world.Enqueues (c.current = some ·) c'.machine.world ∧
      ∀ t, c'.current = some t → c.current = some t ∨ c.machine.world.IsCaller t := by
  have hstill : ∀ {o : Option TaskId} (t : TaskId), o = some t →
      o = some t ∨ c.machine.world.IsCaller t := fun _ => .inl
  cases hstep with
  | take hready => exact .inl ⟨_, _, hready, rfl, rfl, rfl⟩
  | attend hcaller =>
    refine .inr ⟨.refl _, fun t ht => .inr ?_⟩
    obtain rfl := Option.some.inj ht
    exact hcaller
  | perform hp hstep =>
    have hlined := ((hk.obeys _ _ hp).step he (fun _ _ => id) hstep).1 hk.numbered
    exact .inr ⟨hlined.mono fun _ => False.elim, hstill⟩
  | @finish m t | @leaveEarly m t =>
    exact .inr ⟨(World.Enqueues.finish m.world t).mono fun u hu => congrArg some hu.symm, nofun⟩
  | @leave m t _ p =>
    exact .inr ⟨(World.Enqueues.leave m.world t p).mono fun u hu => congrArg some hu.symm, nofun⟩
  | await => exact .inr ⟨.await .., nofun⟩
  | rest => exact .inr ⟨.refl _, nofun⟩
  | appear => exact .inr ⟨.newCaller hk.numbered, hstill⟩
  | drop => exact .inr ⟨.forsake .., nofun⟩
  | wake _ hw => exact .inr ⟨hw.mono fun _ => False.elim, hstill⟩
  | _ => exact .inr ⟨.refl _, hstill⟩

theorem enqueues_dequeue (w : World) (t : TaskId) (rest : List TaskId) :
    { w with ready := rest }.Enqueues (fun _ => False) (w.dequeue t rest) :=
  .modifyTask _ t fun _ => ⟨rfl, .inl rfl⟩

/-- The threads of others stay as they are, but for a caller that drops its call. -/
theorem Step.thread_of_other (hstep : Step e c ds c') (hu : c.current ≠ some u)
    (hcaller : ¬ c.machine.world.IsCaller u) :
    c'.machine.threads[u]? = c.machine.threads[u]? := by
  have hne : ∀ {t : TaskId}, c.current = some t → u ≠ t := by
    rintro t ht rfl
    exact hu ht
  cases hstep with
  | begin | call | perform => exact (threads_insert ..).trans (if_neg (hne rfl))
  | «return» | finish | leave => exact (threads_erase ..).trans (if_neg (hne rfl))
  | drop ht =>
    refine (threads_erase ..).trans (if_neg ?_)
    rintro rfl
    exact hcaller ht
  | _ => rfl

theorem not_caller_of_live (hlive : w.IsLive h j) : ¬ w.IsCaller h := by
  rintro ⟨r, hr, hnone⟩
  obtain ⟨r', hr', hj, -⟩ := hlive
  obtain rfl := Option.some.inj (hr.symm.trans hr')
  exact absurd (hj.symm.trans hnone) nofun

/-- A task that has finished has ended. -/
theorem isEnded_finish (w : World) (t : TaskId) : (w.finish t).isEnded t = true := by
  rw [World.isEnded_eq, World.view_finish]
  exact View.isEnded_modifyTask_finished ..

/-- A task that has had its turn and lives has begun. -/
theorem Step.begun {j : Job} (hstep : Step e c ds c') (hlive : c.machine.world.IsLive u j)
    (hlive' : c'.machine.world.IsLive u j) (hturn : c.current = some u)
    (hturn' : c'.current ≠ some u) : c'.machine.threads[u]? ≠ none := by
  have hended : ∀ w : World, ¬ (w.finish u).IsLive u j := by
    rintro w ⟨r, hr, -, hend⟩
    have hover := isEnded_finish w u
    rw [World.isEnded, hr] at hover
    exact absurd (hend.symm.trans hover) Bool.false_ne_true
  have hcaller := not_caller_of_live hlive
  cases hstep with
  | take | attend | drop => cases hturn
  | finish | leave | leaveEarly =>
    obtain rfl := Option.some.inj hturn
    exact absurd hlive' (hended _)
  | await hp =>
    obtain rfl := Option.some.inj hturn
    rw [hp]
    exact Option.some_ne_none _
  | rest hrest =>
    obtain rfl := Option.some.inj hturn
    obtain ⟨r, hr, -, hend⟩ := hlive
    rcases hrest with hover | ⟨hcall, -⟩
    · rw [World.isEnded, hr] at hover
      exact absurd (hend.symm.trans hover) Bool.false_ne_true
    · exact absurd hcall hcaller
  | _ => exact absurd hturn hturn'

/-- Nobody who has not begun is forgotten. -/
theorem Step.waiting (hk : c.Kept) (he : e.Obeys World.Lined) (hstep : Step e c ds c') {j : Job}
    (hlive : c'.machine.world.IsLive u j) (hnone : c'.machine.threads[u]? = none)
    (hturn : c'.current ≠ some u) : u ∈ c'.machine.world.ready := by
  rcases hstep.queue hk he with ⟨t, rest, hready, hidle, rfl, -⟩ | ⟨hqueue, -⟩
  · have htaken := enqueues_dequeue c.machine.world t rest
    rcases htaken.live_or_ready hlive with hlive₀ | hmem
    · have hmem := hk.waiting u j hlive₀ hnone (by rw [hidle]; exact nofun)
      rw [hready] at hmem
      rcases List.mem_cons.1 hmem with rfl | hmem
      · exact absurd rfl hturn
      · exact htaken.mem_ready hmem
    · exact hmem
  · rcases hqueue.live_or_ready hlive with hlive₀ | hmem
    · by_cases hcurrent : c.current = some u
      · exact absurd hnone (hstep.begun hlive₀ hlive hcurrent hturn)
      · have hthread := hstep.thread_of_other hcurrent (not_caller_of_live hlive₀)
        exact hqueue.mem_ready (hk.waiting u j hlive₀ (hthread ▸ hnone) hcurrent)
    · exact hmem

theorem Step.kept (hk : c.Kept) (he : e.Obeys World.Lined) (hstep : Step e c ds c') : c'.Kept where
  numbered := by
    rcases hstep.queue hk he with ⟨t, rest, -, -, rfl, -⟩ | ⟨hqueue, -⟩
    · exact (enqueues_dequeue c.machine.world t rest).numbered hk.numbered
    · exact hqueue.numbered hk.numbered
  queue u hu := by
    rcases hstep.queue hk he with ⟨t, rest, hready, -, rfl, -⟩ | ⟨hqueue, -⟩
    · obtain ⟨added, hadded, hknown⟩ := (enqueues_dequeue c.machine.world t rest).ready
      rw [hadded] at hu
      rcases List.mem_append.1 hu with hu | hu
      · refine (enqueues_dequeue c.machine.world t rest).isSome (hk.queue u ?_)
        exact hready ▸ List.mem_cons_of_mem _ hu
      · exact hknown u hu
    · obtain ⟨added, hadded, hknown⟩ := hqueue.ready
      rw [hadded] at hu
      exact (List.mem_append.1 hu).elim (fun hu => hqueue.isSome (hk.queue u hu)) (hknown u)
  waiting _ _ hlive hnone hturn := hstep.waiting hk he hlive hnone hturn
  obeys u p hp := by
    have hinsert : ∀ {m : Machine} {t : TaskId} {q : Execution Unit},
        m.threads = c.machine.threads → q.Obeys World.Lined → (m.threads.insert t q)[u]? = some p → p.Obeys World.Lined := by
      intro m t q hthreads hq hp
      rw [threads_insert] at hp
      split at hp
      · exact Option.some.inj hp ▸ hq
      · exact hk.obeys u p (hthreads ▸ hp)
    have herase : ∀ {m : Machine} {t : TaskId}, m.threads = c.machine.threads →
        (m.threads.erase t)[u]? = some p → p.Obeys World.Lined := by
      intro m t hthreads hp
      rw [threads_erase] at hp
      split at hp
      · cases hp
      · exact hk.obeys u p (hthreads ▸ hp)
    cases hstep with
    | @begin m t j => exact hinsert rfl (Engine.obeys_work j) hp
    | @call m t a => exact hinsert rfl (CallerRule.obeys_execution a) hp
    | perform hq hstep => exact hinsert rfl ((hk.obeys _ _ hq).step he (fun _ _ => id) hstep).2 hp
    | «return» | finish | leave | drop => exact herase rfl hp
    | _ => exact hk.obeys u p hp

theorem Kept.start (e : Engine) (capacity : Nat) : Kept ⟨.start capacity, none⟩ where
  numbered := (Conducted.start e capacity).sound.tasksNumbered
  queue := nofun
  waiting t j hlive := by
    obtain ⟨r, hr, hj, -⟩ := hlive
    have hstanding : (World.start capacity).view.tasks t = some r.standing :=
      congrArg (Option.map TaskRecord.standing) hr
    exact absurd (hj.symm.trans (congrArg Standing.job (Conducted.tasks_start hstanding).2)) nofun
  obeys t p hp := by
    change (∅ : Std.ExtTreeMap TaskId (Execution Unit))[t]? = some p at hp
    simp at hp

theorem Runs.kept (hk : c.Kept) (he : e.Obeys World.Lined) (hrun : Runs e c log c') : c'.Kept := by
  induction hrun with
  | refl => exact hk
  | step _ hstep ih => exact hstep.kept ih he

/-- Steps are performed by the task whose turn it is. -/
theorem Step.actor {p : Execution Unit} (hstep : Step e c ds c') (hd : .performed t p w ∈ ds) :
    c.current = some t ∧ c.machine.threads[t]? = some p ∧ w = c.machine.world := by
  cases hstep with
  | perform hp =>
    cases List.mem_singleton.1 hd
    exact ⟨rfl, hp, rfl⟩
  | drop => cases List.mem_singleton.1 hd
  | _ => cases hd

end Worker

/-! ## Executions that never wait -/

/-- An execution that never waits and ends: in every state it can make a step, and each of its steps
is as `R` allows. -/
inductive Engine.Straight (e : Engine) (t : TaskId) (R : World → World → Prop) : Execution α → Prop
  | done (a : α) : Straight e t R (.done a)
  | step {p : Execution α} (q : World → Execution α) (f : World → World) :
      (∀ c k, p ≠ .pause c k) → (∀ w, e.step t w p = some (q w, f w)) → (∀ w, R w (f w)) →
      (∀ w, Straight e t R (q w)) → Straight e t R p

namespace Engine.Straight

variable {R R' : World → World → Prop} {p q : Execution α}

theorem act {f : World → World} {k : World → Execution α} (hf : ∀ w, R w (f w))
    (hk : ∀ w, e.Straight t R (k w)) : e.Straight t R (.act f k) :=
  .step k f nofun (fun _ => rfl) hf hk

theorem atomically {f : World → α × World} (hf : ∀ w, R w (f w).2) :
    e.Straight t R (Execution.atomically f) := act hf fun _ => .done _

theorem change {f : World → World} (hf : ∀ w, R w (f w)) : e.Straight t R (Execution.change f) :=
  act hf fun _ => .done ()

theorem bind (hp : e.Straight t R p) {k : α → Execution β} (hk : ∀ a, e.Straight t R (k a)) :
    e.Straight t R (p.bind k) := by
  induction hp with
  | done a => exact hk a
  | @step p q f hpause hstep hR _ ih =>
    have hdone : ∀ a, p ≠ .done a := by
      rintro a rfl
      cases hstep (.start 0)
    refine .step (fun w => (q w).bind k) f ?_ (fun w => ?_) hR ih
    · rintro c l h
      cases p with
      | done a => exact hdone a rfl
      | pause c' l' => exact hpause c' l' rfl
      | _ => cases h
    · rw [step_bind e t w k hdone, hstep w]
      rfl

theorem mono (hp : e.Straight t R p) (hR : ∀ w w', R w w' → R' w w') : e.Straight t R' p := by
  induction hp with
  | done a => exact .done a
  | step q f hpause hstep hf _ ih => exact .step q f hpause hstep (fun w => hR w _ (hf w)) ih

/-- A step of it is as `R` allows, and leaves one that never waits. -/
theorem of_step (hp : e.Straight t R p) (hstep : e.step t w p = some (q, w')) :
    R w w' ∧ e.Straight t R q := by
  cases hp with
  | done => cases hstep
  | step q' f _ hstep' hR hrest =>
    obtain ⟨rfl, rfl⟩ := Prod.mk.inj (Option.some.inj ((hstep' w).symm.trans hstep))
    exact ⟨hR w, hrest w⟩

theorem not_pause (hp : e.Straight t R p) {c : Pause} {k : c.Reply → Execution α} :
    p ≠ .pause c k := by
  rintro rfl
  cases hp with
  | step _ _ hpause => exact hpause c k rfl

/-- What its steps leave never waits. -/
theorem replay (hp : e.Straight t R p) {ws : List World} (h : e.replay t p ws = some q) :
    e.Straight t R q := by
  induction ws generalizing p with
  | nil => exact Option.some.inj h ▸ hp
  | cons w ws ih =>
    obtain ⟨⟨p', w'⟩, hstep, hrest⟩ := Option.bind_eq_some_iff.1 h
    exact ih (hp.of_step hstep).2 hrest

end Engine.Straight

/-! ## Tasks that keep their place -/

namespace Worker

variable {R : World → World → Prop} {j : Job} {p q : Execution Unit}

/-- No task after `h` has begun, and none has its turn. -/
def Ahead (h : TaskId) (c : Worker) : Prop :=
  ∀ u, h < u → ¬ c.machine.world.IsCaller u → c.machine.threads[u]? = none ∧ c.current ≠ some u

/-- In the queue there are only callers and earlier tasks before `h`. -/
def Queued (h : TaskId) (w : World) : Prop :=
  ∃ pre post, w.ready = pre ++ h :: post ∧ ∀ u ∈ pre, u < h ∨ w.IsCaller u

/-- What a task that never waits has done in its turn. -/
inductive AtWork (e : Engine) (h : TaskId) (j : Job) (log : List Deed) :
    Option (Execution Unit) → Prop
  | resting : Deed.statesOf h log = [] → AtWork e h j log none
  | begun {p : Execution Unit} :
      e.replay h (e.work j) (Deed.statesOf h log) = some p → AtWork e h j log (some p)

/-- Where the task `h` stands that works on `j` and never waits, with the log since it was
started. -/
inductive Place (e : Engine) (h : TaskId) (j : Job) (log : List Deed) (c : Worker) : Prop
  | waits :
      c.machine.world.IsLive h j → Queued h c.machine.world → c.current ≠ some h →
      c.machine.threads[h]? = none → Deed.statesOf h log = [] → Ahead h c → Place e h j log c
  | works :
      c.machine.world.IsLive h j → c.current = some h → AtWork e h j log c.machine.threads[h]? →
      Ahead h c → Place e h j log c
  | ended {r : TaskRecord} :
      c.machine.world.task? h = some r → r.ended = true →
      (r.cancelled = true ∨ e.replay h (e.work j) (Deed.statesOf h log) = some (.done ())) →
      Place e h j log c

theorem isCaller_of_le (hle : w.view ≤ w'.view) (hu : w.IsCaller u) : w'.IsCaller u := by
  obtain ⟨r, hr, hj⟩ := hu
  obtain ⟨x, hx, hjob, -⟩ := hle.task u r.standing (by rw [World.view_tasks, hr]; rfl)
  obtain ⟨r', hr', rfl⟩ := Option.map_eq_some_iff.1 hx
  exact ⟨r', hr', hjob.trans hj⟩

theorem live_job {j' : Job} (hlive : w.IsLive h j) (hlive' : w.IsLive h j') : j = j' := by
  obtain ⟨r, hr, hj, -⟩ := hlive
  obtain ⟨r', hr', hj', -⟩ := hlive'
  obtain rfl := Option.some.inj (hr.symm.trans hr')
  exact Option.some.inj (hj.symm.trans hj')

/-- The record of a task that was there and has ended since. -/
theorem record_of_ended (hle : w.view ≤ w'.view) (hlive : w.IsLive h j)
    (hended : w'.isEnded h = true) : ∃ r, w'.task? h = some r ∧ r.ended = true ∧
      (Machine.isCancelled w h = true → r.cancelled = true) := by
  obtain ⟨r, hr, -⟩ := hlive
  obtain ⟨x, hx, -, hcancelled, -⟩ := hle.task h r.standing (by rw [World.view_tasks, hr]; rfl)
  obtain ⟨r', hr', rfl⟩ := Option.map_eq_some_iff.1 hx
  rw [World.isEnded, hr'] at hended
  refine ⟨r', hr', hended, fun h => hcancelled ?_⟩
  rw [Machine.isCancelled, hr] at h
  exact h

theorem live_of_enqueues {x : TaskId → Prop} (hqueue : w.Enqueues x w') (hx : ¬ x h)
    (hlive : w.IsLive h j) : w'.IsLive h j := by
  obtain ⟨r, hr, hj, hend⟩ := hlive
  obtain ⟨r', hr', hj', hend'⟩ := hqueue.task h r hr
  exact ⟨r', hr', hj'.trans hj, (hend'.resolve_right fun hover => hx hover.1).trans hend⟩

/-- A task lives on in a step unless it is its turn. -/
theorem Step.live (hk : c.Kept) (he : e.Obeys World.Lined) (hstep : Step e c ds c')
    (hlive : c.machine.world.IsLive h j) (hh : c.current ≠ some h) :
    c'.machine.world.IsLive h j := by
  rcases hstep.queue hk he with ⟨t, rest, -, -, rfl, -⟩ | ⟨hqueue, -⟩
  · exact live_of_enqueues (enqueues_dequeue c.machine.world t rest) id hlive
  · exact live_of_enqueues hqueue hh hlive

/-- A task stays ahead of the later ones as long as it is queued or has its turn. -/
theorem Step.ahead (hk : c.Kept) (he : e.Obeys World.Lined) (hstep : Step e c ds c')
    (hle : c.machine.world.view ≤ c'.machine.world.view) (hahead : Ahead h c)
    (hq : c.current = none → Queued h c.machine.world) : Ahead h c' := by
  intro u hu hcaller
  have hcaller₀ : ¬ c.machine.world.IsCaller u := fun h => hcaller (isCaller_of_le hle h)
  obtain ⟨hnone, hturn⟩ := hahead u hu hcaller₀
  refine ⟨(hstep.thread_of_other hturn hcaller₀).trans hnone, fun hu' => ?_⟩
  rcases hstep.queue hk he with ⟨t, rest, hready, hidle, rfl, -⟩ | ⟨-, hnext⟩
  · obtain rfl := Option.some.inj hu'
    obtain ⟨pre, post, hplace, hpre⟩ := hq hidle
    rw [hready] at hplace
    cases pre with
    | nil => exact Nat.ne_of_gt hu (List.cons.inj hplace).1
    | cons v pre =>
      obtain rfl := (List.cons.inj hplace).1
      exact (hpre _ List.mem_cons_self).elim (Nat.lt_asymm hu) hcaller₀
  · exact (hnext u hu').elim hturn hcaller₀

/-- A task that waits for its turn waits on, or has it. -/
theorem Step.waits (hk : c.Kept) (he : e.Obeys World.Lined) (hstep : Step e c ds c')
    (hle : c.machine.world.view ≤ c'.machine.world.view) (hlive : c.machine.world.IsLive h j)
    (hq : Queued h c.machine.world) (hturn : c.current ≠ some h)
    (hnone : c.machine.threads[h]? = none) (hstates : Deed.statesOf h log = [])
    (hahead : Ahead h c) : Place e h j (log ++ ds) c' := by
  have hlive' := hstep.live hk he hlive hturn
  have hahead' := hstep.ahead hk he hle hahead fun _ => hq
  have hnone' := (hstep.thread_of_other hturn (not_caller_of_live hlive)).trans hnone
  have hstates' : Deed.statesOf h (log ++ ds) = [] := by
    rw [Deed.statesOf_append, hstates, List.nil_append]
    exact Deed.statesOf_eq_nil fun p w hd => hturn (hstep.actor hd).1
  obtain ⟨pre, post, hready, hpre⟩ := hq
  have hpre' : ∀ u ∈ pre, u < h ∨ c'.machine.world.IsCaller u := fun u hu =>
    (hpre u hu).imp_right (isCaller_of_le hle)
  rcases hstep.queue hk he with ⟨t, rest, htake, -, rfl, -⟩ | ⟨hqueue, hnext⟩
  · obtain ⟨added, hadded, -⟩ := (enqueues_dequeue c.machine.world t rest).ready
    rw [htake] at hready
    cases pre with
    | nil =>
      obtain rfl := (List.cons.inj hready).1
      refine .works hlive' rfl ?_ hahead'
      rw [hnone']
      exact .resting hstates'
    | cons v pre =>
      obtain ⟨rfl, hrest⟩ := List.cons.inj hready
      refine .waits hlive' ⟨pre, post ++ added, ?_, fun u hu => hpre' u (List.mem_cons_of_mem _ hu)⟩
        (fun ht => ?_) hnone' hstates' hahead'
      · exact hadded.trans (by simp [hrest])
      · obtain rfl := Option.some.inj ht
        exact (hpre t List.mem_cons_self).elim (Nat.lt_irrefl _) (not_caller_of_live hlive)
  · obtain ⟨added, hadded, -⟩ := hqueue.ready
    refine .waits hlive' ⟨pre, post ++ added, ?_, hpre'⟩ (fun ht => ?_) hnone' hstates' hahead'
    · rw [hadded, hready]
      simp
    · exact (hnext h ht).elim hturn (not_caller_of_live hlive)

/-- A task goes on in its turn until it has ended. -/
theorem Step.works (hk : c.Kept) (he : e.Obeys World.Lined) (hstep : Step e c ds c')
    (hle : c.machine.world.view ≤ c'.machine.world.view) (hwork : e.Straight h R (e.work j))
    (hlive : c.machine.world.IsLive h j) (hturn : c.current = some h)
    (hat : AtWork e h j log c.machine.threads[h]?) (hahead : Ahead h c) :
    Place e h j (log ++ ds) c' := by
  have hahead' := hstep.ahead hk he hle hahead fun hnone =>
    absurd (hturn.symm.trans hnone) (Option.some_ne_none h)
  have hcaller := not_caller_of_live hlive
  cases hstep with
  | take | attend | drop => cases hturn
  | call a hcall | «return» hcall =>
    obtain rfl := Option.some.inj hturn
    exact absurd hcall hcaller
  | rest hrest =>
    obtain rfl := Option.some.inj hturn
    obtain ⟨r, hr, -, hend⟩ := hlive
    rcases hrest with hended | ⟨hcall, -⟩
    · rw [World.isEnded, hr] at hended
      exact absurd (hend.symm.trans hended) Bool.false_ne_true
    · exact absurd hcall hcaller
  | begin hlive₀ _ hnone =>
    obtain rfl := Option.some.inj hturn
    obtain rfl := live_job hlive hlive₀
    rw [hnone] at hat
    cases hat with
    | resting hstates =>
      refine .works hlive₀ rfl ?_ hahead'
      rw [threads_insert, if_pos rfl, List.append_nil]
      exact .begun (by rw [hstates]; rfl)
  | perform hp hstep =>
    obtain rfl := Option.some.inj hturn
    have hlined := ((hk.obeys _ _ hp).step he (fun _ _ => id) hstep).1 hk.numbered
    rw [hp] at hat
    cases hat with
    | begun hreplay =>
      refine .works (live_of_enqueues hlined id hlive) rfl ?_ hahead'
      rw [threads_insert, if_pos rfl]
      refine .begun ?_
      rw [Deed.statesOf_append, Engine.replay_append, hreplay, Deed.statesOf_performed]
      simp [Engine.replay, hstep]
  | finish _ hp =>
    obtain rfl := Option.some.inj hturn
    rw [hp] at hat
    cases hat with
    | begun hreplay =>
      obtain ⟨r, hr, hended, -⟩ := record_of_ended hle hlive (isEnded_finish ..)
      exact .ended hr hended (.inr (by rwa [List.append_nil]))
  | leave _ hcancelled | leaveEarly _ hcancelled =>
    obtain rfl := Option.some.inj hturn
    obtain ⟨r, hr, hended, hasked⟩ := record_of_ended hle hlive (isEnded_finish ..)
    exact .ended hr hended (.inl (hasked hcancelled))
  | await hp =>
    obtain rfl := Option.some.inj hturn
    rw [hp] at hat
    cases hat with
    | begun hreplay => exact absurd rfl (hwork.replay hreplay).not_pause
  | @appear m =>
    rw [List.append_nil]
    have hqueue : m.world.Enqueues (fun _ => False) m.world.newCaller := .newCaller hk.numbered
    exact .works (live_of_enqueues hqueue id hlive) hturn hat hahead'
  | wake _ hw =>
    rw [List.append_nil]
    exact .works (live_of_enqueues hw id hlive) hturn hat hahead'

/-- In every step a task that never waits keeps its place. -/
theorem Place.step (hplace : Place e h j log c) (he : e.Orderly) (hobeys : e.Obeys World.Lined)
    {log₀ : List Deed} {φ : TaskId → Stage} {ψ : TaskId → Stance}
    (hc : Conducted e log₀ c.machine φ ψ) (hk : c.Kept) (hwork : e.Straight h R (e.work j))
    (hstep : Step e c ds c') : Place e h j (log ++ ds) c' := by
  obtain ⟨φ', ψ', hc', hle⟩ := hc.extend he hstep.run
  cases hplace with
  | waits hlive hq hturn hnone hstates hahead =>
    exact hstep.waits hk hobeys hle hlive hq hturn hnone hstates hahead
  | works hlive hturn hat hahead => exact hstep.works hk hobeys hle hwork hlive hturn hat hahead
  | @ended r hr hended hend =>
    have hx : c.machine.world.view.tasks h = some r.standing := by rw [World.view_tasks, hr]; rfl
    obtain ⟨x, hx', -, hcancelled, hended'⟩ := hle.task h r.standing hx
    obtain ⟨r', hr', rfl⟩ := Option.map_eq_some_iff.1 hx'
    have hnone : Deed.statesOf h ds = [] := Deed.statesOf_eq_nil fun p w hd => by
      obtain ⟨-, hp, -⟩ := hstep.actor hd
      obtain ⟨y, hy, hlive, -⟩ := (hc.task h).carries p hp
      obtain rfl := Option.some.inj (hx.symm.trans hy)
      exact absurd (hlive.symm.trans hended) nofun
    refine .ended hr' (hended' hended) (hend.imp hcancelled fun hreplay => ?_)
    rw [Deed.statesOf_append, hnone, List.append_nil]
    exact hreplay

/-- So it does in every run. -/
theorem Place.of_run (hplace : Place e h j log c) (he : e.Orderly)
    (hobeys : e.Obeys World.Lined) {log₀ : List Deed} {φ : TaskId → Stage} {ψ : TaskId → Stance}
    (hc : Conducted e log₀ c.machine φ ψ) (hk : c.Kept) (hwork : e.Straight h R (e.work j)) (hrun : Runs e c log' c') :
    Place e h j (log ++ log') c' := by
  induction hrun with
  | refl => rwa [List.append_nil]
  | step hrun hstep ih =>
    obtain ⟨φ', ψ', hc', -⟩ := hc.extend he hrun.run
    rw [← List.append_assoc]
    exact ih.step he hobeys hc' (hrun.kept hk hobeys) hwork hstep

/-- Threads are of tasks that are there. -/
theorem lt_of_thread {φ : TaskId → Stage} {ψ : TaskId → Stance} (hc : Conducted e log m φ ψ)
    (hp : m.threads[u]? = some p) : u < m.world.taskCount := by
  obtain ⟨x, hx, -⟩ := (hc.task u).carries p hp
  exact hc.sound.tasksNumbered u x hx

/-- A task that has been started is the last of the queue. -/
theorem Place.of_spawn {log₀ : List Deed} {φ : TaskId → Stage} {ψ : TaskId → Stance}
    (hc : Conducted e log₀ m φ ψ) (hk : Kept ⟨m, some t⟩) (hp : m.threads[t]? = some p) {n : Nat}
    (hlive : m.world.isDestroyed n = false) (d : String) (ctx : Context) (j : Job) :
    Place e m.world.taskCount j []
      ⟨⟨(m.world.spawn n d ctx j).2, m.threads.insert t q⟩, some t⟩ := by
  obtain ⟨-, hcount, htask, -⟩ := World.spawn_spec hlive d ctx j
  have hready : (m.world.spawn n d ctx j).2.ready = m.world.ready ++ [m.world.taskCount] := by
    unfold World.spawn World.modifyGeneration
    rw [if_neg (by rw [hlive]; exact Bool.false_ne_true)]
    simp only
    split <;> rfl
  have hknown : ∀ u, (m.world.task? u).isSome → u < m.world.taskCount := fun u hu => by
    obtain ⟨r, hr⟩ := Option.isSome_iff_exists.1 hu
    exact hk.numbered u r.standing (by rw [World.view_tasks]; exact congrArg _ hr)
  have ht := lt_of_thread hc hp
  have hnone : ∀ u, m.world.taskCount ≤ u → (m.threads.insert t q)[u]? = none := fun u hu => by
    rw [threads_insert, if_neg (Nat.ne_of_gt (Nat.lt_of_lt_of_le ht hu))]
    refine Option.eq_none_iff_forall_ne_some.2 fun p hp => ?_
    exact absurd (lt_of_thread hc hp) (Nat.not_lt.2 hu)
  refine .waits ⟨_, (htask _).trans (if_pos rfl), rfl, rfl⟩
    ⟨m.world.ready, [], hready, fun u hu => .inl (hknown u (hk.queue u hu))⟩ (fun h => ?_)
    (hnone _ (Nat.le_refl _)) rfl fun u hu _ => ⟨hnone u (Nat.le_of_lt hu), fun h => ?_⟩
  · exact Nat.ne_of_lt ht (Option.some.inj h)
  · exact Nat.ne_of_lt (Nat.lt_trans ht hu) (Option.some.inj h)

/-- When a later task performs a step, a task that never waits has ended; unless it was cancelled it
has done its work. -/
theorem Runs.overtakes_nobody (he : e.Orderly) (hobeys : e.Obeys World.Lined) {log₀ : List Deed}
    {φ : TaskId → Stage} {ψ : TaskId → Stance} (hc : Conducted e log₀ c.machine φ ψ)
    (hk : c.Kept) (hwork : e.Straight h R (e.work j)) (hplace : Place e h j [] c) (hu : h < u)
    {log' : List Deed} (hrun : Runs e c (log ++ .performed u p w :: log') c')
    (hcaller : ¬ w.IsCaller u) : ∃ r, w.task? h = some r ∧ r.ended = true ∧
      (r.cancelled = true ∨ e.replay h (e.work j) (Deed.statesOf h log) = some (.done ())) := by
  obtain ⟨c₁, c₂, hbefore, hstep, -⟩ := hrun.split
  obtain ⟨-, hp, rfl⟩ := hstep.actor (List.mem_singleton_self _)
  have hnot : ¬ Ahead h c₁ := fun hahead =>
    absurd ((hahead u hu hcaller).1.symm.trans hp) nofun
  cases hplace.of_run he hobeys hc hk hwork hbefore with
  | waits _ _ _ _ _ hahead | works _ _ _ hahead => exact absurd hahead hnot
  | ended hr hended hend => exact ⟨_, hr, hended, hend⟩

end Worker
end BlockEngine
