import BlockEngine.Machine

/-!
# What a state is apart from its schedule

* `View` : the state without queues, timers, registrations and the clock, and without what only
  blocks read;
* `World.view` and one lemma for each operation on the state: either the view stays, or one field
  of it changes;
* `World.Silent` : variables and notifications stay, as they do in all that is done about tasks,
  generations and locks.
-/

namespace BlockEngine

/-- The standing of a task, as far as others depend on it. -/
structure Standing where
  job : Option Job
  cancelled : Bool
  ended : Bool

def TaskRecord.standing (r : TaskRecord) : Standing := ⟨r.job, r.cancelled, r.ended⟩

/-- A state without its schedule. -/
@[ext] structure View where
  issued : Nat
  locks : LockTable Reaction
  generations : Std.ExtTreeMap Nat GenerationState
  tabs : Keyed TabEntry
  holder : Option TaskId
  taskCount : Nat
  tasks : TaskId → Option Standing

namespace View

def tab? (v : View) (id : String) : Option TabEntry := Keyed.get? id v.tabs

def generation? (v : View) (n : Nat) : Option GenerationState := v.generations[n]?

/-- Change one task. -/
def modifyTask (v : View) (t : TaskId) (f : Standing → Standing) : View :=
  { v with tasks := fun u => if u = t then (v.tasks t).map f else v.tasks u }

/-- Ask a task to end, unless it has ended. -/
def cancel (v : View) (t : TaskId) : View :=
  v.modifyTask t fun s => { s with cancelled := s.cancelled || !s.ended }

/-- A task more. -/
def addTask (v : View) (job : Option Job) : View :=
  { v with
    taskCount := v.taskCount + 1
    tasks := fun u => if u = v.taskCount then some ⟨job, false, false⟩ else v.tasks u }

/-- Change one generation. -/
def modifyGeneration (v : View) (n : Nat) (f : GenerationState → GenerationState) : View :=
  match v.generations[n]? with
  | some s => { v with generations := v.generations.insert n (f s) }
  | none => v

end View

namespace World

def view (w : World) : View where
  issued := w.issued
  locks := w.locks
  generations := w.generations
  tabs := w.tabs
  holder := w.turn.holder
  taskCount := w.taskCount
  tasks t := (w.task? t).map TaskRecord.standing

variable (w : World)

theorem view_tab? (id : String) : w.view.tab? id = w.tab? id := rfl

theorem view_generation? (n : Nat) : w.view.generation? n = w.generation? n := rfl

theorem view_tasks (t : TaskId) : w.view.tasks t = (w.task? t).map TaskRecord.standing := rfl

/-! ## Tasks -/

theorem task?_modifyTask (t u : TaskId) (f : TaskRecord → TaskRecord) :
    (w.modifyTask t f).task? u = if u = t then (w.task? t).map f else w.task? u := by
  unfold modifyTask task?
  cases h : w.tasks[t]? with
  | none =>
    by_cases hu : u = t
    · subst hu; simp [h]
    · simp [hu]
  | some r =>
    rw [Std.ExtTreeMap.getElem?_insert]
    by_cases hu : t = u
    · subst hu; simp
    · simp [hu, Ne.symm hu]

theorem view_modifyTask (t : TaskId) (f : TaskRecord → TaskRecord) (g : Standing → Standing)
    (h : ∀ r, (f r).standing = g r.standing) :
    (w.modifyTask t f).view = w.view.modifyTask t g := by
  have htasks : (w.modifyTask t f).view.tasks = (w.view.modifyTask t g).tasks := by
    funext u
    simp only [view_tasks, task?_modifyTask, View.modifyTask]
    split
    · cases w.task? t <;> simp [h]
    · rfl
  unfold modifyTask at htasks ⊢
  cases hw : w.tasks[t]? with
  | none => rw [hw] at htasks; exact View.ext rfl rfl rfl rfl rfl rfl htasks
  | some r => rw [hw] at htasks; exact View.ext rfl rfl rfl rfl rfl rfl htasks

/-- A change of a task that leaves its standing. -/
theorem view_modifyTask_of_eq (t : TaskId) (f : TaskRecord → TaskRecord)
    (h : ∀ r, (f r).standing = r.standing) : (w.modifyTask t f).view = w.view := by
  rw [view_modifyTask w t f id h]
  refine View.ext rfl rfl rfl rfl rfl rfl (funext fun u => ?_)
  simp only [View.modifyTask]
  split
  · next hu => rw [hu]; simp
  · rfl

@[simp] theorem view_wake (t : TaskId) : (w.wake t).view = w.view := by
  unfold wake
  split
  · split
    · rfl
    · exact view_modifyTask_of_eq w t _ fun _ => rfl
  · rfl

@[simp] theorem view_wakeAll (ts : List TaskId) : (w.wakeAll ts).view = w.view := by
  unfold wakeAll
  induction ts generalizing w with
  | nil => rfl
  | cons t ts ih => rw [List.foldl_cons, ih, view_wake]

@[simp] theorem view_wakeReaders (ms : List MailboxId) : (w.wakeReaders ms).view = w.view :=
  view_wakeAll w _

theorem isEnded_eq (t : TaskId) :
    w.isEnded t = ((w.view.tasks t).map Standing.ended).getD true := by
  unfold isEnded
  rw [view_tasks]
  cases w.task? t <;> rfl

theorem view_cancel (t : TaskId) : (w.cancel t).view = w.view.cancel t := by
  unfold cancel View.cancel
  cases h : w.isEnded t with
  | true =>
    refine View.ext rfl rfl rfl rfl rfl rfl (funext fun u => ?_)
    rw [isEnded_eq] at h
    simp only [View.modifyTask, if_true]
    by_cases hu : u = t
    · subst hu
      cases hs : w.view.tasks u with
      | none => simp
      | some s => cases s; simp_all
    · rw [if_neg hu]
  | false =>
    rw [isEnded_eq] at h
    simp only [Bool.false_eq_true, if_false, view_wake]
    rw [view_modifyTask w t _ (fun s => { s with cancelled := true }) fun _ => rfl]
    refine View.ext rfl rfl rfl rfl rfl rfl (funext fun u => ?_)
    simp only [View.modifyTask]
    cases hs : w.view.tasks t with
    | none => rfl
    | some s => simp_all

theorem view_cancelAll (ts : List TaskId) :
    (ts.foldl cancel w).view = ts.foldl View.cancel w.view := by
  induction ts generalizing w with
  | nil => rfl
  | cons t ts ih => rw [List.foldl_cons, List.foldl_cons, ih, view_cancel]

theorem view_newTask (job : Job) : (w.newTask job).2.view = w.view.addTask (some job) := by
  refine View.ext rfl rfl rfl rfl rfl rfl (funext fun u => ?_)
  simp only [newTask, view_tasks, task?, View.addTask]
  rw [Std.ExtTreeMap.getElem?_insert]
  by_cases hu : w.taskCount = u
  · subst hu; simp [view, TaskRecord.standing]
  · simp [view, hu, Ne.symm hu]

/-! ## Generations -/

theorem view_modifyGeneration (n : Nat) (f : GenerationState → GenerationState) :
    (w.modifyGeneration n f).view = w.view.modifyGeneration n f := by
  unfold modifyGeneration View.modifyGeneration
  rw [show w.view.generations = w.generations from rfl]
  cases w.generations[n]? <;> rfl

/-! ## Locks -/

@[simp] theorem view_withLocks {α : Type} (f : LockTable Reaction → α × LockTable Reaction) :
    (w.withLocks f).2.view = { w.view with locks := (f w.locks).2 } := rfl

theorem view_deliver (l : LockId) (x : Json) :
    (w.deliver l x).2.view = { w.view with locks := (w.locks.deliver l x).2 } := by
  simp [deliver]

theorem view_releaseLocks (tab : String) :
    (w.releaseLocks tab).view = { w.view with locks := (w.locks.release tab).2 } := by
  simp [releaseLocks]

theorem view_releaseAllLocks :
    w.releaseAllLocks.view = { w.view with locks := w.locks.releaseAll.2 } := by
  simp [releaseAllLocks]

/-! ## Pauses -/

@[simp] theorem view_unregister (t : TaskId) (p : Pause) : (w.unregister t p).view = w.view := by
  have h : ∀ (us : List TaskId) (w : World),
      (us.foldl (fun w u => w.modifyTask u fun r =>
        { r with observers := r.observers.filter (· ≠ t) }) w).view = w.view := by
    intro us
    induction us with
    | nil => intro w; rfl
    | cons u us ih =>
      intro w
      exact (ih _).trans (view_modifyTask_of_eq w u _ fun _ => rfl)
  exact h p.observed w

theorem view_settle (t : TaskId) (p : Pause) :
    (w.settle t p).view =
      match p with
      | .mail m _ => { w.view with locks := w.locks.close m }
      | .turn => { w.view with holder := some t }
      | _ => w.view := by
  have h := view_unregister w t p
  cases p with
  | mail m d =>
    have hlocks : (w.unregister t (.mail m d)).locks = w.locks := congrArg View.locks h
    change { (w.unregister t (.mail m d)).view with
      locks := (w.unregister t (.mail m d)).locks.close m } = _
    rw [h, hlocks]
  | turn =>
    change { (w.unregister t .turn).view with holder := some t } = _
    rw [h]
  | _ => exact h

theorem view_passTurn : w.passTurn.view = { w.view with holder := w.turn.queue.head? } := by
  unfold passTurn
  cases w.turn.queue with
  | nil => rfl
  | cons t rest => exact view_wake _ t

theorem view_yieldTurn (t : TaskId) :
    (w.yieldTurn t).view =
      if w.turn.holder = some t then { w.view with holder := w.turn.queue.head? } else w.view := by
  unfold yieldTurn
  split
  · exact view_passTurn w
  · rfl

end World

/-! ## Variables and notifications -/

/-- Variables and notifications are the same. -/
structure World.Silent (w w' : World) : Prop where
  vars : w'.vars = w.vars
  notifications : w'.notifications = w.notifications

namespace World.Silent

variable {w w' w'' : World}

theorem refl (w : World) : w.Silent w := ⟨rfl, rfl⟩

theorem trans (h : w.Silent w') (h' : w'.Silent w'') : w.Silent w'' :=
  ⟨h'.vars.trans h.vars, h'.notifications.trans h.notifications⟩

theorem foldl {β : Type} {f : World → β → World} (hf : ∀ (w : World) b, w.Silent (f w b))
    (bs : List β) (w : World) : w.Silent (bs.foldl f w) := by
  induction bs generalizing w with
  | nil => exact refl w
  | cons b bs ih => exact (hf w b).trans (ih (f w b))

theorem modifyTask (w : World) (t : TaskId) (f : TaskRecord → TaskRecord) :
    w.Silent (w.modifyTask t f) := by
  unfold World.modifyTask
  split <;> exact ⟨rfl, rfl⟩

theorem modifyGeneration (w : World) (n : Nat) (f : GenerationState → GenerationState) :
    w.Silent (w.modifyGeneration n f) := by
  unfold World.modifyGeneration
  split <;> exact ⟨rfl, rfl⟩

theorem modifyTab (w : World) (id : String) (f : TabEntry → TabEntry) :
    w.Silent (w.modifyTab id f) := by
  unfold World.modifyTab
  split <;> exact ⟨rfl, rfl⟩

theorem wake (w : World) (t : TaskId) : w.Silent (w.wake t) := by
  unfold World.wake
  split
  · split
    · exact refl w
    · exact (modifyTask w t _).trans ⟨rfl, rfl⟩
  · exact refl w

theorem wakeAll (w : World) (ts : List TaskId) : w.Silent (w.wakeAll ts) := foldl wake ts w

theorem cancel (w : World) (t : TaskId) : w.Silent (w.cancel t) := by
  unfold World.cancel
  split
  · exact refl w
  · exact (modifyTask w t _).trans (wake ..)

theorem releaseLocks (w : World) (tab : String) : w.Silent (w.releaseLocks tab) :=
  ⟨(wakeAll ..).vars, (wakeAll ..).notifications⟩

theorem runListeners (w : World) (ls : List (String × Listener)) :
    w.Silent (ls.foldl (fun w l => w.runListener l.2) w) :=
  foldl (fun w l => by obtain ⟨block, l, i | name⟩ := l <;> exact ⟨rfl, rfl⟩) ls w

theorem releaseBlocks (w : World) (n : Nat) : w.Silent (w.releaseBlocks n).2 :=
  (modifyGeneration w n _).trans (runListeners ..)

theorem unregister (w : World) (t : TaskId) (p : Pause) : w.Silent (w.unregister t p) :=
  have h := foldl (fun w u => modifyTask w u fun r =>
    { r with observers := r.observers.filter (· ≠ t) }) p.observed w
  ⟨h.vars, h.notifications⟩

theorem settle (w : World) (t : TaskId) (p : Pause) : w.Silent (w.settle t p) := by
  cases p <;> exact ⟨(unregister w t _).vars, (unregister w t _).notifications⟩

theorem passTurn (w : World) : w.Silent w.passTurn := by
  unfold World.passTurn
  split
  · exact ⟨rfl, rfl⟩
  · exact ⟨(wake ..).vars, (wake ..).notifications⟩

theorem yieldTurn (w : World) (t : TaskId) : w.Silent (w.yieldTurn t) := by
  unfold World.yieldTurn
  split
  · exact passTurn w
  · exact refl w

theorem forsake (w : World) (t : TaskId) (p : Execution Unit) : w.Silent (Machine.forsake w t p) := by
  cases p with
  | pause q k =>
    have h := unregister w t q
    cases q <;> exact ⟨(yieldTurn ..).vars.trans h.vars,
      (yieldTurn ..).notifications.trans h.notifications⟩
  | _ => exact yieldTurn w t

theorem finish (w : World) (t : TaskId) : w.Silent (w.finish t) :=
  (yieldTurn w t).trans ((modifyTask ..).trans (wakeAll ..))

theorem spawn (w : World) (n : Nat) (d : String) (c : Context) (j : Job) :
    w.Silent (w.spawn n d c j).2 := by
  unfold World.spawn
  split
  · exact refl w
  · exact ⟨(modifyGeneration ..).vars, (modifyGeneration ..).notifications⟩

end World.Silent
end BlockEngine
