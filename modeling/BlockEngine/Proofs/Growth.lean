import BlockEngine.Library
import BlockEngine.Proofs.Locks
import BlockEngine.Proofs.View

/-!
# Growth of states

* `View.Le` : what every later state keeps: tasks and generations stay, what has ended stays ended;
* `View.Known`, `View.IsPlain`, `View.Paired` : facts about generations and locks that, once true,
  stay true;
* `Job.Coherent`, `Reaction.Coherent`, `Routine.Coherent` : what is left to be done later is about
  one generation, and about locks that are what it takes them for.
-/

namespace BlockEngine

/-! ## Growth -/

namespace View

/-- What a later state keeps of a state. -/
structure Le (v v' : View) : Prop where
  issued : v.issued ≤ v'.issued
  taskCount : v.taskCount ≤ v'.taskCount
  locks : v.locks.Le v'.locks
  task : ∀ t s, v.tasks t = some s → ∃ s', v'.tasks t = some s' ∧ s'.job = s.job ∧
    (s.cancelled = true → s'.cancelled = true) ∧ (s.ended = true → s'.ended = true)
  generation : ∀ n s, v.generation? n = some s → ∃ s', v'.generation? n = some s' ∧
    s'.tab = s.tab ∧ (s.destroyed = true → s'.destroyed = true)

instance : LE View := ⟨Le⟩

variable {v v' v'' : View}

theorem le_refl (v : View) : v ≤ v where
  issued := Nat.le_refl _
  taskCount := Nat.le_refl _
  locks := .refl _
  task _ s hs := ⟨s, hs, rfl, id, id⟩
  generation _ s hs := ⟨s, hs, rfl, id⟩

theorem le_trans (h : v ≤ v') (h' : v' ≤ v'') : v ≤ v'' where
  issued := Nat.le_trans h.issued h'.issued
  taskCount := Nat.le_trans h.taskCount h'.taskCount
  locks := h.locks.trans h'.locks
  task t s hs := by
    obtain ⟨s', hs', hj, hc, he⟩ := h.task t s hs
    obtain ⟨s'', hs'', hj', hc', he'⟩ := h'.task t s' hs'
    exact ⟨s'', hs'', hj'.trans hj, fun h => hc' (hc h), fun h => he' (he h)⟩
  generation n s hs := by
    obtain ⟨s', hs', ht, hd⟩ := h.generation n s hs
    obtain ⟨s'', hs'', ht', hd'⟩ := h'.generation n s' hs'
    exact ⟨s'', hs'', ht'.trans ht, fun h => hd' (hd h)⟩

/-- A change of nothing but locks, tabs, the turn and the numbers drawn. -/
theorem le_of_eq (hissued : v.issued ≤ v'.issued) (hlocks : v.locks.Le v'.locks)
    (hgenerations : v'.generations = v.generations) (htaskCount : v'.taskCount = v.taskCount)
    (htasks : v'.tasks = v.tasks) : v ≤ v' where
  issued := hissued
  taskCount := Nat.le_of_eq htaskCount.symm
  locks := hlocks
  task _ s hs := ⟨s, by rw [htasks, hs], rfl, id, id⟩
  generation _ s hs := ⟨s, by unfold generation? at *; rw [hgenerations, hs], rfl, id⟩

/-! ## Tasks and generations after an operation -/

theorem tasks_modifyTask (v : View) (t u : TaskId) (f : Standing → Standing) :
    (v.modifyTask t f).tasks u = if u = t then (v.tasks t).map f else v.tasks u := rfl

theorem le_modifyTask (v : View) (t : TaskId) (f : Standing → Standing)
    (hf : ∀ s, (f s).job = s.job ∧ (s.cancelled = true → (f s).cancelled = true) ∧
      (s.ended = true → (f s).ended = true)) : v ≤ v.modifyTask t f where
  issued := Nat.le_refl _
  taskCount := Nat.le_refl _
  locks := .refl _
  task u s hs := by
    rw [tasks_modifyTask]
    split
    · next hu => subst hu; rw [hs]; exact ⟨_, rfl, hf s⟩
    · exact ⟨s, hs, rfl, id, id⟩
  generation _ s hs := ⟨s, hs, rfl, id⟩

theorem le_cancel (v : View) (t : TaskId) : v ≤ v.cancel t :=
  le_modifyTask v t _ fun _ => ⟨rfl, fun h => by simp [h], id⟩

theorem le_cancelAll (v : View) (ts : List TaskId) : v ≤ ts.foldl cancel v := by
  induction ts generalizing v with
  | nil => exact le_refl v
  | cons t ts ih => exact le_trans (le_cancel v t) (ih _)

theorem generation?_modifyGeneration (v : View) (n k : Nat)
    (f : GenerationState → GenerationState) :
    (v.modifyGeneration n f).generation? k =
      if k = n then (v.generation? n).map f else v.generation? k := by
  unfold modifyGeneration generation?
  cases h : v.generations[n]? with
  | none =>
    by_cases hk : k = n
    · subst hk; simp [h]
    · simp [hk]
  | some s =>
    rw [Std.ExtTreeMap.getElem?_insert]
    by_cases hk : n = k
    · subst hk; simp
    · simp [hk, Ne.symm hk]

@[simp] theorem tasks_modifyGeneration (v : View) (n : Nat)
    (f : GenerationState → GenerationState) : (v.modifyGeneration n f).tasks = v.tasks := by
  unfold modifyGeneration; split <;> rfl

@[simp] theorem locks_modifyGeneration (v : View) (n : Nat)
    (f : GenerationState → GenerationState) : (v.modifyGeneration n f).locks = v.locks := by
  unfold modifyGeneration; split <;> rfl

@[simp] theorem issued_modifyGeneration (v : View) (n : Nat)
    (f : GenerationState → GenerationState) : (v.modifyGeneration n f).issued = v.issued := by
  unfold modifyGeneration; split <;> rfl

@[simp] theorem taskCount_modifyGeneration (v : View) (n : Nat)
    (f : GenerationState → GenerationState) :
    (v.modifyGeneration n f).taskCount = v.taskCount := by
  unfold modifyGeneration; split <;> rfl

@[simp] theorem tabs_modifyGeneration (v : View) (n : Nat)
    (f : GenerationState → GenerationState) : (v.modifyGeneration n f).tabs = v.tabs := by
  unfold modifyGeneration; split <;> rfl

@[simp] theorem holder_modifyGeneration (v : View) (n : Nat)
    (f : GenerationState → GenerationState) : (v.modifyGeneration n f).holder = v.holder := by
  unfold modifyGeneration; split <;> rfl

theorem le_modifyGeneration (v : View) (n : Nat) (f : GenerationState → GenerationState)
    (hf : ∀ s, (f s).tab = s.tab ∧ (s.destroyed = true → (f s).destroyed = true)) :
    v ≤ v.modifyGeneration n f where
  issued := Nat.le_of_eq (issued_modifyGeneration ..).symm
  taskCount := Nat.le_of_eq (taskCount_modifyGeneration ..).symm
  locks := by rw [locks_modifyGeneration]; exact .refl _
  task t s hs := ⟨s, by rw [tasks_modifyGeneration, hs], rfl, id, id⟩
  generation k s hs := by
    rw [generation?_modifyGeneration]
    split
    · next hk => subst hk; rw [hs]; exact ⟨_, rfl, hf s⟩
    · exact ⟨s, hs, rfl, id⟩

/-! ## New tasks -/

/-- Whether a generation takes no tasks any more; one that never was takes none. -/
def isDestroyed (v : View) (n : Nat) : Bool := ((v.generation? n).map (·.destroyed)).getD true

/-- A change of a generation that keeps whether it takes tasks. -/
theorem isDestroyed_modifyGeneration (v : View) (n : Nat)
    {f : GenerationState → GenerationState} (hf : ∀ s, (f s).destroyed = s.destroyed) (k : Nat) :
    (v.modifyGeneration n f).isDestroyed k = v.isDestroyed k := by
  unfold isDestroyed
  rw [generation?_modifyGeneration]
  split
  · next hk =>
    subst hk
    cases v.generation? k with
    | none => rfl
    | some s => exact congrArg (fun d => (some d).getD true) (hf s)
  · rfl

/-- Whether a task has ended; one that never was has. -/
def isEnded (v : View) (t : TaskId) : Bool := ((v.tasks t).map Standing.ended).getD true

/-- Start a tracked task, unless the generation is destroyed. -/
def spawn (v : View) (n : Nat) (description : String) (context : Context) (job : Job) : View :=
  if v.isDestroyed n then v
  else
    (v.addTask (some job)).modifyGeneration n fun s =>
      { s with tracked := s.tracked.filter (fun x => !(v.addTask (some job)).isEnded x.task) ++
          [⟨v.taskCount, description, context⟩] }

theorem tasks_addTask (v : View) (job : Option Job) (u : TaskId) :
    (v.addTask job).tasks u =
      if u = v.taskCount then some ⟨job, false, false⟩ else v.tasks u := rfl

@[simp] theorem locks_spawn (v : View) (n : Nat) (description : String) (context : Context)
    (job : Job) : (v.spawn n description context job).locks = v.locks := by
  unfold spawn
  split
  · rfl
  · exact locks_modifyGeneration ..

/-- The tasks after the start of one in a generation that takes it. -/
theorem tasks_spawn {v : View} {n : Nat} (h : v.isDestroyed n = false) (description : String)
    (context : Context) (job : Job) (u : TaskId) :
    (v.spawn n description context job).tasks u =
      if u = v.taskCount then some ⟨some job, false, false⟩ else v.tasks u := by
  unfold spawn
  rw [if_neg (by rw [h]; exact Bool.false_ne_true), tasks_modifyGeneration, tasks_addTask]

/-- Every task has a number below the number of tasks. -/
def TasksNumbered (v : View) : Prop := ∀ t s, v.tasks t = some s → t < v.taskCount

/-- A task stays as it is when others are started. -/
theorem tasks_spawn_of_some (h : v.TasksNumbered) {u : TaskId} {s : Standing}
    (hs : v.tasks u = some s) (n : Nat) (description : String) (context : Context) (job : Job) :
    (v.spawn n description context job).tasks u = some s := by
  cases hn : v.isDestroyed n with
  | true =>
    unfold spawn
    rwa [if_pos hn]
  | false => rwa [tasks_spawn hn, if_neg (Nat.ne_of_lt (h u s hs))]

theorem le_addTask (h : v.TasksNumbered) (job : Option Job) : v ≤ v.addTask job where
  issued := Nat.le_refl _
  taskCount := Nat.le_succ _
  locks := .refl _
  task t s hs := by
    rw [tasks_addTask, if_neg (Nat.ne_of_lt (h t s hs))]
    exact ⟨s, hs, rfl, id, id⟩
  generation _ s hs := ⟨s, hs, rfl, id⟩

theorem le_spawn (h : v.TasksNumbered) (n : Nat) (description : String) (context : Context)
    (job : Job) : v ≤ v.spawn n description context job := by
  unfold spawn
  split
  · exact le_refl v
  · exact le_trans (le_addTask h _) (le_modifyGeneration _ n _ fun _ => ⟨rfl, id⟩)

end View

theorem World.view_spawn (w : World) (n : Nat) (description : String) (context : Context)
    (job : Job) :
    (w.spawn n description context job).2.view = w.view.spawn n description context job := by
  unfold World.spawn View.spawn
  rw [show w.isDestroyed n = w.view.isDestroyed n from rfl]
  split
  · rfl
  · simp only
    rw [view_modifyGeneration, view_newTask]
    congr 1
    funext s
    simp only [isEnded_eq, view_newTask, View.isEnded]
    rfl

/-! ## Facts that stay -/

/-- Keys that do not belong to a procedure. -/
def IsPlainKey (key : String) : Prop := key.toList.head? ≠ some 'p'

theorem isPlainKey_broadcast (m : String) : IsPlainKey (LockKey.broadcast m).text := by
  change ("broadcast:" ++ m).toList.head? ≠ _
  simp

theorem isPlainKey_variableWrite (id : String) : IsPlainKey (LockKey.variableWrite id).text := by
  change ("variable:" ++ id).toList.head? ≠ _
  simp

theorem isPlainKey_value (b : String) : IsPlainKey (LockKey.value b).text := by
  change ("value:" ++ b).toList.head? ≠ _
  simp

theorem isPlainKey_event (b : String) : IsPlainKey (LockKey.event b).text := by
  change ("event:" ++ b).toList.head? ≠ _
  simp

theorem procedure_not_plain (σ : String) : ¬ IsPlainKey (LockKey.procedure σ).text := by
  change ¬ ("procedure:" ++ signatureHash σ).toList.head? ≠ _
  simp

theorem procedureReturn_not_plain (σ : String) : ¬ IsPlainKey (LockKey.procedureReturn σ).text := by
  change ¬ ("procedure_return:" ++ signatureHash σ).toList.head? ≠ _
  simp

theorem procedureReturn_ne_procedure (σ τ : String) :
    (LockKey.procedureReturn σ).text ≠ (LockKey.procedure τ).text := by
  change "procedure_return:" ++ signatureHash σ ≠ "procedure:" ++ signatureHash τ
  intro h
  have hchar := congrArg (fun s => s.toList[9]?) h
  simp only [String.toList_append] at hchar
  rw [List.getElem?_append_left (by decide), List.getElem?_append_left (by decide)] at hchar
  exact absurd hchar (by decide)

namespace View

/-- A generation of the tab it says. -/
def Known (v : View) (g : Generation) : Prop :=
  ∃ s, v.generation? g.number = some s ∧ s.tab = g.tab

/-- A task that stands for a caller of the supervisor. -/
def IsCaller (v : View) (t : TaskId) : Prop := ∃ s, v.tasks t = some s ∧ s.job = none

/-- A lock of a tab that does not belong to a procedure. -/
def IsPlain (v : View) (tab : String) (l : LockId) : Prop :=
  ∃ x, v.locks.lock? l = some x ∧ x.tab = tab ∧ IsPlainKey x.key

/-- The lock of a tab and a key. -/
def IsLockOf (v : View) (tab : String) (key : LockKey) (l : LockId) : Prop :=
  ∃ x, v.locks.lock? l = some x ∧ x.tab = tab ∧ x.key = key.text

/-- The two locks of a procedure in a tab. The second is not released before the first. -/
def Paired (v : View) (tab signature : String) (calls returns : LockId) : Prop :=
  ∃ x y, v.locks.lock? calls = some x ∧ v.locks.lock? returns = some y ∧ x.tab = tab ∧
    y.tab = tab ∧ x.key = (LockKey.procedure signature).text ∧
    y.key = (LockKey.procedureReturn signature).text ∧ (y.released = true → x.released = true)

variable {v v' : View}

theorem Known.mono {g : Generation} (h : v.Known g) (hle : v ≤ v') : v'.Known g := by
  obtain ⟨s, hs, ht⟩ := h
  obtain ⟨s', hs', ht', -⟩ := hle.generation _ s hs
  exact ⟨s', hs', ht'.trans ht⟩

theorem IsCaller.mono {t : TaskId} (h : v.IsCaller t) (hle : v ≤ v') : v'.IsCaller t := by
  obtain ⟨s, hs, hj⟩ := h
  obtain ⟨s', hs', hj', -⟩ := hle.task t s hs
  exact ⟨s', hs', hj'.trans hj⟩

theorem IsPlain.mono {tab : String} {l : LockId} (h : v.IsPlain tab l) (hle : v ≤ v') :
    v'.IsPlain tab l := by
  obtain ⟨x, hx, htab, hkey⟩ := h
  obtain ⟨x', hx', htab', hkey', -⟩ := hle.locks.lock l x hx
  exact ⟨x', hx', htab'.trans htab, hkey' ▸ hkey⟩

theorem IsLockOf.mono {tab : String} {key : LockKey} {l : LockId} (h : v.IsLockOf tab key l)
    (hle : v ≤ v') : v'.IsLockOf tab key l := by
  obtain ⟨x, hx, htab, hkey⟩ := h
  obtain ⟨x', hx', htab', hkey', -⟩ := hle.locks.lock l x hx
  exact ⟨x', hx', htab'.trans htab, hkey'.trans hkey⟩

theorem IsLockOf.plain {tab : String} {key : LockKey} {l : LockId} (h : v.IsLockOf tab key l)
    (hkey : IsPlainKey key.text) : v.IsPlain tab l := by
  obtain ⟨x, hx, htab, hk⟩ := h
  exact ⟨x, hx, htab, hk ▸ hkey⟩

theorem Paired.mono {tab signature : String} {calls returns : LockId}
    (h : v.Paired tab signature calls returns) (hle : v ≤ v') :
    v'.Paired tab signature calls returns := by
  obtain ⟨x, y, hx, hy, hxtab, hytab, hxkey, hykey, hr⟩ := h
  obtain ⟨x', hx', hxtab', hxkey', hxr⟩ := hle.locks.lock calls x hx
  obtain ⟨y', hy', hytab', hykey', -⟩ := hle.locks.lock returns y hy
  refine ⟨x', y', hx', hy', hxtab'.trans hxtab, hytab'.trans hytab, hxkey'.trans hxkey,
    hykey'.trans hykey, fun hy'r => ?_⟩
  rcases hle.locks.together tab with hall | hall
  · cases hyr : y.released with
    | true => exact hxr (hr hyr)
    | false =>
      obtain ⟨y'', hy'', hr''⟩ := hall returns y hy hytab hyr
      obtain rfl : y' = y'' := Option.some.inj (hy'.symm.trans hy'')
      rw [hy'r] at hr''
      exact absurd hr'' (by simp)
  · obtain ⟨x'', hx'', hr''⟩ := hall calls x hx hxtab
    obtain rfl : x' = x'' := Option.some.inj (hx'.symm.trans hx'')
    exact hr''

end View

/-! ## What is left to be done later -/

/-- A job of one generation. -/
def Job.Coherent (v : View) : Job → Prop
  | .root s | .chain s => v.Known s.generation
  | .chainIf hat _ _ next => v.Known hat.generation ∧ next.generation = hat.generation
  | .body s _ _ returns =>
    v.Known s.generation ∧ ∃ signature calls, v.Paired s.tab signature calls returns
  | .stopAfter .. => True
  | .watch s lock _ _ => v.Known s.generation ∧ v.IsPlain s.tab lock

/-- Whether a job is the body of a procedure. -/
def Job.isBody : Job → Bool
  | .body .. => true
  | _ => false

/-- A reaction to the lock `l` of one generation: the lock is of the tab and of the key that the
block listens to. -/
def Reaction.Coherent (env : Environment) (v : View) (l : LockId) : Reaction → Prop
  | .start hat =>
    v.Known hat.generation ∧
      v.IsLockOf hat.tab (.broadcast (hat.block.fieldRef "BROADCAST_OPTION")) l
  | .keepAndStart hat | .keepAndStartIf hat _ =>
    v.Known hat.generation ∧ v.IsLockOf hat.tab (.variableWrite (Library.variableId hat)) l
  | .link .. => ∃ tab source, v.IsLockOf tab (.value source) l
  | .runBody d arguments returns =>
    ∃ signature m, Library.definitionSignature env d = .ok (m, signature) ∧
      arguments = m.arguments ∧ v.Known d.generation ∧ v.Paired d.tab signature l returns
  | .keepAndRun owner body =>
    v.Known owner.generation ∧ v.IsLockOf owner.tab (.event owner.id) l ∧
      body.generation = owner.generation
  | .host .. => False

/-- A routine of one generation. -/
def Routine.Coherent (v : View) (g : Generation) : Routine → Prop
  | .chain _ s => s.generation = g
  | .loop l _ => l.site.generation = g ∧ l.body.generation = g
  | .waitUntil s lock => s.generation = g ∧ v.IsPlain g.tab lock
  | .watch s lock _ _ _ => s.generation = g ∧ v.IsPlain g.tab lock

section
variable {v v' : View} {env : Environment}

theorem Job.Coherent.mono {j : Job} (h : j.Coherent v) (hle : v ≤ v') : j.Coherent v' := by
  cases j with
  | root s | chain s => exact View.Known.mono h hle
  | chainIf hat operator value next => exact ⟨h.1.mono hle, h.2⟩
  | body s arguments request returns =>
    obtain ⟨hg, σ, calls, hp⟩ := h
    exact ⟨hg.mono hle, σ, calls, hp.mono hle⟩
  | stopAfter => trivial
  | watch s lock input kind => exact ⟨h.1.mono hle, h.2.mono hle⟩

theorem Reaction.Coherent.mono {l : LockId} {r : Reaction} (h : r.Coherent env v l)
    (hle : v ≤ v') : r.Coherent env v' l := by
  cases r with
  | start hat | keepAndStart hat | keepAndStartIf hat operator =>
    exact ⟨h.1.mono hle, h.2.mono hle⟩
  | link id asTruth =>
    obtain ⟨tab, source, h⟩ := h
    exact ⟨tab, source, h.mono hle⟩
  | runBody d arguments returns =>
    obtain ⟨σ, m, hd, ha, hg, hp⟩ := h
    exact ⟨σ, m, hd, ha, hg.mono hle, hp.mono hle⟩
  | keepAndRun owner body => exact ⟨h.1.mono hle, h.2.1.mono hle, h.2.2⟩
  | host => exact h

/-- What does not run the body of a procedure listens to a lock that belongs to no procedure. -/
theorem Reaction.Coherent.plain_or_runBody {l : LockId} {r : Reaction} (h : r.Coherent env v l) :
    (∃ tab, v.IsPlain tab l) ∨ ∃ d arguments returns, r = .runBody d arguments returns := by
  cases r with
  | start hat => exact .inl ⟨_, h.2.plain (isPlainKey_broadcast _)⟩
  | keepAndStart hat | keepAndStartIf hat operator =>
    exact .inl ⟨_, h.2.plain (isPlainKey_variableWrite _)⟩
  | link id asTruth =>
    obtain ⟨tab, source, hl⟩ := h
    exact .inl ⟨tab, hl.plain (isPlainKey_value source)⟩
  | runBody d arguments returns => exact .inr ⟨d, arguments, returns, rfl⟩
  | keepAndRun owner body => exact .inl ⟨_, h.2.1.plain (isPlainKey_event _)⟩
  | host name act => exact h.elim

theorem Routine.Coherent.mono {g : Generation} {r : Routine} (h : r.Coherent v g)
    (hle : v ≤ v') : r.Coherent v' g := by
  cases r with
  | chain | loop => exact h
  | waitUntil s lock | watch s lock => exact ⟨h.1, h.2.mono hle⟩

end
end BlockEngine
