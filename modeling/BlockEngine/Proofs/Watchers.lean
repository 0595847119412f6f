import BlockEngine.Proofs.Calls
import BlockEngine.Proofs.Unwinding
import BlockEngine.Proofs.Watching

/-!
# Watchers in runs

A block that watches an input is handled once in its generation. From then on its event lock belongs
to one watcher: nobody else signals it, and nobody but the block reacts.

* `World.Aloof` : a change after which no more listen to a lock or watch for it;
* `Limits.aloof` : all but the blocks that watch with the lock keep to that;
* `Run.aloof` : so does a run of a tab that was cleared, up to the block;
* `Watch.Engaged` : a watcher is at work, and everything else keeps away from its lock.
-/

namespace BlockEngine

variable {e : Engine} {t : TaskId} {l : LockId} {w w' w'' : World} {s : Site} {tab block : String}
  {log log' log₀ log₁ log₂ log₃ : List Deed}
  {m m₀ m₁ m₂ m₃ m₄ m' m'' : Machine} {capacity : Nat}

/-! ## Steps that leave a lock to those who have it -/

theorem World.job?_eq (w : World) (t : TaskId) : w.job? t = (w.view.tasks t).bind (·.job) := by
  rw [World.view_tasks]
  unfold World.job?
  cases w.task? t <;> rfl

/-- The reactions of a lock are some of those it had. -/
theorem World.sublist_subscribed (h : ∀ y', w'.locks.lock? l = some y' →
    y'.subscriptions = [] ∨ ∃ y, w.locks.lock? l = some y ∧
      y'.subscriptions.Sublist y.subscriptions) :
    (w'.subscribed l).Sublist (w.subscribed l) := by
  unfold World.subscribed
  cases hy' : w'.locks.lock? l with
  | none => exact List.nil_sublist _
  | some y' =>
    rcases h y' hy' with hnil | ⟨y, hy, hsub⟩
    · simp [hnil]
    · rw [hy]
      exact hsub.map _

/-- Nobody listens to a lock who did not, and no task watches with it that did not. -/
structure World.Aloof (l : LockId) (w w' : World) : Prop where
  heard : (w'.subscribed l).Sublist (w.subscribed l)
  watched : ∀ t s input kind, w'.job? t = some (.watch s l input kind) →
    w.job? t = some (.watch s l input kind)

namespace World.Aloof

theorem refl (w : World) : Aloof l w w := ⟨.refl _, fun _ _ _ _ h => h⟩

theorem trans (h : Aloof l w w') (h' : Aloof l w' w'') : Aloof l w w'' :=
  ⟨h'.heard.trans h.heard, fun t s input kind hj =>
    h.watched t s input kind (h'.watched t s input kind hj)⟩

theorem of_tasks (hheard : (w'.subscribed l).Sublist (w.subscribed l))
    (htasks : w'.view.tasks = w.view.tasks) : Aloof l w w' where
  heard := hheard
  watched t s input kind h := by rwa [job?_eq, htasks, ← job?_eq] at h

theorem of_eq (hlocks : w'.locks = w.locks) (htasks : w'.view.tasks = w.view.tasks) :
    Aloof l w w' := .of_tasks (by unfold subscribed; rw [hlocks]) htasks

theorem of_view (h : w'.view = w.view) : Aloof l w w' :=
  .of_eq (congrArg View.locks h) (congrArg View.tasks h)

theorem modifyTask (w : World) (t : TaskId) {f : TaskRecord → TaskRecord}
    (hf : ∀ r, (f r).job = r.job) : Aloof l w (w.modifyTask t f) where
  heard := by
    have hlocks : (w.modifyTask t f).locks = w.locks := by
      unfold World.modifyTask
      split <;> rfl
    unfold subscribed
    rw [hlocks]
  watched u s input kind h := by
    unfold job? at h ⊢
    rw [task?_modifyTask] at h
    split at h
    · next hu =>
      subst hu
      cases hr : w.task? u with
      | none => rw [hr] at h; cases h
      | some r =>
        rw [hr] at h
        exact (hf r).symm.trans h
    · exact h

theorem addTask {j : Option Job} (hlocks : w'.locks = w.locks)
    (hview : w'.view = w.view.addTask j)
    (hj : ∀ s input kind, j ≠ some (.watch s l input kind)) : Aloof l w w' where
  heard := by unfold subscribed; rw [hlocks]
  watched u s input kind h := by
    rw [job?_eq, hview] at h
    rw [job?_eq]
    change (if u = w.view.taskCount then some (⟨j, false, false⟩ : Standing) else w.view.tasks u).bind
      (·.job) = _ at h
    split at h
    · exact absurd h (hj s input kind)
    · exact h

theorem obtain (w : World) (tab owner key : String) :
    Aloof l w (w.withLocks (·.obtain tab owner key)).2 :=
  .of_tasks (sublist_subscribed fun y' hy' => by
    rcases LockTable.lock?_obtain hy' with hy | rfl
    · exact .inr ⟨y', hy, .refl _⟩
    · exact .inl rfl) rfl

theorem register (w : World) (l' : LockId) (f : SignalFilter) :
    Aloof l w (w.withLocks (·.register l' f)).2 :=
  .of_tasks (sublist_subscribed fun y' (hy' : (w.locks.register l' f).2.lock? l = some y') => by
    by_cases hl : l = l'
    · subst hl
      cases hy : w.locks.lock? l with
      | none =>
        rw [LockTable.register_of_none hy] at hy'
        exact nomatch hy.symm.trans hy'
      | some y =>
        obtain ⟨ws, hy'', -⟩ := LockTable.lock?_register hy f
        obtain rfl := Option.some.inj (hy''.symm.trans hy')
        exact .inr ⟨y, rfl, .refl _⟩
    · rw [LockTable.lock?_register_of_ne hl] at hy'
      exact .inr ⟨y', hy', .refl _⟩) rfl

theorem deliver (w : World) (l' : LockId) (v : Json) :
    Aloof l w (w.withLocks (·.deliver l' v)).2 :=
  .of_tasks (sublist_subscribed fun y' hy' => by
    obtain ⟨y, hy, value, ws, rfl, -⟩ := LockTable.lock?_deliver hy'
    exact .inr ⟨y, hy, .refl _⟩) rfl

theorem unsubscribe (w : World) (l' : LockId) (id : SubscriptionId) :
    Aloof l w (w.withLocks (·.unsubscribe l' id)).2 :=
  .of_tasks (sublist_subscribed fun y' (hy' : (w.locks.unsubscribe l' id).2.lock? l = some y') => by
    unfold LockTable.unsubscribe at hy'
    rw [LockTable.lock?_modify] at hy'
    split at hy'
    · obtain ⟨y, hy, rfl⟩ := Option.map_eq_some_iff.1 hy'
      exact .inr ⟨y, hy, List.filter_sublist⟩
    · exact .inr ⟨y', hy', .refl _⟩) rfl

theorem releaseLocks (w : World) (ls : List LockId) {locks : LockTable Reaction}
    (h : ∀ l, locks.lock? l = if l ∈ ls then (w.locks.lock? l).map Lock.ended else w.locks.lock? l) :
    Aloof l w { w with locks } :=
  .of_tasks (sublist_subscribed fun y' hy' => by
    rw [h] at hy'
    split at hy'
    · obtain ⟨y, -, rfl⟩ := Option.map_eq_some_iff.1 hy'
      exact .inl rfl
    · exact .inr ⟨y', hy', .refl _⟩) rfl

theorem modifyGeneration (w : World) (n : Nat) (f : GenerationState → GenerationState) :
    Aloof l w (w.modifyGeneration n f) := by
  unfold World.modifyGeneration
  split
  · exact .of_eq rfl rfl
  · exact .refl w

theorem spawn (w : World) (n : Nat) (d : String) (c : Context) {j : Job}
    (hj : ∀ s input kind, j ≠ .watch s l input kind) : Aloof l w (w.spawn n d c j).2 := by
  unfold World.spawn
  split
  · exact .refl w
  · have hnew : Aloof l w (w.newTask j).2 := .addTask rfl (World.view_newTask w j)
      fun s input kind h => hj s input kind (Option.some.inj h)
    exact hnew.trans (modifyGeneration ..)

/-- Who listens to another lock. -/
theorem listen {l' : LockId} (w : World) (hl : l ≠ l') (r : Reaction) (n : Nat) (block : String)
    (x : Listener) : Aloof l w ((w.withLocks (·.subscribe l' .all r)).2.addListener n block x) := by
  have hsubscribe : Aloof l w (w.withLocks (·.subscribe l' .all r)).2 :=
    .of_tasks (sublist_subscribed fun y' hy' =>
      .inr ⟨y', (LockTable.lock?_subscribe_of_ne hl .all r).symm.trans hy', .refl _⟩) rfl
  exact hsubscribe.trans (modifyGeneration ..)

/-- Whatever keeps the tasks and closes a mailbox at most. -/
theorem of_spec (hlocks : w'.view.locks = w.locks ∨ ∃ m, w'.view.locks = w.locks.close m)
    (htasks : w'.view.tasks = w.view.tasks) : Aloof l w w' := by
  rcases hlocks with hlocks | ⟨m, hlocks⟩
  · exact .of_eq hlocks htasks
  · refine .of_tasks (sublist_subscribed fun y' hy' => ?_) htasks
    have hlock : w'.view.locks.lock? l = (w.locks.close m).lock? l := by rw [hlocks]
    exact .inr ⟨y', hlock.symm.trans hy', .refl _⟩

theorem settle (w : World) (t : TaskId) (p : Pause) : Aloof l w (w.settle t p) := by
  have hview := World.view_settle w t p
  cases p with
  | mail m d => exact .of_spec (.inr ⟨m, by rw [hview]⟩) (by rw [hview])
  | _ => exact .of_spec (.inl (by rw [hview]; rfl)) (by rw [hview])

theorem forsake (w : World) (t : TaskId) (p : Execution Unit) :
    Aloof l w (Machine.forsake w t p) := by
  obtain ⟨holder, locks, hview, -, hlocks⟩ := World.view_forsake w t p
  refine .of_spec ?_ (by rw [hview])
  rw [hview]
  rcases hlocks with rfl | ⟨m, -, -, -, rfl⟩
  · exact .inl rfl
  · exact .inr ⟨m, rfl⟩

theorem finish (w : World) (t : TaskId) : Aloof l w (w.finish t) := by
  obtain ⟨holder, hview, -⟩ := World.view_yieldTurn_spec w t
  have hyield : Aloof l w (w.yieldTurn t) :=
    .of_spec (.inl (by rw [hview]; rfl)) (by rw [hview])
  have hended := modifyTask (l := l) (w.yieldTurn t) t
    (f := fun r => { r with ended := true, observers := [] }) fun _ => rfl
  exact (hyield.trans hended).trans (.of_view (World.view_wakeAll _ _))

end World.Aloof

/-- What leaves a lock of the event of a block to those who have it. -/
def Limits.aloof (e : Engine) (l : LockId) (tab block : String) : Limits where
  Fits := World.Places e l tab (.event block)
  Allows := World.Aloof l
  Signals _ := True
  Evaluates _ := True
  Runs _ := True
  Exempts _ := False

open World in
instance : BlockLimits (.aloof e l tab block) where
  refl := Aloof.refl
  trans := Aloof.trans
  fresh _ := .of_eq rfl rfl
  modifyGeneration := Aloof.modifyGeneration
  newTask w j hj := .addTask rfl (World.view_newTask w j) fun s input kind h => by
    cases h
    cases hj
  wake w t := .of_view (World.view_wake w t)
  modifyTask w t f hf := .modifyTask w t fun r => (hf r).1
  notifications _ _ := .of_eq rfl rfl
  obtain := Aloof.obtain
  register := Aloof.register
  close w m := .of_spec (.inr ⟨m, rfl⟩) rfl
  deliver := Aloof.deliver
  settle := Aloof.settle
  evaluates _ := trivial
  runs _ := trivial
  watches _ := ⟨trivial, fun _ => trivial⟩

open World in
instance : SupervisorLimits (.aloof e l tab block) where
  release w _ := .releaseLocks w _ (LockTable.lock?_releaseLocks _ _)
  releaseAll w := .releaseLocks w _ (LockTable.lock?_releaseLocks _ _)
  unsubscribe := Aloof.unsubscribe
  note _ _ _ := .of_eq rfl rfl
  declare _ _ _ _ := .of_eq rfl rfl
  once _ := trivial
  newGeneration _ _ _ _ := .of_eq rfl rfl
  tabs _ _ := .of_eq rfl rfl
  turn _ _ := .of_eq rfl rfl

open World in
instance : MoveLimits (.aloof e l tab block) where
  finish := Aloof.finish
  forsake := Aloof.forsake
  reschedule h := .of_view h.view
  newCaller w := .addTask rfl (World.view_newCaller w) nofun

theorem Limits.opens_aloof (key : LockKey) : (Limits.aloof e l tab block).Opens key where
  found _ _ _ _ _ := trivial
  across _ _ _ _ := trivial
  obtained _ _ _ _ _ := trivial

/-! ## The block itself -/

/-- A block of a tab that watches an input when it runs. -/
def Site.WatchesAs (s : Site) (tab block : String) : Prop :=
  s.tab = tab ∧ s.id = block ∧ ∃ input kind, Library.Watches s.block.opcode input kind

/-- Who obtains the lock of an event asks for it: by the tab and the id of the block. -/
theorem World.Places.of_obtain {s' : Site} {key : LockKey}
    (h : (w.withLocks (·.obtain s'.tab s'.id key.text)).2.Places e l tab (.event block))
    (hs : w.view.Sound e) (hl : (w.withLocks (·.obtain s'.tab s'.id key.text)).1 = l) :
    s'.tab = tab ∧ key = .event block := by
  obtain ⟨y, hy, htab, hkey, -⟩ := hs.locks.obtain_spec s'.tab s'.id key.text
  obtain ⟨htab', hkey'⟩ := h.lock y (hl ▸ hy)
  refine ⟨htab.symm.trans htab', (LockKey.eq_of_text (hkey.symm.trans hkey')).resolve_right ?_⟩
  cases key <;> exact id

/-- Only the blocks that watch with the lock do not leave it alone. -/
theorem Limits.suits_aloof (h : ¬ s.WatchesAs tab block) :
    (Limits.aloof e l tab block).Suits s s.block.opcode := by
  have hwrite : ∀ id v, (Execution.writeVariable id v).Within (Limits.aloof e l tab block) :=
    fun id => .writeVariable (opens_aloof _) fun _ _ => .of_eq rfl rfl
  -- A lock obtained for another block is another one.
  have hother : ∀ key r, Library.Listens s s.block.opcode key r → ∀ w : World,
      w.Places e l tab (.event block) →
      (w.withLocks (·.obtain s.tab s.id key.text)).2.Places e l tab (.event block) →
      (w.withLocks (·.obtain s.tab s.id key.text)).1 ≠ l := by
    rintro key r hr w hw hw' rfl
    obtain ⟨htab, rfl⟩ := hw'.of_obtain hw.sound rfl
    cases hr with
    | valueWatch body ho => exact h ⟨htab, rfl, _, _, .value ho⟩
    | conditionWatch body ho => exact h ⟨htab, rfl, _, _, .condition ho⟩
  exact {
    keeps := .setValue s.generation (opens_aloof _) valueKey
    sets := fun _ => hwrite _
    adds := fun _ _ => .look_bind fun _ _ => (hwrite _ _).bind fun _ => .done ()
    listens := fun key r hr w hw hw' => .change fun w₁ _ _ =>
      .listen w₁ (hother key r hr w hw hw').symm r s.generation.number s.id _
    sends := fun _ _ => opens_aloof _
    calls := fun _ _ => opens_aloof _
    watches := fun input kind hkind w hw hw' => .atomically fun w₁ _ _ =>
      have hfresh : World.Aloof l w₁ w₁.fresh.2 := .of_eq rfl rfl
      hfresh.trans (World.Aloof.spawn _ _ _ _ fun s' input' kind' hj =>
        hother _ _ (hkind.listens s s) w hw hw' (Job.watch.inj hj).2.1) }

/-! ## Runs that leave the lock alone -/

variable {X : TaskId → Prop} {φ : TaskId → Stage} {ψ : TaskId → Stance}

theorem World.HoldsLock.places {key : LockKey} (h : w.HoldsLock tab key l) (hs : w.view.Sound e) :
    w.Places e l tab key where
  sound := hs
  lock y hy := by
    obtain ⟨y', hy', htab, hkey, -⟩ := h
    obtain rfl := Option.some.inj (hy.symm.trans hy')
    exact ⟨htab, hkey⟩

/-- What a lock belongs to, it belonged to before. -/
theorem World.Places.of_le {key : LockKey} (h : w'.Places e l tab key) (hs : w.view.Sound e)
    (hle : w.view ≤ w'.view) : w.Places e l tab key where
  sound := hs
  lock y hy := by
    obtain ⟨y', hy', htab, hkey, -⟩ := hle.locks.lock l y hy
    exact ⟨htab.symm.trans (h.lock y' hy').1, hkey.symm.trans (h.lock y' hy').2⟩

theorem Job.Coherent.known_of_home {j : Job} {v : View} {g : Generation} (h : j.Coherent v)
    (hg : j.home? = some g) : v.Known g := by
  cases j with
  | root s | chain s => exact Option.some.inj hg ▸ h
  | chainIf | body | watch => exact Option.some.inj hg ▸ h.1
  | stopAfter => cases hg

/-- Who enters a block is a task of its generation, or a caller, which enters only blocks that run
once. -/
theorem Run.entered (he : e.HasCore) (hrun : Run e (.start capacity) log m) {p : Execution Unit}
    (hp : m.threads[t]? = some p) (hs : p.Enters s) :
    Library.isOnce s.block.opcode = true ∨ ∃ j, m.world.job? t = some j ∧
      m.world.view.Known s.generation ∧ j.owner = s.generation.number := by
  obtain ⟨φ, ψ, hc⟩ := Conducted.run (Engine.orderly_of_core he) hrun
  obtain ⟨x, hx, hfits, hhome⟩ := hc.home_of_enters hp hs
  cases hj : x.job with
  | none =>
    obtain ⟨r, hr, rfl⟩ := Option.map_eq_some_iff.1 hx
    exact .inl (hrun.caller_enters he ⟨r, hr, hj⟩ hp hs)
  | some j =>
    rw [hj] at hfits
    have hjhome : j.home? = some s.generation := (congrArg Stage.home hfits).symm.trans hhome
    refine .inr ⟨j, ?_, (hc.sound.jobs t x j hx hj).known_of_home hjhome, Job.owner_of_home hjhome⟩
    rw [World.job?_eq, hx]
    exact hj

/-- A run in which no block watches with the lock is within the limits. -/
theorem Limits.governs_aloof (he : e.HasCore) (hc : Conducted e log₀ m φ ψ)
    (hplaces : m'.world.Places e l tab (.event block))
    (henters : ∀ t p w s, .performed t p w ∈ log → ¬ X t → p.Enters s → ¬ s.WatchesAs tab block) :
    (Limits.aloof e l tab block).Governs e X m log m' := by
  exact {
    strict := fun _ h => h
    fits := fun log₁ m₁ log₂ h₁ h₂ => by
      obtain ⟨φ₁, ψ₁, hc₁, -⟩ := hc.extend (Engine.orderly_of_core he) h₁
      obtain ⟨-, -, -, hle⟩ := hc₁.extend (Engine.orderly_of_core he) h₂
      exact hplaces.of_le hc₁.sound hle
    enters := fun t p w s hd hX hs => he.withinAt (suits_aloof (henters t p w s hd hX hs))
    reacts := fun w l v hw _ r hr => Engine.within_react
      (fun s _ => .setValue s.generation (opens_aloof _) valueKey)
      (fun _ _ _ => .writeVariable (opens_aloof _) fun _ _ => .of_eq rfl rfl)
      (World.ne_host_of_mem hw.sound hr) v
    works := fun t j _ _ => Engine.within_work
      (fun s _ _ _ _ => ⟨.setValue s.generation (opens_aloof _) valueKey, trivial⟩)
      fun _ _ _ _ _ => trivial }

/-- A run in which no block watches with the lock leaves it to those who have it. The tasks `X`, which
are not held to that, take no step in it. -/
theorem Run.aloof (he : e.HasCore) (hc : Conducted e log₀ m φ ψ) (hrun : Run e m log m')
    (hplaces : m'.world.Places e l tab (.event block))
    (hothers : ∀ t p w, .performed t p w ∈ log → ¬ X t)
    (henters : ∀ t p w s, .performed t p w ∈ log → p.Enters s → ¬ s.WatchesAs tab block)
    (hstart : ∀ t (p : Execution Unit), ¬ X t → m.threads[t]? = some p →
      p.Within (.aloof e l tab block)) :
    m.world.Aloof l m'.world ∧ ∀ t (p : Execution Unit), ¬ X t → m'.threads[t]? = some p →
      p.Within (.aloof e l tab block) := by
  obtain ⟨hthreads, hdeeds⟩ := hrun.within (Engine.orderly_of_core he) hc
    (Limits.governs_aloof he hc hplaces fun t p w s hd _ => henters t p w s hd) hstart
  refine ⟨Run.allows (L := .aloof e l tab block) hrun fun t p w q w' hd hstep => ?_, hthreads⟩
  exact (hdeeds _ hd (hothers t p w hd)).2 q w' hstep

theorem Library.Watches.not_once {o : Opcode} {input : String} {kind : WatchKind}
    (h : Watches o input kind) : isOnce o = false := by
  cases h with
  | value ho | condition ho => rw [ho]; decide

/-- After a tab has been cleared, nothing that goes on watches with a lock of it. -/
theorem Run.within_cleared (he : e.HasCore) (hrun : Run e (.start capacity) log m)
    (hcleared : m.world.Cleared tab) (hplaces : m.world.Places e l tab (.event block))
    {p : Execution Unit} (hp : m.threads[t]? = some p) : p.Within (.aloof e l tab block) := by
  have horderly := Engine.orderly_of_core he
  obtain ⟨φ, ψ, hc⟩ := Conducted.run horderly hrun
  -- Only the tasks of the tab are not held to it.
  let X : TaskId → Prop := fun t => ∃ j gs, m.world.job? t = some j ∧
    m.world.view.generation? j.owner = some gs ∧ gs.tab = tab
  have hwithin := hrun.within horderly (.start e capacity) (X := X)
    (Limits.governs_aloof he (.start e capacity) hplaces fun t p w s hd hX hs hwatches => ?_)
    fun t p _ hp => ?_
  · refine hwithin.1 t p (fun hX => ?_) hp
    obtain ⟨j, gs, hj, hgs, htab⟩ := hX
    obtain ⟨x, hx, hend, -⟩ := (hc.task t).carries p hp
    obtain ⟨r, hr, rfl⟩ := Option.map_eq_some_iff.1 hx
    obtain ⟨r', hr', hrj⟩ := Option.bind_eq_some_iff.1 hj
    obtain rfl := Option.some.inj (hr.symm.trans hr')
    exact hcleared.quiet t j gs ⟨r, hr, hrj, hend⟩ hgs htab
  · obtain ⟨htab, -, input, kind, hkind⟩ := hwatches
    obtain ⟨log₁, log₂, rfl⟩ := List.append_of_mem hd
    obtain ⟨m₁, m₂, hbefore, hmove, hafter⟩ := hrun.split
    cases hmove with
    | perform hp hstep =>
      rcases hbefore.entered he hp hs with honce | ⟨j, hj, ⟨gs, hgs, hgtab⟩, howner⟩
      · exact nomatch honce.symm.trans hkind.not_once
      · obtain ⟨φ₁, ψ₁, hc₁⟩ := Conducted.run horderly hbefore
        obtain ⟨-, -, -, hle⟩ := hc₁.extend horderly ((Run.single (.perform hp hstep)).trans hafter)
        obtain ⟨gs', hgs', hgtab', -⟩ := hle.generation _ gs hgs
        exact hX ⟨j, gs', World.job?_of_le hle hj, howner ▸ hgs', hgtab'.trans (hgtab.trans htab)⟩
  · change (∅ : Std.ExtTreeMap TaskId (Execution Unit))[t]? = some p at hp
    simp at hp

/-! ## A block that watches is handled -/

namespace Engine

/-- How the evaluation of a command ends: its result is null. -/
def afterEvaluation (s : Site) : Except EngineError Signal → Execution (Except EngineError Json)
  | .ok _ => (keep s valueKey .null).bind fun _ => .done (.ok .null)
  | .error err => .done (.error (s.annotate err))

theorem IsCommand.run_evaluation {run : StatementHandler} (h : e.IsCommand s run) :
    ExceptT.run (e.evaluation s) = (ExceptT.run (run e.environment s)).bind (afterEvaluation s) := by
  obtain ⟨⟨opcode, behaviour, menus⟩, hb, rfl⟩ := h
  unfold evaluation
  rw [hb]
  change (((ExceptT.run (run e.environment s)).bind _).bind _).bind _ = _
  rw [Execution.bind_assoc, Execution.bind_assoc]
  congr 1
  funext r
  cases r with
  | ok =>
    change ((keep s valueKey .null).bind _).bind _ = _
    rw [Execution.bind_assoc]
    rfl
  | error err => rfl

/-- A command that is entered runs, and then comes what was left to do. -/
theorem IsCommand.step_of_enters {run : StatementHandler} (h : e.IsCommand s run)
    {p : Execution Unit} (hs : p.Enters s) :
    ∃ k, (∀ t w, e.step t w p = some ((ExceptT.run (run e.environment s)).bind k, w)) ∧
      ∀ (L : Limits) [BlockLimits L], (∀ {β : Type} (x : Execution β), ¬ L.Exempts x) →
        (∀ v, (keep s valueKey v).Within L) → p.Within L → ∀ r, (k r).Within L := by
  cases hs with
  | @evaluate g =>
    refine ⟨fun r => (afterEvaluation s r).bind g, fun t w => ?_, fun L _ hstrict hkeeps hp r => ?_⟩
    · rw [← Execution.bind_assoc, ← h.run_evaluation]
      rfl
    · have hg : ∀ r, (g r).Within L := by
        generalize hq : Execution.evaluate s g = q at hp
        cases hp with
        | evaluate _ hk => cases hq; exact hk
        | exempt hx => exact absurd hx (hstrict _)
        | _ => cases hq
      refine Execution.Within.bind ?_ hg
      cases r with
      | ok => exact (hkeeps _).bind fun _ => .done _
      | error err => exact .done _
  | @chain visited g hnew =>
    refine ⟨e.afterCommand visited s g, fun t w => h.step (by simpa using hnew) t w g,
      fun L _ hstrict hkeeps hp r => ?_⟩
    have hg : ∀ r, (g r).Within L := by
      generalize hq : Execution.run (.chain visited s) g = q at hp
      cases hp with
      | run _ hk => cases hq; exact hk
      | exempt hx => exact absurd hx (hstrict _)
      | _ => cases hq
    rcases r with err | ⟨_ | _⟩
    · exact hg _
    · cases hnext : s.next? e.settings.maxDepth with
      | none =>
        simp only [afterCommand, hnext]
        exact hg _
      | some next =>
        simp only [afterCommand, hnext]
        exact .run (BlockLimits.runs rfl) hg
    · exact hg _

end Engine

theorem Engine.HasCore.command_of_watches (he : e.HasCore) {input : String} {kind : WatchKind}
    (h : Library.Watches s.block.opcode input kind) :
    e.IsCommand s (Library.watchInput input kind) := by
  unfold Engine.IsCommand Engine.lookup
  rw [he]
  cases h with
  | value ho => rw [ho]; exact ⟨_, rfl, rfl⟩
  | condition ho => rw [ho]; exact ⟨_, rfl, rfl⟩

/-- A block with a body and an input obtains its event lock, listens to it and starts the watcher. -/
theorem Library.run_watchInput {env : Environment} {input : String} {kind : WatchKind} {body : Site}
    (hbody : s.inputBlock? env bodyInput = .ok (some body)) (hinput : s.hasInput input = true) :
    ExceptT.run (watchInput input kind env s) =
      (Execution.obtainLock s (.event s.id)).bind fun l =>
        (Execution.listen s l (.keepAndRun s body)).bind fun _ =>
          (Execution.spawnIn s fun _ => .watch s l input kind).bind fun _ => .done (.ok .proceed) := by
  unfold watchInput
  rw [withBody_of_some hbody, if_pos hinput]
  rfl

/-- A part of one step, between steps of others. -/
theorem Course.of_atomically {α : Type} {f : World → α × World} {k : α → Execution Unit} {a : α}
    (h : Course e t k m' m (.atomically f) log a) :
    ∃ m₁ log₁ log₂ q, log = log₁ ++ .performed t q m₁.world :: log₂ ∧ a = (f m₁.world).1 ∧
      Run e m log₁ m₁ ∧ (∀ d ∈ log₁, d.actor ≠ t) ∧
      Move e m₁ [.performed t q m₁.world] ⟨(f m₁.world).2, m₁.threads.insert t (k a)⟩ ∧
      Run e ⟨(f m₁.world).2, m₁.threads.insert t (k a)⟩ log₂ m' ∧ ∀ d ∈ log₂, d.actor ≠ t := by
  obtain ⟨m₁, log₁, log₂, q, w, rfl, hstep, hrun, hothers, hmove, hrun', hothers'⟩ :=
    h.of_single nofun fun w q w' hstep => ⟨_, (Prod.mk.inj (Option.some.inj hstep)).1.symm⟩
  obtain ⟨ha, rfl⟩ := Prod.mk.inj (Option.some.inj hstep)
  exact ⟨m₁, log₁, log₂, q, rfl, (Execution.done.inj ha).symm, hrun, hothers, hmove, hrun', hothers'⟩

/-- A generation that is known takes tasks as long as it is going to be recorded. -/
theorem Run.alive (he : e.Orderly) (hc : Conducted e log₀ m φ ψ) (hrun : Run e m log m')
    (hknown : m.world.view.Known s.generation)
    (hrec : m'.world.view.Records s.generation.number) :
    m.world.isDestroyed s.generation.number = false := by
  obtain ⟨φ', ψ', hc', hle⟩ := hc.extend he hrun
  obtain ⟨gs, hgs, -⟩ := hknown
  obtain ⟨gs', hgs', -, hdestroyed⟩ := hle.generation _ gs hgs
  have halive := hc'.supervised.alive _ hrec
  rw [View.isDestroyed_of_some hgs'] at halive
  rw [show m.world.isDestroyed s.generation.number = gs.destroyed from
    View.isDestroyed_of_some (v := m.world.view) hgs]
  exact Bool.eq_false_iff.2 fun h => nomatch halive.symm.trans (hdestroyed h)

namespace Watch

variable {x : Watch} {u : TaskId}

/-- A watcher is at work: the tab holds its lock, on which only its block listens, it is the only task
that watches with that, and everything else keeps away. -/
structure Engaged (e : Engine) (x : Watch) (u : TaskId) (m : Machine) : Prop where
  lock : m.world.HoldsLock x.site.tab (.event x.site.id) x.lock
  heard : m.world.subscribed x.lock = [x.reaction]
  known : m.world.view.Known x.site.generation
  job : m.world.job? u = some x.job
  only : ∀ t s input kind, m.world.job? t = some (.watch s x.lock input kind) → t = u
  threads : ∀ (t : TaskId) (p : Execution Unit), m.threads[t]? = some p →
    p.Within (.aloof e x.lock x.site.tab x.site.id)

/-- A watcher stays at work as long as its generation is going to be recorded. -/
theorem Engaged.kept (he : e.HasCore) (h : x.Engaged e u m) (hbefore : Run e (.start capacity) log₀ m)
    (hrun : Run e m log m') (hrest : Run e m' log' m'')
    (hrec : m''.world.view.Records x.site.generation.number)
    (henters : ∀ t p w s, .performed t p w ∈ log → p.Enters s →
      ¬ s.WatchesAs x.site.tab x.site.id) : x.Engaged e u m' := by
  have horderly := Engine.orderly_of_core he
  obtain ⟨φ, ψ, hc⟩ := Conducted.run horderly hbefore
  obtain ⟨φ', ψ', hc', hle⟩ := hc.extend horderly hrun
  obtain ⟨hlock, hkept⟩ := hbefore.lock_kept horderly hrun h.known hrest hrec h.lock
  obtain ⟨haloof, hthreads⟩ := hrun.aloof (X := fun _ => False) he hc (hlock.places hc'.sound)
    (fun _ _ _ _ => id) henters fun t p _ => h.threads t p
  refine ⟨hlock, ?_, h.known.mono hle, World.job?_of_le hle h.job, fun t s input kind hj =>
    h.only t s input kind (haloof.watched t s input kind hj), fun t p => hthreads t p id⟩
  have hheard : (m'.world.subscribed x.lock).Sublist [x.reaction] := h.heard ▸ haloof.heard
  have hmem : x.reaction ∈ m'.world.subscribed x.lock :=
    hkept _ (h.heard ▸ List.mem_singleton_self _)
  rcases List.sublist_singleton.1 hheard with hnil | hone
  · rw [hnil] at hmem
    cases hmem
  · exact hone

theorem Engaged.inPlace (he : e.Orderly) (h : x.Engaged e u m)
    (hbefore : Run e (.start capacity) log₀ m) (hrun : Run e m log m')
    (hrec : m'.world.view.Records x.site.generation.number) : x.InPlace m.world where
  held := by
    obtain ⟨y, hy, -, -, hreleased⟩ := h.lock
    exact ⟨y, hy, hreleased⟩
  heard := h.heard
  alive := by
    obtain ⟨φ, ψ, hc⟩ := Conducted.run he hbefore
    exact hrun.alive he hc h.known hrec

end Watch

end BlockEngine
