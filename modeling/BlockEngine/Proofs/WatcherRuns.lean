import BlockEngine.Proofs.Watchers

/-!
# Watchers that tell

What is signalled on the event lock of a block that watches an input: its samples, each once.

* `Readied` : a thread is about to start a watcher, and everything else keeps away from the lock;
  `Readied.of_course`, `.listens`, `.engages` : the three steps of the block;
* `Run.engages` : a block that watches is handled, then a watcher is at work;
* `Watch.Engaged.course` : a watcher at work follows its course, and nobody else tells its lock;
* `Run.watcher_tells` : from the block on, up to any time before the teardown.
-/

namespace BlockEngine

variable {e : Engine} {t u h : TaskId} {l : LockId} {w w' w'' : World} {s body : Site}
  {tab block input : String} {kind : WatchKind}
  {log log' log₀ log₁ log₂ log₃ handling : List Deed}
  {m m₀ m₁ m₂ m₃ m₄ m' m'' : Machine} {capacity : Nat} {x : Watch}

/-- What has been released is never held again: before its tab was cleared nobody had the lock. -/
theorem World.Cleared.lock_new (h : w.Cleared tab) (hle : w.view ≤ w'.view)
    {key : LockKey} (hlock : w'.HoldsLock tab key l) : w.locks.lock? l = none := by
  cases hy : w.locks.lock? l with
  | none => rfl
  | some y =>
    obtain ⟨y', hy', htab, -, hreleased⟩ := hlock
    obtain ⟨y'', hy'', htab', -, hrel⟩ := hle.locks.lock l y hy
    obtain rfl := Option.some.inj (hy'.symm.trans hy'')
    have hended := hrel (h.released l y hy (htab'.symm.trans htab)).1
    exact nomatch hended.symm.trans hreleased

/-- While one thread waits between two steps, the others leave a lock to those who have it. -/
theorem Run.aloof_beside (he : e.HasCore) (hbefore : Run e (.start capacity) log₀ m)
    (hrun : Run e m log m') (hplaces : m'.world.Places e l tab (.event block))
    (hothers : ∀ d ∈ log, d.actor ≠ h)
    (henters : ∀ t p w s, .performed t p w ∈ log → p.Enters s → ¬ s.WatchesAs tab block)
    (hstart : ∀ t (p : Execution Unit), t ≠ h → m.threads[t]? = some p →
      p.Within (.aloof e l tab block)) :
    m.world.Aloof l m'.world ∧ ∀ t (p : Execution Unit), t ≠ h → m'.threads[t]? = some p →
      p.Within (.aloof e l tab block) := by
  obtain ⟨φ, ψ, hc⟩ := Conducted.run (Engine.orderly_of_core he) hbefore
  exact hrun.aloof (X := (· = h)) he hc hplaces (fun t p w hd => hothers _ hd) henters hstart

/-- A thread is about to watch with a lock: the tab holds the lock, nobody watches with it yet, nobody
but the block reacts to it, if at all, and all other threads keep away. -/
structure Readied (e : Engine) (s : Site) (l : LockId) (h : TaskId) (r : Option Reaction)
    (m : Machine) : Prop where
  lock : m.world.HoldsLock s.tab (.event s.id) l
  heard : m.world.subscribed l = r.toList
  unwatched : ∀ t s' input kind, m.world.job? t ≠ some (.watch s' l input kind)
  threads : ∀ t (p : Execution Unit), t ≠ h → m.threads[t]? = some p →
    p.Within (.aloof e l s.tab s.id)

/-- Reactions that are still there, and no others, are the same. -/
theorem Option.toList_eq_of_sublist {α : Type} {r : Option α} {rs : List α}
    (h : rs.Sublist r.toList) (hmem : ∀ a ∈ r.toList, a ∈ rs) : rs = r.toList := by
  cases r with
  | none => exact List.sublist_nil.1 h
  | some a =>
    rcases List.sublist_singleton.1 h with rfl | rfl
    · cases hmem a List.mem_cons_self
    · rfl

/-- That stays so while the others make their moves, as long as the generation is going to be
recorded. -/
theorem Readied.kept {r : Option Reaction} (he : e.HasCore) (hready : Readied e s l h r m)
    (hbefore : Run e (.start capacity) log₀ m) (hknown : m.world.view.Known s.generation)
    (hrun : Run e m log m') (hothers : ∀ d ∈ log, d.actor ≠ h) (hrest : Run e m' log' m'')
    (hrec : m''.world.view.Records s.generation.number)
    (henters : ∀ t p w s', .performed t p w ∈ log → p.Enters s' → ¬ s'.WatchesAs s.tab s.id) :
    Readied e s l h r m' := by
  have horderly := Engine.orderly_of_core he
  obtain ⟨φ, ψ, hc⟩ := Conducted.run horderly (hbefore.trans hrun)
  obtain ⟨hlock, hkept⟩ := hbefore.lock_kept horderly hrun hknown hrest hrec hready.lock
  obtain ⟨haloof, hthreads⟩ := Run.aloof_beside he hbefore hrun (hlock.places hc.sound) hothers
    henters hready.threads
  refine ⟨hlock, ?_, fun t s' input kind hj => ?_, hthreads⟩
  · exact Option.toList_eq_of_sublist (hready.heard ▸ haloof.heard) (hready.heard ▸ hkept)
  · exact hready.unwatched t s' input kind (haloof.watched t s' input kind hj)

/-- After a tab has been cleared a thread that obtains a lock of it is the first one that has it. -/
theorem Readied.of_obtain (hsound : m₀.world.view.Sound e) (hcleared : m₀.world.Cleared s.tab)
    (hle : m₀.world.view ≤ w.view) (haloof : m₀.world.Aloof l w)
    (hlock : w.HoldsLock s.tab (.event s.id) l)
    (hthreads : ∀ t (p : Execution Unit), t ≠ h → m.threads[t]? = some p →
      p.Within (.aloof e l s.tab s.id)) (q : Execution Unit) :
    Readied e s l h none ⟨w, m.threads.insert h q⟩ := by
  have hnone := hcleared.lock_new hle hlock
  refine ⟨hlock, ?_, fun t s' input kind hj => ?_, fun t p ht hp => ?_⟩
  · have hnobody : m₀.world.subscribed l = [] := by
      unfold World.subscribed
      rw [hnone]
      rfl
    exact List.sublist_nil.1 (hnobody ▸ haloof.heard)
  · obtain ⟨r, hr, hrj⟩ := Option.bind_eq_some_iff.1 (haloof.watched t s' input kind hj)
    obtain ⟨-, y, hy, -⟩ := hsound.jobs t r.standing _ (congrArg (Option.map _) hr) hrj
    exact nomatch hnone.symm.trans hy
  · rw [threads_insert, if_neg ht] at hp
    exact hthreads t p ht hp

/-- The thread listens with the reaction of the block. -/
theorem Readied.listened {r : Reaction} (hready : Readied e s l h none m) (q : Execution Unit)
    (n : Nat) (id : SubscriptionId) :
    Readied e s l h (some r) ⟨(m.world.withLocks (·.subscribe l .all r)).2.addListener n s.id
      (.unsubscribe l id), m.threads.insert h q⟩ := by
  obtain ⟨y, hy, htab, hkey, hreleased⟩ := hready.lock
  have hlocks : ((m.world.withLocks (·.subscribe l .all r)).2.addListener n s.id
      (.unsubscribe l id)).locks = (m.world.locks.subscribe l .all r).2 := by
    unfold World.addListener World.modifyGeneration
    split <;> rfl
  have hjobs : ∀ t, ((m.world.withLocks (·.subscribe l .all r)).2.addListener n s.id
      (.unsubscribe l id)).job? t = m.world.job? t := by
    intro t
    unfold World.addListener World.modifyGeneration
    split <;> rfl
  have hy' := LockTable.lock?_subscribe hy .all r
  rw [if_neg (by rw [hreleased]; exact Bool.false_ne_true), ← hlocks] at hy'
  refine ⟨⟨_, hy', htab, hkey, hreleased⟩, ?_, fun t s' input kind hj => ?_, fun t p ht hp => ?_⟩
  · have hnobody := hready.heard
    unfold World.subscribed at hnobody ⊢
    rw [hy] at hnobody
    rw [hy']
    change (y.subscriptions ++ [_]).map _ = [r]
    rw [List.map_append]
    exact congrArg (· ++ [r]) hnobody
  · exact hready.unwatched t s' input kind ((hjobs t).symm.trans hj)
  · rw [threads_insert, if_neg ht] at hp
    exact hready.threads t p ht hp

/-- The thread starts the watcher. -/
theorem Readied.engaged {q : Execution Unit} (hready : Readied e x.site x.lock h (some x.reaction) m)
    (halive : m.world.isDestroyed x.site.generation.number = false)
    (hknown : m.world.view.Known x.site.generation) (hnumbered : m.world.view.TasksNumbered)
    (hq : q.Within (.aloof e x.lock x.site.tab x.site.id)) (d : String) (c : Context) :
    x.Engaged e m.world.taskCount ⟨(m.world.fresh.2.spawn x.site.generation.number d c x.job).2,
      m.threads.insert h q⟩ := by
  let v := m.world.fresh.2.view
  have hview : (m.world.fresh.2.spawn x.site.generation.number d c x.job).2.view =
      v.spawn x.site.generation.number d c x.job := World.view_spawn ..
  have hlocks : (m.world.fresh.2.spawn x.site.generation.number d c x.job).2.locks =
      m.world.locks := by
    have h := congrArg View.locks hview
    rwa [View.locks_spawn] at h
  have hjobs : ∀ t, (m.world.fresh.2.spawn x.site.generation.number d c x.job).2.job? t =
      if t = m.world.taskCount then some x.job else m.world.job? t := by
    intro t
    rw [World.job?_eq, hview, View.tasks_spawn (v := v) halive, World.job?_eq]
    change _ = if t = v.taskCount then some x.job else (v.tasks t).bind (·.job)
    split <;> rfl
  have hle : m.world.view ≤ (m.world.fresh.2.spawn x.site.generation.number d c x.job).2.view := by
    rw [hview]
    exact View.le_trans (View.le_draw (Nat.le_succ _)) (View.le_spawn (v := v) hnumbered ..)
  refine ⟨?_, ?_, hknown.mono hle, (hjobs _).trans (if_pos rfl), fun t s' input kind hj => ?_,
    fun t p hp => ?_⟩
  · obtain ⟨y, hy, hrest⟩ := hready.lock
    exact ⟨y, (congrArg (·.lock? x.lock) hlocks).trans hy, hrest⟩
  · refine Eq.trans ?_ hready.heard
    unfold World.subscribed
    rw [hlocks]
  · rw [hjobs] at hj
    split at hj
    · assumption
    · exact absurd hj (hready.unwatched t s' input kind)
  · rw [threads_insert] at hp
    split at hp
    · obtain rfl := Option.some.inj hp
      exact hq
    · next ht => exact hready.threads t p ht hp

/-! ## A block that watches an input is handled -/

variable {α : Type} {k : α → Execution Unit} {q : Execution Unit} {a : α} {log'' : List Deed}

/-- Since a tab was cleared nobody but the blocks that watch with a lock of it has come near that. -/
theorem Run.aloof_of_cleared (he : e.HasCore) (hbefore : Run e (.start capacity) log₀ m₀)
    (hcleared : m₀.world.Cleared tab) (hrun : Run e m₀ log m)
    (hplaces : m.world.Places e l tab (.event block))
    (henters : ∀ t p w s, .performed t p w ∈ log → p.Enters s → ¬ s.WatchesAs tab block) :
    m₀.world.Aloof l m.world ∧ ∀ (t : TaskId) (p : Execution Unit), m.threads[t]? = some p →
      p.Within (.aloof e l tab block) := by
  have horderly := Engine.orderly_of_core he
  obtain ⟨φ, ψ, hc⟩ := Conducted.run horderly hbefore
  obtain ⟨-, -, -, hle⟩ := hc.extend horderly hrun
  obtain ⟨haloof, hthreads⟩ := hrun.aloof (X := fun _ => False) he hc hplaces
    (fun _ _ _ _ => id) henters fun t p _ hp =>
      hbefore.within_cleared he hcleared (hplaces.of_le hc.sound hle) hp
  exact ⟨haloof, fun t p hp => hthreads t p id hp⟩

/-- A thread obtains the lock of its event in a tab that was cleared before. -/
theorem Readied.of_course {k : LockId → Execution Unit} (he : e.HasCore)
    (hbefore : Run e (.start capacity) log₀ m₀) (hcleared : m₀.world.Cleared s.tab)
    (hrun : Run e m₀ log m)
    (hreached : Run e (.start capacity) log₁ ⟨m.world, m.threads.insert h q⟩)
    (hknown : m.world.view.Known s.generation)
    (hcourse : Course e h k m' ⟨m.world, m.threads.insert h q⟩ (.obtainLock s (.event s.id)) log' l)
    (hrest : Run e m' log'' m'') (hrec : m''.world.view.Records s.generation.number)
    (henters : ∀ t p w s', .performed t p w ∈ log ++ log' → p.Enters s' →
      ¬ s'.WatchesAs s.tab s.id) : Readied e s l h none m' := by
  have horderly := Engine.orderly_of_core he
  obtain ⟨φ₀, ψ₀, hc₀⟩ := Conducted.run horderly hbefore
  obtain ⟨φ₁, ψ₁, hc₁, hle₁⟩ := hc₀.extend horderly hrun
  obtain ⟨φ, ψ, hc⟩ := Conducted.run horderly hreached
  obtain ⟨ma, la, la', qa, rfl, hl, hra, hoa, hmove, hra', hoa'⟩ := hcourse.of_atomically
  obtain ⟨φa, ψa, hca, hlea⟩ := hc.extend horderly hra
  obtain ⟨φa', ψa', hca', hlea'⟩ := hca.extend horderly (Run.single hmove)
  have hle : m.world.view ≤ ma.world.view := hlea
  have hlock := hl ▸ World.holdsLock_obtain hca.sound s (.event s.id)
  have hplacesa := (World.HoldsLock.places hlock hca'.sound).of_le hca.sound hlea'
  have hplaces : m.world.Places e l s.tab (.event s.id) := hplacesa.of_le hc₁.sound hle
  -- Up to this step nobody has the lock.
  obtain ⟨haloof₁, hthreads₁⟩ := hbefore.aloof_of_cleared he hcleared hrun hplaces
    fun t p w s' hd => henters t p w s' (List.mem_append_left _ hd)
  obtain ⟨haloofa, hthreadsa⟩ := Run.aloof_beside he hreached hra hplacesa hoa
    (fun t p w s' hd => henters t p w s' (by simp [hd])) fun t p ht hp =>
      hthreads₁ t p ((threads_insert ..).trans (if_neg ht) ▸ hp)
  have haloof := haloof₁.trans (haloofa.trans
    (World.Aloof.obtain ma.world s.tab s.id (LockKey.event s.id).text))
  have hobtained : Readied e s l h none ⟨_, ma.threads.insert h (k l)⟩ :=
    .of_obtain hc₀.sound hcleared (View.le_trans hle₁ (View.le_trans hle hlea')) (hl ▸ haloof) hlock
      hthreadsa _
  exact hobtained.kept he ((hreached.trans hra).move hmove) ((hknown.mono hle).mono hlea') hra' hoa'
    hrest hrec fun t p w s' hd => henters t p w s' (by simp [hd])

/-- It listens with the lock. -/
theorem Readied.listens {k : Unit → Execution Unit} {r : Reaction} (he : e.HasCore)
    (hready : Readied e s l h none m) (hbefore : Run e (.start capacity) log₀ m)
    (hknown : m.world.view.Known s.generation)
    {a : Unit} (hcourse : Course e h k m' m (.listen s l r) log a)
    (hrest : Run e m' log' m'') (hrec : m''.world.view.Records s.generation.number)
    (henters : ∀ t p w s', .performed t p w ∈ log → p.Enters s' → ¬ s'.WatchesAs s.tab s.id) :
    Readied e s l h (some r) m' := by
  have horderly := Engine.orderly_of_core he
  obtain ⟨φ, ψ, hc⟩ := Conducted.run horderly hbefore
  obtain ⟨mb, lb, lb', qb, rfl, -, hrb, hob, hmove, hrb', hob'⟩ := hcourse.of_atomically
    (f := fun w => ((), (w.withLocks (·.subscribe l .all r)).2.addListener
      s.generation.number s.id (.unsubscribe l (w.withLocks (·.subscribe l .all r)).1)))
  obtain ⟨φb, ψb, hcb, hleb⟩ := hc.extend horderly hrb
  obtain ⟨φb', ψb', hcb', hleb'⟩ := hcb.extend horderly (Run.single hmove)
  have hready := hready.kept he hbefore hknown hrb hob ((Run.single hmove).trans (hrb'.trans hrest))
    hrec fun t p w s' hd => henters t p w s' (by simp [hd])
  exact (hready.listened _ _ _).kept he ((hbefore.trans hrb).move hmove)
    ((hknown.mono hleb).mono hleb') hrb' hob' hrest hrec fun t p w s' hd =>
      henters t p w s' (by simp [hd])

/-- It starts the watcher. -/
theorem Readied.engages {x : Watch} {k : Option TaskId → Execution Unit} {o : Option TaskId}
    (he : e.HasCore)
    (hready : Readied e x.site x.lock h (some x.reaction) m)
    (hbefore : Run e (.start capacity) log₀ m) (hknown : m.world.view.Known x.site.generation)
    (hcourse : Course e h k m' m (.spawnIn x.site fun _ => x.job) log o)
    (hk : ∀ o, (k o).Within (.aloof e x.lock x.site.tab x.site.id))
    (hrest : Run e m' log' m'') (hrec : m''.world.view.Records x.site.generation.number)
    (henters : ∀ t p w s, .performed t p w ∈ log → p.Enters s →
      ¬ s.WatchesAs x.site.tab x.site.id) :
    ∃ u handled idle m₁, log = handled ++ idle ∧ Run e m handled m₁ ∧ Run e m₁ idle m' ∧
      Deed.statesOf u (log₀ ++ handled) = [] ∧ x.Engaged e u m₁ := by
  have horderly := Engine.orderly_of_core he
  obtain ⟨φ, ψ, hc⟩ := Conducted.run horderly hbefore
  obtain ⟨mc, lc, lc', qc, rfl, -, hrc, hoc, hmove, hrc', -⟩ := hcourse.of_atomically
    (f := fun w => w.fresh.2.spawn x.site.generation.number x.site.description
      (x.site.context.child w.fresh.1) x.job)
  obtain ⟨φc, ψc, hcc, hlec⟩ := hc.extend horderly hrc
  have hafter := (Run.single hmove).trans (hrc'.trans hrest)
  have hready := hready.kept he hbefore hknown hrc hoc hafter hrec fun t p w s' hd =>
    henters t p w s' (by simp [hd])
  have halive := hafter.alive horderly hcc (hknown.mono hlec) hrec
  refine ⟨mc.world.taskCount, lc ++ [.performed h qc mc.world], lc', _, by simp, hrc.move hmove, hrc',
    ?_, hready.engaged halive (hknown.mono hlec) hcc.sound.tasksNumbered (hk _) _ _⟩
  obtain ⟨hthread, hnone⟩ := hcc.new
  have hne : h ≠ mc.world.taskCount := by
    rintro rfl
    exact nomatch hthread.symm.trans hmove.thread
  rw [← List.append_assoc, Deed.statesOf_append, hnone]
  simp [Deed.statesOf, hne]

/-- A block that watches an input is handled, in a generation whose tab was cleared before and that is
going to be recorded; no other block that runs watches with its lock. Then a watcher is at work. -/
theorem Run.engages (he : e.HasCore) (hbefore : Run e (.start capacity) log₀ m₀)
    (hcleared : m₀.world.Cleared s.tab) (hrun : Run e m₀ log m₁) {p : Execution Unit}
    (hp : m₁.threads[h]? = some p) (hs : p.Enters s)
    (hwatches : Library.Watches s.block.opcode input kind)
    (hbody : s.inputBlock? e.environment Library.bodyInput = .ok (some body))
    (hinput : s.hasInput input = true) {m₁' : Machine}
    (hmove : Move e m₁ [.performed h p m₁.world] m₁') (hhandling : Run e m₁' handling m₂)
    {r : Except EngineError Signal}
    (hdone : e.replay h (ExceptT.run (Library.watchInput input kind e.environment s))
      (Deed.statesOf h handling) = some (.done r))
    (hrest : Run e m₂ log' m) (hrec : m.world.view.Records s.generation.number)
    (henters : ∀ t p w s', .performed t p w ∈ log ++ handling → p.Enters s' →
      ¬ s'.WatchesAs s.tab s.id) :
    ∃ l u handled idle m₃, handling = handled ++ idle ∧ Run e m₁' handled m₃ ∧
      Run e m₃ idle m₂ ∧
      Deed.statesOf u (log₀ ++ log ++ [.performed h p m₁.world] ++ handled) = [] ∧
      Watch.Engaged e ⟨s, l, input, kind, body⟩ u m₃ := by
  have horderly := Engine.orderly_of_core he
  have hbefore₁ := hbefore.trans hrun
  have hreached := hbefore₁.move hmove
  obtain ⟨φ₁, ψ₁, hc₁⟩ := Conducted.run horderly hbefore₁
  obtain ⟨φ, ψ, hc, hle⟩ := hc₁.extend horderly (Run.single hmove)
  obtain ⟨k, hstep, hk⟩ := (he.command_of_watches hwatches).step_of_enters hs
  rw [Library.run_watchInput hbody hinput] at hdone
  simp only [Library.run_watchInput hbody hinput] at hstep
  cases hmove with
  | perform hp' hstep' =>
  obtain ⟨rfl, rfl⟩ := Prod.mk.inj (Option.some.inj ((hstep h _).symm.trans hstep'))
  -- The thread works on a job of the generation, and is not dropped.
  obtain ⟨j, hj, hknown, -⟩ :=
    (hbefore₁.entered he hp hs).resolve_left fun honce => nomatch honce.symm.trans hwatches.not_once
  have hlive : m₁.world.IsLive h j := by
    obtain ⟨x, hx, hend, -⟩ := (hc₁.task h).carries p hp
    obtain ⟨r, hr, hrj⟩ := Option.bind_eq_some_iff.1 hj
    obtain rfl := Option.some.inj (hx.symm.trans (congrArg (Option.map _) hr))
    exact ⟨r, hr, hrj, hend⟩
  have hcourse := hhandling.course horderly hc ((threads_insert ..).trans (if_pos rfl))
    (hhandling.not_dropped horderly hc hlive) hdone
  -- It obtains the lock, listens, and starts the watcher.
  obtain ⟨mA, lA, _, l, rfl, hobtain, htail⟩ := hcourse.of_bind
  obtain ⟨mB, lB, _, _, rfl, hlisten, htail⟩ := htail.of_bind
  obtain ⟨mC, lC, lD, _, rfl, hspawn, hlast⟩ := htail.of_bind
  have hreachedA := hreached.trans hobtain.run
  have hreachedB := hreachedA.trans hlisten.run
  have hrestC := hlast.run.trans hrest
  have hrestB := hspawn.run.trans hrestC
  obtain ⟨φA, ψA, hcA, hleA⟩ := hc.extend horderly hobtain.run
  obtain ⟨-, -, -, hleB⟩ := hcA.extend horderly hlisten.run
  have hknownA := (hknown.mono hle).mono hleA
  have hready := Readied.of_course he hbefore hcleared hrun hreached hknown hobtain
    (hlisten.run.trans hrestB) hrec fun t p w s' hd => henters t p w s' (by simp at hd ⊢; tauto)
  have hready := hready.listens he hreachedA hknownA hlisten hrestB hrec fun t p w s' hd =>
    henters t p w s' (by simp [hd])
  -- What the thread does then does not come near the lock, as nothing it did before.
  obtain ⟨φB, ψB, hcB⟩ := Conducted.run horderly hreachedB
  obtain ⟨-, -, -, hleAB⟩ := hc.extend horderly (hobtain.run.trans hlisten.run)
  have hplaces := (hready.lock.places hcB.sound).of_le hc₁.sound (View.le_trans hle hleAB)
  obtain ⟨-, hthreads⟩ := hbefore.aloof_of_cleared he hcleared hrun hplaces fun t p w s' hd =>
    henters t p w s' (by simp [hd])
  have hlater := hk (.aloof e l s.tab s.id) (fun _ => id)
    (.setValue s.generation (Limits.opens_aloof _) valueKey) (hthreads h p hp)
  obtain ⟨u, handled, idle, m₃, rfl, hrun₃, hidle, hnone, hengaged⟩ := Readied.engages
    (x := ⟨s, l, input, kind, body⟩) he hready hreachedB (hknownA.mono hleB) hspawn
    (fun _ => hlater (.ok .proceed)) hrestC hrec fun t p w s' hd => henters t p w s' (by simp [hd])
  refine ⟨l, u, lA ++ (lB ++ handled), idle ++ lD, m₃, by simp, hobtain.run.trans (hlisten.run.trans
    hrun₃), hidle.trans hlast.run, by simpa using hnone, hengaged⟩

/-! ## The course of a watcher in a run -/

namespace Watch

variable {x : Watch} {u : TaskId}

/-- Nobody but the one task that watches with a lock signals it. -/
theorem silent_others (he : e.HasCore) (hrun : Run e (.start capacity) log m)
    (hplaces : m.world.Places e x.lock x.site.tab (.event x.site.id))
    (honly : ∀ t s input kind, m.world.job? t = some (.watch s x.lock input kind) → t = u)
    {p : Execution Unit} (hd : .performed t p w ∈ log) (ht : t ≠ u) : p.tells x.lock = [] := by
  have horderly := Engine.orderly_of_core he
  have hbinds : (x.limits e).Binds e := Limits.binds_silent he
  have hstart := Conducted.start e capacity
  have hwithin := hrun.within (L := x.limits e) (X := (· = u)) horderly hstart
    { strict := hbinds.strict
      fits := fun log₁ m₁ log₂ h₁ h₂ => by
        obtain ⟨φ₁, ψ₁, hc₁, -⟩ := hstart.extend horderly h₁
        obtain ⟨-, -, -, hle⟩ := hc₁.extend horderly h₂
        exact hplaces.of_le hc₁.sound hle
      enters := fun _ _ _ s _ _ _ => hbinds.enters s
      reacts := hbinds.reacts
      works := fun t j ht hj => by
        obtain ⟨r, hr, hrj⟩ := Option.bind_eq_some_iff.1 hj
        refine Limits.within_work_silent
          (hplaces.sound.jobs t r.standing j (congrArg (Option.map _) hr) hrj) hplaces ?_
        rintro s input kind rfl
        exact ht (honly t s input kind hj) }
    fun t p _ hp => ?_
  · exact (hwithin.2 _ hd ht).1.tells_nil hbinds fun h => h rfl
  · change (∅ : Std.ExtTreeMap TaskId (Execution Unit))[t]? = some p at hp
    simp at hp

/-- What is told in a run in which only one thread tells anything. -/
theorem tells_eq (l : LockId)
    (h : ∀ t p w, .performed t p w ∈ log → t ≠ u → p.tells l = []) :
    log.flatMap (Deed.tells l) = (Deed.stepsOf u log).flatMap fun x => x.1.tells l := by
  induction log with
  | nil => rfl
  | cons d log ih =>
    have hrest := ih fun t p w hd => h t p w (List.mem_cons_of_mem _ hd)
    rw [List.flatMap_cons, hrest]
    cases d with
    | dropped => rfl
    | performed t p w =>
      by_cases ht : t = u
      · subst ht
        simp [Deed.stepsOf, Deed.tells]
      · have hnone : Deed.tells l (.performed t p w) = [] := h t p w List.mem_cons_self ht
        rw [hnone]
        simp [Deed.stepsOf, ht]

/-- From where a watcher is at work, up to any time before its generation is torn down, it follows its
course, and only what it tells is signalled with its lock. -/
theorem Engaged.course (he : e.HasCore) (h : x.Engaged e u m) (hbefore : Run e (.start capacity) log₀ m)
    (hnew : Deed.statesOf u log₀ = []) (hrun : Run e m log m')
    (hrec : m'.world.view.Records x.site.generation.number)
    (henters : ∀ t p w s, .performed t p w ∈ log → p.Enters s →
      ¬ s.WatchesAs x.site.tab x.site.id) :
    ∃ vs q, x.Course e u (Deed.statesOf u (log₀ ++ log)) vs q ∧
      (∀ p, m'.threads[u]? = some p → p = q) ∧
      (log₀ ++ log).flatMap (Deed.tells x.lock) = x.kind.changes vs := by
  have horderly := Engine.orderly_of_core he
  have hwhole := hbefore.trans hrun
  have hengaged := h.kept he hbefore hrun .refl hrec henters
  obtain ⟨φ, ψ, hc⟩ := Conducted.run horderly hwhole
  have hplaces := hengaged.lock.places hc.sound
  obtain ⟨q, hreplay, hq, hsteps⟩ := hwhole.task_steps horderly hengaged.job
  have hfit : e.Fitting u (x.limits e) (e.work x.job) (Deed.statesOf u (log₀ ++ log)) := by
    rintro ⟨p, w⟩ hy q' w' hstep
    have hd : .performed u p w ∈ log₀ ++ log := by
      rw [← hsteps] at hy
      obtain ⟨d, hd, hdy⟩ := List.mem_filterMap.1 hy
      cases d with
      | dropped => cases hdy
      | performed t p' w' =>
        by_cases ht : t = u
        · simp only [ht, if_true] at hdy
          cases hdy
          exact ht ▸ hd
        · simp [ht] at hdy
    obtain ⟨log₁, log₂, hlog⟩ := List.append_of_mem hd
    obtain ⟨m₁, m₂, q₁, rfl, hstep', hrun₁, hmove, hrun₂⟩ := (hlog ▸ hwhole).at_deed
    obtain ⟨-, rfl⟩ := Prod.mk.inj (Option.some.inj (hstep'.symm.trans hstep))
    obtain ⟨φ₁, ψ₁, hc₁⟩ := Conducted.run horderly hrun₁
    obtain ⟨φ₂, ψ₂, hc₂, hle₁⟩ := hc₁.extend horderly (Run.single hmove)
    obtain ⟨-, -, -, hle₂⟩ := hc₂.extend horderly hrun₂
    have hplaces₂ := hplaces.of_le hc₂.sound hle₂
    exact ⟨hplaces₂.of_le hc₁.sound hle₁, hplaces₂⟩
  have hplace : ∀ w ∈ Deed.statesOf u (log₀ ++ log), x.InPlace w := by
    rw [Deed.statesOf_append, hnew, List.nil_append]
    intro w hw
    obtain ⟨d, hd, hdw⟩ := List.mem_filterMap.1 hw
    cases d with
    | dropped => cases hdw
    | performed t p w' =>
      have hw' : w' = w := by
        by_cases ht : t = u
        · simpa [ht] using hdw
        · simp [ht] at hdw
      subst hw'
      obtain ⟨log₁, log₂, rfl⟩ := List.append_of_mem hd
      obtain ⟨m₁, m₂, -, rfl, -, hrun₁, hmove, hrun₂⟩ := hrun.at_deed
      have hrest := (Run.single hmove).trans hrun₂
      exact (h.kept he hbefore hrun₁ hrest hrec fun t p w s hd => henters t p w s (by simp [hd])).inPlace
        horderly (hbefore.trans hrun₁) hrest hrec
  obtain ⟨vs, hcourse, htold⟩ := x.course he hplace hfit hreplay
  refine ⟨vs, q, hcourse, hq, ?_⟩
  rw [tells_eq x.lock fun t p w => silent_others he hwhole hplaces hengaged.only, hsteps, ← htold]
  rfl

end Watch

/-- Watchers tell once per change. A tab has been cleared; after that a block of it that watches an input
is handled in a generation, and no other block watches with the same lock. Up to any time before the
generation is torn down there is one task that watches: it takes samples, one after each pause; its
samples without repetitions are what is signalled on the event lock of the block, by anybody; after
each signal the block keeps the sample and starts its body, once, in a task of its own. A sample that
can not be taken is the end, and is reported once. -/
theorem Run.watcher_tells (he : e.HasCore) (hbefore : Run e (.start capacity) log₀ m₀)
    (hcleared : m₀.world.Cleared s.tab) {p : Execution Unit}
    (hrun : Run e m₀ (log ++ .performed h p w :: (handling ++ log')) m) (hs : p.Enters s)
    (hwatches : Library.Watches s.block.opcode input kind)
    (hbody : s.inputBlock? e.environment Library.bodyInput = .ok (some body))
    (hinput : s.hasInput input = true) {r : Except EngineError Signal}
    (hdone : e.replay h (ExceptT.run (Library.watchInput input kind e.environment s))
      (Deed.statesOf h handling) = some (.done r))
    (honce : ∀ t p w s', .performed t p w ∈ log ++ (handling ++ log') → p.Enters s' →
      ¬ s'.WatchesAs s.tab s.id)
    (hrec : m.world.view.Records s.generation.number) :
    ∃ l u vs q, m.world.HoldsLock s.tab (.event s.id) l ∧
      m.world.job? u = some (.watch s l input kind) ∧ (∀ q', m.threads[u]? = some q' → q' = q) ∧
      Watch.Course e u ⟨s, l, input, kind, body⟩
        (Deed.statesOf u (log₀ ++ (log ++ .performed h p w :: (handling ++ log')))) vs q ∧
      (log₀ ++ (log ++ .performed h p w :: (handling ++ log'))).flatMap (Deed.tells l) =
        kind.changes vs := by
  have horderly := Engine.orderly_of_core he
  obtain ⟨m₁, m₁', -, rfl, -, hrun₁, hmove, hrest⟩ := hrun.at_deed
  obtain ⟨m₂, hhandling, hlater⟩ := hrest.cut
  obtain ⟨l, u, handled, idle, m₃, rfl, hrun₃, hidle, hnew, hengaged⟩ := Run.engages he hbefore
    hcleared hrun₁ hmove.thread hs hwatches hbody hinput hmove hhandling hdone hlater hrec
    fun t p w s' hd => honce t p w s' (by simp at hd ⊢; tauto)
  have hreached := (((hbefore.trans hrun₁).move hmove).trans hrun₃)
  have hafter := hidle.trans hlater
  obtain ⟨vs, q, hcourse, hq, htold⟩ := hengaged.course he hreached hnew hafter hrec
    fun t p w s' hd => honce t p w s' (by simp at hd ⊢; tauto)
  have hkept := hengaged.kept he hreached hafter .refl hrec
    fun t p w s' hd => honce t p w s' (by simp at hd ⊢; tauto)
  have hlogs : log₀ ++ log ++ [.performed h p m₁.world] ++ handled ++ (idle ++ log') =
      log₀ ++ (log ++ .performed h p m₁.world :: (handled ++ idle ++ log')) := by simp
  rw [hlogs] at hcourse htold
  exact ⟨l, u, vs, q, hkept.lock, hkept.job, hq, hcourse, htold⟩

namespace Script

/-- A tab that watches a variable, and sets it. -/
def watching : String :=
  document [
    Script.block "1" "control_when_value_changed"
      "\"topLevel\":true,\"inputs\":\x7b\"VALUE\":[2,\"2\"],\"SUBSTACK\":[2,\"3\"]\x7d",
    Script.block "2" "data_variable"
      "\"topLevel\":false,\"parent\":\"1\",\"fields\":\x7b\"VARIABLE\":[\"x\",\"x\"]\x7d",
    Script.block "3" "control_stop" "\"topLevel\":false,\"parent\":\"1\"",
    Script.block "4" "data_setvariableto" ("\"topLevel\":true,\"fields\":\x7b\"VARIABLE\":[\"x\",\"x\"]\x7d," ++
      "\"inputs\":\x7b\"ITEM\":[1,[10,\"5\"]]\x7d")]

/-- The watcher samples the variable before it is set and twice after that. -/
def samples : List Line :=
  [.begin 3, .perform 3 100, .begin 2, .perform 2 100, .pass 100000000, .perform 3 100,
    .pass 100000000, .perform 3 100]

/-- The block of a task that has not begun, with its body, if it watches its input for values. -/
def watcher? (m : Machine) (t : TaskId) : Option (Site × Site) :=
  match m.liveJob? t with
  | some (.root s) =>
    match s.inputBlock? engine.environment Library.bodyInput with
    | .ok (some body) =>
      if s.block.opcode = ⟨"control", "when_value_changed"⟩ ∧ s.hasInput "VALUE" = true ∧
          (m.threads[t]?).isNone then some (s, body)
      else none
    | _ => none
  | _ => none

theorem watcher?_spec {m : Machine} {t : TaskId} {s body : Site}
    (h : watcher? m t = some (s, body)) :
    m.world.IsLive t (.root s) ∧ m.threads[t]? = none ∧
      s.block.opcode = ⟨"control", "when_value_changed"⟩ ∧ s.hasInput "VALUE" = true ∧
      s.inputBlock? engine.environment Library.bodyInput = .ok (some body) := by
  unfold watcher? at h
  split at h
  · next hjob =>
    split at h
    · next hbody =>
      split at h
      · next hs =>
        obtain ⟨rfl, rfl⟩ := Prod.mk.inj (Option.some.inj h)
        exact ⟨Machine.isLive_of_liveJob? hjob, Option.isNone_iff_eq_none.1 hs.2.2, hs.1, hs.2.1,
          hbody⟩
      · cases h
    · cases h
  · cases h

/-- Whether no block that watches runs in a step. -/
def isElsewhere : Deed → Bool
  | .performed _ (.evaluate s _) _ | .performed _ (.run (.chain _ s) _) _ =>
    s.block.opcode ≠ ⟨"control", "when_value_changed"⟩ ∧
      s.block.opcode ≠ ⟨"control", "when_condition_changed"⟩
  | _ => true

theorem not_watchesAs {log : List Deed} (h : log.all isElsewhere = true) {t : TaskId}
    {p : Execution Unit} {w : World} (hd : .performed t p w ∈ log) {s : Site} (hs : p.Enters s)
    (tab id : String) : ¬ s.WatchesAs tab id := by
  rintro ⟨-, -, input, kind, hwatches⟩
  have hother : s.block.opcode ≠ ⟨"control", "when_value_changed"⟩ ∧
      s.block.opcode ≠ ⟨"control", "when_condition_changed"⟩ := by
    have hd := List.all_eq_true.1 h _ hd
    cases hs <;> exact of_decide_eq_true hd
  cases hwatches with
  | value ho => exact hother.1 ho
  | condition ho => exact hother.2 ho

/-- Whether a thread has come to the end of the block that watches. -/
def isHandled (t : TaskId) (s : Site) (handling : List Deed) : Bool :=
  match engine.replay t (ExceptT.run (Library.watchInput "VALUE" .value engine.environment s))
    (Deed.statesOf t handling) with
  | some (.done _) => true
  | _ => false

/-- Whether a generation is recorded, and a text is all that has been told on any lock. -/
def hasTold (s : Site) (text : String) (log : List Deed) (m : Machine) : Bool :=
  m.world.recordsIn s.tab s.generation.number &&
    (List.range m.world.locks.locks.length).all fun l =>
      (log.flatMap (Deed.tells l)).map Json.toText = [text]

/-- The machine after the first step of a task. -/
def begun (m : Machine) (t : TaskId) (j : Job) : Machine :=
  (Machine.performAll engine t 1 ⟨m.world, m.threads.insert t (engine.work j)⟩).2

theorem run_watching :
    ∃ log₀ m s body handling m₂ log' m',
      Run engine (.start 10) log₀ m ∧ watcher? m 1 = some (s, body) ∧ log₀.all isElsewhere = true ∧
        Run engine (begun m 1 (.root s)) handling m₂ ∧ isHandled 1 s handling = true ∧
        Run engine m₂ log' m' ∧ (handling ++ log').all isElsewhere = true ∧
        hasTold s "5" (log₀ ++ (handling ++ log')) m' = true := by
  obtain ⟨log₀, m, hrun, hf⟩ := Run.of_playAll_any (e := engine) (m := .start 10)
    [.call 0 (.save "main" watching), .perform 0 100]
    (f := fun log₀ m => log₀.all isElsewhere && (watcher? m 1).any fun (s, _) =>
      ((begun m 1 (.root s)).playAll engine [.perform 1 3]).any fun r => isHandled 1 s r.1 &&
        (r.2.playAll engine samples).any fun r' => (r.1 ++ r'.1).all isElsewhere &&
          hasTold s "5" (log₀ ++ (r.1 ++ r'.1)) r'.2)
    (by decide +kernel)
  obtain ⟨helse, hf⟩ := Bool.and_eq_true_iff.1 hf
  obtain ⟨⟨s, body⟩, hs, hf⟩ := (Option.any_eq_true _ _).1 hf
  obtain ⟨handling, m₂, hrun₂, hf⟩ := Run.of_playAll_any [.perform 1 3]
    (f := fun log₁ m₂ => isHandled 1 s log₁ && (m₂.playAll engine samples).any fun r' =>
      (log₁ ++ r'.1).all isElsewhere && hasTold s "5" (log₀ ++ (log₁ ++ r'.1)) r'.2) hf
  obtain ⟨hhandled, hf⟩ := Bool.and_eq_true_iff.1 hf
  obtain ⟨log', m', hrun', hf⟩ := Run.of_playAll_any samples
    (f := fun log' m' => (handling ++ log').all isElsewhere &&
      hasTold s "5" (log₀ ++ (handling ++ log')) m') hf
  obtain ⟨helse', htold⟩ := Bool.and_eq_true_iff.1 hf
  exact ⟨log₀, m, s, body, handling, m₂, log', m', hrun, hs, helse, hrun₂, hhandled, hrun', helse',
    htold⟩

end Script

/-- A variable that is set once while it is watched is told once. -/
theorem watcher_tells_five :
    ∃ log₀ m₀ s body h p w log handling log' m r, Run Script.engine (.start 10) log₀ m₀ ∧
      m₀.world.Cleared s.tab ∧
      Run Script.engine m₀ (log ++ .performed h p w :: (handling ++ log')) m ∧ p.Enters s ∧
      Library.Watches s.block.opcode "VALUE" .value ∧
      s.inputBlock? Script.engine.environment Library.bodyInput = .ok (some body) ∧
      s.hasInput "VALUE" = true ∧
      Script.engine.replay h (ExceptT.run (Library.watchInput "VALUE" .value
        Script.engine.environment s)) (Deed.statesOf h handling) = some (.done r) ∧
      (∀ t p w s', .performed t p w ∈ log ++ (handling ++ log') → p.Enters s' →
        ¬ s'.WatchesAs s.tab s.id) ∧
      m.world.view.Records s.generation.number ∧
      ∃ l u vs q, m.world.HoldsLock s.tab (.event s.id) l ∧
        Watch.Course Script.engine u ⟨s, l, "VALUE", .value, body⟩
          (Deed.statesOf u (log₀ ++ (log ++ .performed h p w :: (handling ++ log')))) vs q ∧
        (WatchKind.value.changes vs).map Json.toText = ["5"] := by
  obtain ⟨log, m, s, body, handling, m₂, log', m', hrun, hwatcher, helse, hrun₂, hhandled, hrun',
    helse', htold⟩ := Script.run_watching
  obtain ⟨hlive, hresting, hop, hinput, hbody⟩ := Script.watcher?_spec hwatcher
  obtain ⟨hrec, htold⟩ := Bool.and_eq_true_iff.1 htold
  have hbegin : Run Script.engine m [] ⟨m.world, m.threads.insert 1 (Script.engine.work (.root s))⟩ :=
    .single (.begin hlive hresting)
  have hwork : Script.engine.work (.root s) = Attempt.conclude s (Attempt.handle s) :=
    Engine.work_root (by rw [hop]; decide)
  obtain ⟨q, hstep⟩ : ∃ q, Script.engine.step 1 m.world (Script.engine.work (.root s)) =
      some (q, m.world) := by
    rw [hwork]
    exact ⟨_, rfl⟩
  have hfirst : Run Script.engine ⟨m.world, m.threads.insert 1 (Script.engine.work (.root s))⟩
      [.performed 1 (Script.engine.work (.root s)) m.world] (Script.begun m 1 (.root s)) := by
    have hperform := Run.of_performAll Script.engine 1 1
      ⟨m.world, m.threads.insert 1 (Script.engine.work (.root s))⟩
    simpa [Script.begun, Machine.performAll, hstep] using hperform
  have hwhole : Run Script.engine (.start 10) (log ++ .performed 1 (Script.engine.work (.root s))
      m.world :: (handling ++ log')) m' := by
    simpa using hrun.trans (hbegin.trans (hfirst.trans (hrun₂.trans hrun')))
  have henters : (Script.engine.work (.root s)).Enters s := by
    rw [hwork]
    exact .chain rfl
  obtain ⟨r, hdone⟩ : ∃ r, Script.engine.replay 1 (ExceptT.run (Library.watchInput "VALUE" .value
      Script.engine.environment s)) (Deed.statesOf 1 handling) = some (.done r) := by
    unfold Script.isHandled at hhandled
    split at hhandled
    · next r heq => exact ⟨r, heq⟩
    · cases hhandled
  have honce : ∀ t p w s', .performed t p w ∈ log ++ (handling ++ log') → p.Enters s' →
      ¬ s'.WatchesAs s.tab s.id := fun t p w s' hd hs =>
    Script.not_watchesAs (List.all_append .. ▸ Bool.and_eq_true_iff.2 ⟨helse, helse'⟩) hd hs _ _
  have hcleared : (Machine.start 10).world.Cleared s.tab := World.Cleared.start 10 s.tab
  obtain ⟨l, u, vs, q, hlock, hjob, hq, hcourse, htells⟩ := Run.watcher_tells (e := Script.engine) rfl
    .refl hcleared hwhole henters (.value hop) hbody hinput hdone honce (World.records_of_recordsIn hrec)
  refine ⟨[], _, s, body, 1, _, _, log, handling, log', m', r, .refl, hcleared, hwhole, henters,
    .value hop, hbody, hinput, hdone, honce, World.records_of_recordsIn hrec, l, u, vs, q, hlock, hcourse,
    ?_⟩
  obtain ⟨y, hy, -⟩ := hlock
  have hl : l < m'.world.locks.locks.length := (List.getElem?_eq_some_iff.1 hy).1
  have htold := of_decide_eq_true (List.all_eq_true.1 htold l (List.mem_range.2 hl))
  have hsilent : Deed.tells l (.performed 1 (Script.engine.work (.root s)) m.world) = [] := by
    rw [hwork]
    rfl
  rw [← htells, ← htold]
  simp [hsilent]

end BlockEngine
