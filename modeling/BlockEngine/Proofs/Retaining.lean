import BlockEngine.Proofs.Watchers

/-!
# What keeps a variable and leaves a lock alone

All that threads do keeps the value of a variable and does not signal a lock of a given key, but for
the few executions that are about just that.

* `World.Retains` : a variable that has a value keeps it;
* `Run.watchless` : nobody watches with a lock that is not that of an event;
* `Limits.guarded` : the limits of what retains a variable and does not signal a lock;
* `Limits.suits_guarded`, `within_react_guarded`, `within_work_guarded` : what is within them.
-/

namespace BlockEngine

variable {e : Engine} {t : TaskId} {l : LockId} {w w' w'' : World} {tab id : String}
  {key key' : LockKey} {log log₀ : List Deed} {m m' : Machine} {capacity : Nat}
  {φ : TaskId → Stage} {ψ : TaskId → Stance}

/-! ## Variables -/

theorem Variables.value?_write (vs : Variables) (id : String) (v : Json) (k : String) :
    (vs.write id v).value? k = if k = id then some v else vs.value? k := by
  unfold value? write
  simp only
  rw [Keyed.get?_insert]
  split <;> rfl

theorem Variables.value?_declare (vs : Variables) (id name : String) (v : Json) (k : String) :
    (vs.declare id name v).value? k =
      if k = id then some ((vs.value? id).getD v) else vs.value? k := by
  unfold declare
  conv_lhs => unfold value?
  rw [Keyed.get?_insert]
  split <;> rfl

namespace World

/-- A variable that has a value keeps it. -/
def Retains (id : String) (w w' : World) : Prop :=
  ∀ v, w.vars.value? id = some v → w'.vars.value? id = some v

namespace Retains

theorem refl (w : World) : Retains id w w := fun _ h => h

theorem trans (h : Retains id w w') (h' : Retains id w' w'') : Retains id w w'' :=
  fun v hv => h' v (h v hv)

theorem of_vars (h : w'.vars = w.vars) : Retains id w w' := fun _ hv => h ▸ hv

theorem write_of_ne {id' : String} (h : id' ≠ id) (w : World) (v : Json) :
    Retains id w { w with vars := w.vars.write id' v } := fun _ hx =>
  (Variables.value?_write ..).trans ((if_neg h.symm).trans hx)

theorem declare (w : World) (id' name : String) (v : Json) :
    Retains id w { w with vars := w.vars.declare id' name v } := fun x hx => by
  refine (Variables.value?_declare ..).trans ?_
  split
  · next h =>
    subst h
    rw [hx]
    rfl
  · exact hx

end Retains

/-- No task watches with a lock that did not. -/
def Watchless (l : LockId) (w w' : World) : Prop :=
  ∀ t s input kind, w'.job? t = some (.watch s l input kind) →
    w.job? t = some (.watch s l input kind)

end World

/-! ## Locks that nobody watches with -/

/-- An event lock is obtained under the key of an event. -/
theorem World.Places.ne_event {s : Site}
    (h : (w.withLocks (·.obtain s.tab s.id (LockKey.event s.id).text)).2.Places e l tab key)
    (hs : w.view.Sound e) (hkey : key.word ≠ "event") :
    (w.withLocks (·.obtain s.tab s.id (LockKey.event s.id).text)).1 ≠ l := by
  rintro rfl
  obtain ⟨y, hy, -, hykey, -⟩ := hs.locks.obtain_spec s.tab s.id (LockKey.event s.id).text
  exact hkey (LockKey.word_eq_of_text (hykey.symm.trans (h.lock y hy).2)).1.symm

/-- What starts no watcher of a lock. -/
def Limits.watchless (e : Engine) (l : LockId) (tab : String) (key : LockKey) : Limits where
  Fits := World.Places e l tab key
  Allows := World.Watchless l
  Signals _ := True
  Evaluates _ := True
  Runs _ := True
  Exempts _ := False

theorem World.Watchless.of_tasks (h : w'.view.tasks = w.view.tasks) : World.Watchless l w w' :=
  fun t s input kind hj => by rwa [World.job?_eq, h, ← World.job?_eq] at hj

/-- What leaves a lock to those who have it starts no watcher of it. -/
theorem World.Aloof.allowed (h : World.Aloof l w w') :
    (Limits.watchless e l tab key).Allows w w' := h.watched

open World in
instance : BlockLimits (.watchless e l tab key) where
  refl w := Aloof.allowed (.refl w)
  trans h h' t s input kind hj := h t s input kind (h' t s input kind hj)
  fresh _ := Aloof.allowed (.of_eq rfl rfl)
  modifyGeneration w n f := Aloof.allowed (.modifyGeneration w n f)
  newTask w j hj := Aloof.allowed (.addTask rfl (World.view_newTask w j) fun s input kind h => by
    cases h
    cases hj)
  wake w t := Aloof.allowed (.of_view (World.view_wake w t))
  modifyTask w t f hf := Aloof.allowed (.modifyTask w t fun r => (hf r).1)
  notifications _ _ := Aloof.allowed (.of_eq rfl rfl)
  obtain w tab owner key := Aloof.allowed (.obtain w tab owner key)
  register w l f := Aloof.allowed (.register w l f)
  close w m := Aloof.allowed (.of_spec (.inr ⟨m, rfl⟩) rfl)
  deliver w l v := Aloof.allowed (.deliver w l v)
  settle w t p := Aloof.allowed (.settle w t p)
  evaluates _ := trivial
  runs _ := trivial
  watches _ := ⟨trivial, fun _ => trivial⟩

open World in
instance : SupervisorLimits (.watchless e l tab key) where
  release w _ := Aloof.allowed (.releaseLocks w _ (LockTable.lock?_releaseLocks _ _))
  releaseAll w := Aloof.allowed (.releaseLocks w _ (LockTable.lock?_releaseLocks _ _))
  unsubscribe w l i := Aloof.allowed (.unsubscribe w l i)
  note _ _ _ := Aloof.allowed (.of_eq rfl rfl)
  declare _ _ _ _ := Aloof.allowed (.of_eq rfl rfl)
  once _ := trivial
  newGeneration _ _ _ _ := Aloof.allowed (.of_eq rfl rfl)
  tabs _ _ := Aloof.allowed (.of_eq rfl rfl)
  turn _ _ := Aloof.allowed (.of_eq rfl rfl)

open World in
instance : MoveLimits (.watchless e l tab key) where
  finish w t := Aloof.allowed (.finish w t)
  forsake w t p := Aloof.allowed (.forsake w t p)
  reschedule h := Aloof.allowed (.of_view h.view)
  newCaller w := Aloof.allowed (.addTask rfl (World.view_newCaller w) nofun)

theorem Limits.opens_watchless (key' : LockKey) : (Limits.watchless e l tab key).Opens key' where
  found _ _ _ _ _ := trivial
  across _ _ _ _ := trivial
  obtained _ _ _ _ _ := trivial

/-- No block watches with a lock of another key. -/
theorem Limits.suits_watchless (hkey : key.word ≠ "event") (s : Site) (o : Opcode) :
    (Limits.watchless e l tab key).Suits s o := by
  have hwrite : ∀ id v, (Execution.writeVariable id v).Within (Limits.watchless e l tab key) :=
    fun id => .writeVariable (opens_watchless _) fun _ _ => World.Aloof.allowed (.of_eq rfl rfl)
  exact {
    keeps := .setValue s.generation (opens_watchless _) valueKey
    sets := fun _ => hwrite _
    adds := fun _ _ => .look_bind fun _ _ => (hwrite _ _).bind fun _ => .done ()
    listens := fun _ _ _ _ _ _ => .change fun w _ _ => by
      refine BasicLimits.trans ?_ (BasicLimits.modifyGeneration _ s.generation.number _)
      exact World.Watchless.of_tasks rfl
    sends := fun _ _ => opens_watchless _
    calls := fun _ _ => opens_watchless _
    watches := fun input kind hkind w hw hw' => .atomically fun w₁ _ _ =>
      BasicLimits.trans (BasicLimits.fresh w₁) (World.Aloof.allowed
        (.spawn _ _ _ _ fun s' input' kind' hj =>
          hw'.ne_event hw.sound hkey (Job.watch.inj hj).2.1)) }

theorem Run.places (he : e.HasCore) (hc : Conducted e log₀ m φ ψ) (hrun : Run e m log m')
    (hplaces : m'.world.Places e l tab key) : m.world.Places e l tab key := by
  obtain ⟨φ', ψ', hc', hle⟩ := hc.extend (Engine.orderly_of_core he) hrun
  exact hplaces.of_le hc.sound hle

/-- Nobody watches with a lock that is not that of an event. -/
theorem Run.watchless (he : e.HasCore) (hrun : Run e (.start capacity) log m)
    (hplaces : m.world.Places e l tab key) (hkey : key.word ≠ "event") (t : TaskId) (s : Site)
    (input : String) (kind : WatchKind) : m.world.job? t ≠ some (.watch s l input kind) := by
  have horderly := Engine.orderly_of_core he
  have hstart := Conducted.start e capacity
  have hwithin := hrun.within (L := .watchless e l tab key) (X := fun _ => False) horderly hstart
    { strict := fun _ h => h
      fits := fun log₁ m₁ log₂ h₁ h₂ => by
        obtain ⟨φ₁, ψ₁, hc₁, -⟩ := hstart.extend horderly h₁
        exact h₂.places he hc₁ hplaces
      enters := fun _ _ _ s _ _ _ => he.withinAt (Limits.suits_watchless hkey s _)
      reacts := fun w l v hw _ r hr => Engine.within_react
        (fun s _ => .setValue s.generation (Limits.opens_watchless _) valueKey)
        (fun _ _ _ => .writeVariable (Limits.opens_watchless _)
          fun _ _ => World.Aloof.allowed (.of_eq rfl rfl))
        (World.ne_host_of_mem hw.sound hr) v
      works := fun t j _ _ => Engine.within_work
        (fun s _ _ _ _ => ⟨.setValue s.generation (Limits.opens_watchless _) valueKey, trivial⟩)
        fun _ _ _ _ _ => trivial }
    fun t p _ hp => by
      change (∅ : Std.ExtTreeMap TaskId (Execution Unit))[t]? = some p at hp
      simp at hp
  have hallows : (Limits.watchless e l tab key).Allows (World.start capacity) m.world :=
    hrun.allows fun t p w q w' hd hstep => (hwithin.2 _ hd id).2 q w' hstep
  intro hj
  have hj₀ := hallows t s input kind hj
  obtain ⟨r, hr, hrj⟩ := Option.bind_eq_some_iff.1 hj₀
  have hstanding : (World.start capacity).view.tasks t = some r.standing :=
    congrArg (Option.map TaskRecord.standing) hr
  cases hrj.symm.trans (congrArg Standing.job (Conducted.tasks_start hstanding).2)

/-! ## Limits around a variable and a lock -/

/-- Whatever keeps a variable and does not signal a lock, but for some executions. -/
def Limits.guarded (e : Engine) (l : LockId) (tab : String) (key : LockKey) (id : String)
    (X : ∀ {β : Type}, Execution β → Prop) : Limits where
  Fits := World.Places e l tab key
  Allows := World.Retains id
  Signals l' := l' ≠ l
  Evaluates _ := True
  Runs r := ∀ s l' input kind last, r = .watch s l' input kind last → l' ≠ l
  Exempts := X

section

variable {X : ∀ {β : Type}, Execution β → Prop}

open World in
instance : BlockLimits (.guarded e l tab key id X) where
  refl := Retains.refl
  trans := Retains.trans
  fresh _ := .of_vars rfl
  modifyGeneration w n f := .of_vars (Silent.modifyGeneration w n f).vars
  newTask _ _ _ := .of_vars rfl
  wake w t := .of_vars (Silent.wake w t).vars
  modifyTask w t f _ := .of_vars (Silent.modifyTask w t f).vars
  notifications _ _ := .of_vars rfl
  obtain _ _ _ _ := .of_vars rfl
  register _ _ _ := .of_vars rfl
  close _ _ := .of_vars rfl
  deliver _ _ _ := .of_vars rfl
  settle w t p := .of_vars (Silent.settle w t p).vars
  evaluates _ := trivial
  runs h s l' input kind last hr := by
    rw [hr] at h
    cases h
  watches h := ⟨h _ _ _ _ _ rfl, fun _ _ _ _ _ _ hr => by cases hr; exact h _ _ _ _ _ rfl⟩

open World in
instance : SupervisorLimits (.guarded e l tab key id X) where
  release _ _ := .of_vars rfl
  releaseAll _ := .of_vars rfl
  unsubscribe _ _ _ := .of_vars rfl
  note _ _ _ := .of_vars rfl
  declare := Retains.declare
  once _ _ _ _ _ _ hr := nomatch hr
  newGeneration _ _ _ _ := .of_vars rfl
  tabs _ _ := .of_vars rfl
  turn _ _ := .of_vars rfl

open World in
instance : MoveLimits (.guarded e l tab key id X) where
  finish w t := .of_vars (Silent.finish w t).vars
  forsake w t p := .of_vars (Silent.forsake w t p).vars
  reschedule h := .of_vars h.vars
  newCaller _ := .of_vars rfl

theorem Limits.opens_guarded (h : key'.text ≠ key.text) :
    (Limits.guarded e l tab key id X).Opens key' := opens_of_ne (fun _ h => h) (fun _ h => h) h

/-- Another variable is written, and the lock is not one of its locks. -/
theorem Limits.within_write_guarded {id' : String} (hid : id' ≠ id)
    (hkey : LockKey.text (.variableWrite id') ≠ key.text) (v : Json) :
    (Execution.writeVariable id' v).Within (.guarded e l tab key id X) :=
  .writeVariable (opens_guarded hkey) (fun w v => .write_of_ne hid w v) v

/-- A key that no block signals but to store a value or to write a variable. -/
def LockKey.IsKept (key : LockKey) : Prop :=
  key.word = "value" ∨ key.word = "variable"

theorem LockKey.IsKept.ne_event (h : key.IsKept) : key.word ≠ "event" := by
  rcases h with h | h <;> rw [h] <;> decide

theorem LockKey.IsKept.text_ne (h : key.IsKept) (h₁ : key'.word ≠ "value")
    (h₂ : key'.word ≠ "variable") : key'.text ≠ key.text := LockKey.text_ne fun heq => by
  rcases h with h | h
  · exact h₁ (heq.trans h)
  · exact h₂ (heq.trans h)

/-- Blocks keep to the limits, as far as their stores and writes do. -/
theorem Limits.suits_guarded (hkey : key.IsKept) {s : Site} {o : Opcode}
    (hkeeps : ∀ v, (Engine.keep s valueKey v).Within (.guarded e l tab key id X))
    (hsets : o = ⟨"data", "setvariableto"⟩ → ∀ v,
      (Execution.writeVariable (Library.variableId s) v).Within (.guarded e l tab key id X))
    (hadds : o = ⟨"data", "changevariableby"⟩ → ∀ v,
      (Execution.writeVariable (Library.variableId s) v).Within (.guarded e l tab key id X)) :
    (Limits.guarded e l tab key id X).Suits s o where
  keeps := hkeeps
  sets := hsets
  adds ho _ := .look_bind fun _ _ => (hadds ho _).bind fun _ => .done ()
  listens _ _ _ _ _ _ := .change fun _ _ _ => .of_vars (World.Silent.modifyGeneration ..).vars
  sends _ _ := opens_guarded (hkey.text_ne (by simp [LockKey.word]) (by simp [LockKey.word]))
  calls _ _ := opens_guarded (hkey.text_ne (by simp [LockKey.word]) (by simp [LockKey.word]))
  watches _ _ _ _ _ _ := .atomically fun w₁ _ _ =>
    BasicLimits.trans (BasicLimits.fresh w₁) (.of_vars (World.Silent.spawn ..).vars)

/-- A task keeps to the limits, as far as its stores do. -/
theorem Limits.within_work_guarded (hkey : key.IsKept) {j : Job} (hj : j.Coherent w.view)
    (hw : w.Places e l tab key) (hwatch : ∀ s input kind, j ≠ .watch s l input kind)
    (hkeeps : ∀ s v, (Engine.keep s valueKey v).Within (.guarded e l tab key id X)) :
    (e.work j).Within (Limits.guarded e l tab key id X) := by
  refine Engine.within_work (fun s arguments request returns hbody => ?_)
    fun s l' input kind hjob => ?_
  · refine ⟨hkeeps s, fun h => ?_⟩
    subst hbody
    subst h
    obtain ⟨-, signature, calls, x, y, -, hy, -, -, -, hykey, -⟩ := hj
    have hne : LockKey.text (.procedureReturn signature) ≠ key.text :=
      hkey.text_ne (by simp [LockKey.word]) (by simp [LockKey.word])
    exact hne (hykey.symm.trans (hw.lock y hy).2)
  · rintro _ _ _ _ _ hr rfl
    cases hr
    exact hwatch _ _ _ hjob

end

end BlockEngine
