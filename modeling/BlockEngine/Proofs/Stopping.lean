import BlockEngine.Proofs.Moves
import BlockEngine.Proofs.Script

/-!
# Stopping the tasks of a generation

Tasks are asked for, cancelled and end in any order, while one call ends the tasks of a generation.
Each change of the tasks that a generation keeps track of is one step.

* `Scene`, `Scene.Step`, `Story` : a state with the tasks accepted so far and what the call has left
  to do; what may happen next; any number of such steps;
* `Scene.Phase` : how far the call has come; `Phase.step` : every step keeps it;
* `Story.stops` : no task is missed, before the call, during it and after it.
-/

namespace BlockEngine

/-! ## What may happen -/

/-- Whatever happens to others: tasks stay, what has ended stays ended, and the generation `n` keeps
the tasks it tracks. -/
structure World.Elsewhere (n : Nat) (w w' : World) : Prop where
  taskCount : w.taskCount ≤ w'.taskCount
  task : ∀ t r, w.task? t = some r → ∃ r', w'.task? t = some r' ∧
    (r.cancelled = true → r'.cancelled = true) ∧ (r.ended = true → r'.ended = true)
  tracked : w'.tracked n = w.tracked n
  destroyed : w'.isDestroyed n = w.isDestroyed n

/-- A state, the tasks that a generation has accepted so far, and what the call that ends them still
has to do, once it is made. -/
structure Scene where
  world : World
  accepted : List TaskId
  ending : Option (Execution Unit)

/-- The scene after a generation has been made. -/
def Scene.opened (w : World) (tab tabName : String) (graph : Graph) : Scene :=
  ⟨(w.newGeneration tab tabName graph).2, [], none⟩

/-- What may happen next to the tasks of the generation `g`, when the caller `c` ends them. -/
inductive Scene.Step (e : Engine) (g : Generation) (c : TaskId) : Scene → Scene → Prop
  /-- Somebody asks for a task. -/
  | spawn {w ts p} (description : String) (context : Context) (job : Job) :
      Step e g c ⟨w, ts, p⟩
        ⟨(w.spawn g.number description context job).2,
          ts ++ (w.spawn g.number description context job).1.toList, p⟩
  /-- Somebody cancels a context. -/
  | cancelContext {w ts p} (context : Nat) :
      Step e g c ⟨w, ts, p⟩ ⟨(w.cancelContext g.number context).2, ts, p⟩
  /-- A task has done its work. -/
  | finish {w ts p} (t : TaskId) : Step e g c ⟨w, ts, p⟩ ⟨w.finish t, ts, p⟩
  /-- A cancelled task goes away from its work. -/
  | leave {w ts p} {t : TaskId} (q : Execution Unit) :
      Machine.isCancelled w t = true → Step e g c ⟨w, ts, p⟩ ⟨Machine.leave w t q, ts, p⟩
  /-- The call is made. -/
  | call {w ts} : Step e g c ⟨w, ts, none⟩ ⟨w, ts, some (Supervisor.endTasks g)⟩
  /-- The call goes on by a step. -/
  | perform {w w' ts p q} :
      e.step c w p = some (q, w') → Step e g c ⟨w, ts, some p⟩ ⟨w', ts, some q⟩
  | elsewhere {w w' ts p} : w.Elsewhere g.number w' → Step e g c ⟨w, ts, p⟩ ⟨w', ts, p⟩

/-- Any number of steps. -/
inductive Story (e : Engine) (g : Generation) (c : TaskId) (s : Scene) : Scene → Prop
  | refl : Story e g c s s
  | step {s' s'' : Scene} : Story e g c s s' → Scene.Step e g c s' s'' → Story e g c s s''

variable {e : Engine} {g : Generation} {c t : TaskId} {w w' w'' : World} {ts : List TaskId}
  {p : Option (Execution Unit)} {s s' : Scene} {n : Nat}

/-! ## Tasks of others -/

namespace World.Elsewhere

theorem refl (n : Nat) (w : World) : w.Elsewhere n w :=
  ⟨Nat.le_refl _, fun _ r hr => ⟨r, hr, id, id⟩, rfl, rfl⟩

theorem trans (h : w.Elsewhere n w') (h' : w'.Elsewhere n w'') : w.Elsewhere n w'' where
  taskCount := Nat.le_trans h.taskCount h'.taskCount
  task t r hr := by
    obtain ⟨r', hr', hc, he⟩ := h.task t r hr
    obtain ⟨r'', hr'', hc', he'⟩ := h'.task t r' hr'
    exact ⟨r'', hr'', hc' ∘ hc, he' ∘ he⟩
  tracked := h'.tracked.trans h.tracked
  destroyed := h'.destroyed.trans h.destroyed

/-- A state that grows while the generation keeps its tasks. -/
theorem of_view (hle : w.view ≤ w'.view) (htracked : w'.tracked n = w.tracked n)
    (hdestroyed : w'.isDestroyed n = w.isDestroyed n) : w.Elsewhere n w' where
  taskCount := hle.taskCount
  task t r hr := by
    obtain ⟨x, hx, -, hc, he⟩ := hle.task t r.standing (by rw [view_tasks, hr]; rfl)
    obtain ⟨r', hr', rfl⟩ := Option.map_eq_some_iff.1 hx
    exact ⟨r', hr', hc, he⟩
  tracked := htracked
  destroyed := hdestroyed

/-- A state that grows while the generation stays as it is. -/
theorem of_generation (hle : w.view ≤ w'.view) (hgen : w'.generation? n = w.generation? n) :
    w.Elsewhere n w' :=
  of_view hle (by unfold World.tracked; rw [hgen]) (by unfold World.isDestroyed; rw [hgen])

theorem of_view_eq (h : w'.view = w.view) : w.Elsewhere n w' :=
  of_generation (h ▸ View.le_refl _) (congrArg (View.generation? · n) h)

theorem cancel (n : Nat) (w : World) (t : TaskId) : w.Elsewhere n (w.cancel t) := by
  apply of_generation
  · rw [view_cancel]
    exact View.le_cancel ..
  · rw [← view_generation?, view_cancel]
    rfl

theorem cancelAll (n : Nat) (w : World) (ts : List TaskId) :
    w.Elsewhere n (ts.foldl World.cancel w) := by
  induction ts generalizing w with
  | nil => exact refl n w
  | cons t ts ih => exact (cancel n w t).trans (ih _)

theorem finish (n : Nat) (w : World) (t : TaskId) : w.Elsewhere n (w.finish t) := by
  obtain ⟨holder, hyield, -⟩ := view_yieldTurn_spec w t
  have hle : w.view ≤ { w.view with holder } :=
    View.le_of_eq (Nat.le_refl _) (.refl _) rfl rfl rfl
  apply of_generation
  · rw [view_finish, hyield]
    exact View.le_trans hle (View.le_modifyTask _ t _ fun _ => ⟨rfl, id, fun _ => rfl⟩)
  · rw [← view_generation?, view_finish, hyield]
    rfl

theorem leave (n : Nat) (w : World) (t : TaskId) (q : Execution Unit) :
    w.Elsewhere n (Machine.leave w t q) := by
  obtain ⟨holder, locks, hview, -, hlocks⟩ := view_forsake w t q
  have hle : w.locks.Le locks := by
    rcases hlocks with rfl | ⟨m, d, k, -, rfl⟩
    · exact .refl _
    · exact .close ..
  have hforsake : w.Elsewhere n (Machine.forsake w t q) := by
    apply of_generation
    · rw [hview]
      exact View.le_of_eq (Nat.le_refl _) hle rfl rfl rfl
    · rw [← view_generation?, hview]
      rfl
  exact hforsake.trans (finish n _ t)

theorem isEnded (h : w.Elsewhere n w') {r : TaskRecord} (hr : w.task? t = some r)
    (hend : w'.isEnded t = false) : w.isEnded t = false := by
  obtain ⟨r', hr', -, he⟩ := h.task t r hr
  unfold World.isEnded at hend ⊢
  rw [hr'] at hend
  rw [hr]
  cases hended : r.ended with
  | false => simp [hended]
  | true => simp [he hended] at hend

end World.Elsewhere

/-! ## A task more -/

namespace World

theorem spawn_of_destroyed (h : w.isDestroyed n = true) (d : String) (ctx : Context) (j : Job) :
    w.spawn n d ctx j = (none, w) := by
  unfold spawn
  rw [if_pos h]

/-- What a generation that takes tasks does with a new one: it gets the next number and is tracked,
beside all that have not ended. -/
theorem spawn_spec (h : w.isDestroyed n = false) (d : String) (ctx : Context) (j : Job) :
    (w.spawn n d ctx j).1 = some w.taskCount ∧
      (w.spawn n d ctx j).2.taskCount = w.taskCount + 1 ∧
      (∀ t, (w.spawn n d ctx j).2.task? t =
        if t = w.taskCount then some ⟨some j, true, false, false, []⟩ else w.task? t) ∧
      (w.spawn n d ctx j).2.isDestroyed n = false ∧
      (w.spawn n d ctx j).2.tracked n = ((w.tracked n).filter fun y =>
        !(w.newTask j).2.isEnded y.task) ++ [⟨w.taskCount, d, ctx⟩] := by
  obtain ⟨x, hx, hlive⟩ : ∃ x, w.generations[n]? = some x ∧ x.destroyed = false :=
    View.exists_of_isDestroyed (v := w.view) h
  unfold spawn
  rw [if_neg (by rw [h]; exact Bool.false_ne_true)]
  have hgen : (w.newTask j).2.generations[n]? = some x := hx
  simp only [modifyGeneration, hgen]
  refine ⟨rfl, rfl, fun t => ?_, ?_, ?_⟩
  · simp only [task?, newTask]
    rw [Std.ExtTreeMap.getElem?_insert]
    by_cases ht : w.taskCount = t
    · simp [ht]
    · simp [ht, Ne.symm ht]
  · simp [isDestroyed, generation?, hlive]
  · simp [tracked, generation?, hx, newTask]

end World

/-! ## How far the call has come -/

/-- The tasks accepted so far are there, and the generation tracks no others. -/
structure Scene.Kept (g : Generation) (w : World) (ts : List TaskId) : Prop where
  known : ∀ t ∈ ts, t < w.taskCount ∧ ∃ r, w.task? t = some r
  tracked : ∀ y ∈ w.tracked g.number, y.task ∈ ts

/-- The generation is destroyed. The call still has to cancel `left` and to await `us`: what has not
ended is awaited, and what is awaited has ended or has been asked to. -/
structure Scene.Closing (g : Generation) (w : World) (ts left us : List TaskId) : Prop where
  destroyed : w.isDestroyed g.number = true
  untracked : w.tracked g.number = []
  live : ∀ t ∈ ts, w.isEnded t = false → t ∈ us
  accepted : ∀ t ∈ us, t ∈ ts
  asked : ∀ t ∈ us, t ∉ left → w.isEnded t = true ∨ Machine.isCancelled w t = true

/-- What is true of the accepted tasks, by what the call has left to do. As long as the call has not
destroyed the generation, what has not ended is tracked. -/
inductive Scene.Phase (g : Generation) (w : World) (ts : List TaskId) :
    Option (Execution Unit) → Prop
  | opened {r : Option (Execution Unit)} :
      r = none ∨ r = some (Supervisor.endTasks g) → w.isDestroyed g.number = false →
      (∀ t ∈ ts, w.isEnded t = false → ∃ y ∈ w.tracked g.number, y.task = t) → Phase g w ts r
  | closing {left us : List TaskId} :
      Scene.Closing g w ts left us →
      Phase g w ts
        (some ((Supervisor.cancelAll left).bind fun _ => Supervisor.awaitAll us))

namespace Scene

theorem Kept.elsewhere (h : Kept g w ts) (hw : w.Elsewhere g.number w') : Kept g w' ts where
  known t ht := by
    obtain ⟨hlt, r, hr⟩ := h.known t ht
    obtain ⟨r', hr', -⟩ := hw.task t r hr
    exact ⟨Nat.lt_of_lt_of_le hlt hw.taskCount, r', hr'⟩
  tracked y hy := h.tracked y (hw.tracked ▸ hy)

/-- A task that was accepted and has not ended had not ended before. -/
theorem Kept.ended (hk : Kept g w ts) (hw : w.Elsewhere g.number w') (ht : t ∈ ts)
    (hend : w'.isEnded t = false) : w.isEnded t = false := by
  obtain ⟨-, r, hr⟩ := hk.known t ht
  exact hw.isEnded hr hend

theorem Closing.elsewhere {left us : List TaskId} (h : Closing g w ts left us) (hk : Kept g w ts)
    (hw : w.Elsewhere g.number w') : Closing g w' ts left us where
  destroyed := hw.destroyed.trans h.destroyed
  untracked := hw.tracked.trans h.untracked
  live t ht hend := h.live t ht (hk.ended hw ht hend)
  accepted := h.accepted
  asked t ht hleft := by
    obtain ⟨-, r, hr⟩ := hk.known t (h.accepted t ht)
    obtain ⟨r', hr', hc, he⟩ := hw.task t r hr
    refine (h.asked t ht hleft).imp (fun hended => ?_) fun hcancelled => ?_
    · unfold World.isEnded at hended ⊢
      rw [hr] at hended
      rw [hr']
      exact he hended
    · unfold Machine.isCancelled at hcancelled ⊢
      rw [hr] at hcancelled
      rw [hr']
      exact hc hcancelled

theorem Phase.elsewhere (h : Phase g w ts p) (hk : Kept g w ts) (hw : w.Elsewhere g.number w') :
    Phase g w' ts p := by
  cases h with
  | opened hp hd htr =>
    refine .opened hp (hw.destroyed.trans hd) fun t ht hend => ?_
    rw [hw.tracked]
    exact htr t ht (hk.ended hw ht hend)
  | closing h => exact .closing (h.elsewhere hk hw)

/-! ### Steps -/

/-- A task more is tracked; a destroyed generation takes none. -/
theorem spawned (h : Phase g w ts p) (hk : Kept g w ts) (d : String) (ctx : Context) (j : Job) :
    Kept g (w.spawn g.number d ctx j).2 (ts ++ (w.spawn g.number d ctx j).1.toList) ∧
      Phase g (w.spawn g.number d ctx j).2 (ts ++ (w.spawn g.number d ctx j).1.toList) p := by
  cases h with
  | closing h =>
    rw [World.spawn_of_destroyed h.destroyed, Option.toList_none, List.append_nil]
    exact ⟨hk, .closing h⟩
  | opened hp hd htr =>
    obtain ⟨hsome, hcount, htask, hd', htr'⟩ := World.spawn_spec hd d ctx j
    have hold : ∀ t ∈ ts, (w.spawn g.number d ctx j).2.task? t = w.task? t := by
      intro t ht
      rw [htask, if_neg (Nat.ne_of_lt (hk.known t ht).1)]
    rw [hsome, Option.toList_some]
    refine ⟨⟨fun t ht => ?_, fun y hy => ?_⟩, .opened hp hd' fun t ht hend => ?_⟩
    · rcases List.mem_append.1 ht with ht | ht
      · obtain ⟨hlt, r, hr⟩ := hk.known t ht
        exact ⟨hcount ▸ Nat.lt_succ_of_lt hlt, r, (hold t ht).trans hr⟩
      · rw [List.mem_singleton.1 ht, hcount, htask, if_pos rfl]
        exact ⟨Nat.lt_succ_self _, _, rfl⟩
    · rw [htr'] at hy
      rcases List.mem_append.1 hy with hy | hy
      · exact List.mem_append_left _ (hk.tracked y (List.mem_filter.1 hy).1)
      · rw [List.mem_singleton.1 hy]
        exact List.mem_append_right _ (List.mem_singleton_self _)
    · rw [htr']
      rcases List.mem_append.1 ht with ht | ht
      · have hlive : w.isEnded t = false := by
          unfold World.isEnded at hend ⊢
          rwa [hold t ht] at hend
        obtain ⟨y, hy, rfl⟩ := htr t ht hlive
        refine ⟨y, List.mem_append_left _ (List.mem_filter.2 ⟨hy, ?_⟩), rfl⟩
        have hnew : (w.newTask j).2.isEnded y.task = w.isEnded y.task := by
          unfold World.isEnded World.task? World.newTask
          rw [Std.ExtTreeMap.getElem?_insert, if_neg]
          simpa using Nat.ne_of_gt (hk.known _ ht).1
        rw [hnew, hlive]
        rfl
      · exact ⟨_, List.mem_append_right _ (List.mem_singleton_self _),
          (List.mem_singleton.1 ht).symm⟩

/-- The generation is destroyed: its tasks are to be cancelled and awaited. -/
theorem closing_destroy (hk : Kept g w ts) (hd : w.isDestroyed g.number = false)
    (htr : ∀ t ∈ ts, w.isEnded t = false → ∃ y ∈ w.tracked g.number, y.task = t) :
    Kept g (w.destroy g.number).2 ts ∧
      Closing g (w.destroy g.number).2 ts (w.destroy g.number).1 (w.destroy g.number).1 := by
  obtain ⟨x, hx, -⟩ : ∃ x, w.generations[g.number]? = some x ∧ x.destroyed = false :=
    View.exists_of_isDestroyed (v := w.view) hd
  have hgen : (w.destroy g.number).2.generation? g.number =
      some { x with tracked := [], destroyed := true } := by
    simp [World.destroy, World.modifyGeneration, World.generation?, hx]
  have htask : ∀ t, (w.destroy g.number).2.task? t = w.task? t := by
    intro t
    simp [World.destroy, World.modifyGeneration, World.task?, hx]
  have hcount : (w.destroy g.number).2.taskCount = w.taskCount := by
    simp [World.destroy, World.modifyGeneration, hx]
  have htracked : (w.destroy g.number).2.tracked g.number = [] := by
    simp [World.tracked, hgen]
  refine ⟨⟨fun t ht => ?_, fun y hy => ?_⟩, ?_, htracked, fun t ht hend => ?_, fun t ht => ?_,
    fun t ht hleft => absurd ht hleft⟩
  · rw [htask, hcount]
    exact hk.known t ht
  · rw [htracked] at hy
    cases hy
  · simp [World.isDestroyed, hgen]
  · obtain ⟨y, hy, rfl⟩ := htr t ht (by unfold World.isEnded at hend ⊢; rwa [htask] at hend)
    exact List.mem_map_of_mem hy
  · obtain ⟨y, hy, rfl⟩ := List.mem_map.1 ht
    exact hk.tracked y hy

/-- The next task is cancelled. -/
theorem Closing.cancel {u : TaskId} {left us : List TaskId} (h : Closing g w ts (u :: left) us)
    (hk : Kept g w ts) : Closing g (w.cancel u) ts left us := by
  have hw := World.Elsewhere.cancel g.number w u
  refine { h.elsewhere hk hw with asked := fun t ht hleft => ?_ }
  by_cases htu : t = u
  · subst htu
    obtain ⟨-, r, hr⟩ := hk.known t (h.accepted t ht)
    have hview : (w.cancel t).view.tasks t =
        some ⟨r.job, r.cancelled || !r.ended, r.ended⟩ := by
      rw [World.view_cancel, View.cancel, View.tasks_modifyTask, if_pos rfl, World.view_tasks, hr]
      rfl
    obtain ⟨r', hr', hstanding⟩ := Option.map_eq_some_iff.1 hview
    injection hstanding with hjob hcancelled hended
    cases hend : r.ended with
    | true =>
      refine .inl ?_
      unfold World.isEnded
      rw [hr']
      exact hended.trans hend
    | false =>
      refine .inr ?_
      unfold Machine.isCancelled
      rw [hr']
      simpa [hend] using hcancelled
  · exact (h.elsewhere hk hw).asked t ht (by simp [htu, hleft])

/-- The call goes on: it destroys the generation, cancels a task or has awaited one. -/
theorem performed {q q' : Execution Unit} (h : Phase g w ts (some q)) (hk : Kept g w ts)
    (hstep : e.step c w q = some (q', w')) : Kept g w' ts ∧ Phase g w' ts (some q') := by
  cases h with
  | opened hp hd htr =>
    obtain rfl : q = Supervisor.endTasks g := by simpa using hp
    obtain ⟨rfl, rfl⟩ := Prod.mk.inj (Option.some.inj hstep)
    obtain ⟨hk', hclosing⟩ := closing_destroy hk hd htr
    exact ⟨hk', .closing hclosing⟩
  | @closing left us h =>
    cases left with
    | cons u left =>
      obtain ⟨rfl, rfl⟩ := Prod.mk.inj (Option.some.inj hstep)
      exact ⟨hk.elsewhere (.cancel g.number w u), .closing (h.cancel hk)⟩
    | nil =>
      cases us with
      | nil => cases hstep
      | cons u us =>
        obtain ⟨r, hr, rfl, rfl⟩ := Engine.step_pause hstep
        have hw : w.Elsewhere g.number (w.settle c (.ended u)) :=
          .of_view_eq (World.view_settle w c (.ended u))
        have hended : w.isEnded u = true := by
          simp only [World.answer?] at hr
          split at hr
          · next hu => exact hu
          · cases hr
        have h' := h.elsewhere hk hw
        have hrest : Closing g (w.settle c (.ended u)) ts [] us :=
          { h' with
            live := fun t ht hend => by
              have hlive := hk.ended hw ht hend
              rcases List.mem_cons.1 (h.live t ht hlive) with rfl | ht'
              · exact absurd (hended.symm.trans hlive) (by simp)
              · exact ht'
            accepted := fun t ht => h.accepted t (List.mem_cons_of_mem _ ht)
            asked := fun t ht => h'.asked t (List.mem_cons_of_mem _ ht) }
        exact ⟨hk.elsewhere hw, .closing hrest⟩

/-- A call that has returned has nothing left to cancel or to await. -/
theorem Phase.of_done (h : Phase g w ts (some (.done ()))) :
    Closing g w ts [] [] := by
  generalize hq : (Execution.done () : Execution Unit) = q at h
  cases h with
  | opened hp =>
    obtain rfl : q = Supervisor.endTasks g := by simpa using hp
    cases hq
  | @closing left us h =>
    rcases left with _ | ⟨u, left⟩
    · rcases us with _ | ⟨u, us⟩
      · exact h
      · cases hq
    · cases hq

/-- Every step keeps what is true of the accepted tasks. -/
theorem Step.kept (h : Step e g c s s') (hk : Kept g s.world s.accepted)
    (hp : Phase g s.world s.accepted s.ending) :
    Kept g s'.world s'.accepted ∧ Phase g s'.world s'.accepted s'.ending := by
  have hothers : ∀ {w'}, s.world.Elsewhere g.number w' →
      Kept g w' s.accepted ∧ Phase g w' s.accepted s.ending := fun hw =>
    ⟨hk.elsewhere hw, hp.elsewhere hk hw⟩
  cases h with
  | spawn d ctx j => exact spawned hp hk d ctx j
  | cancelContext context => exact hothers (.cancelAll g.number _ _)
  | finish t => exact hothers (.finish g.number _ t)
  | leave q => exact hothers (.leave g.number _ _ q)
  | elsewhere hw => exact hothers hw
  | perform hstep => exact performed hp hk hstep
  | call =>
    cases hp with
    | opened _ hd htr => exact ⟨hk, .opened (.inr rfl) hd htr⟩

end Scene

theorem Story.kept (h : Story e g c s s') (hk : Scene.Kept g s.world s.accepted)
    (hp : Scene.Phase g s.world s.accepted s.ending) :
    Scene.Kept g s'.world s'.accepted ∧ Scene.Phase g s'.world s'.accepted s'.ending := by
  induction h with
  | refl => exact ⟨hk, hp⟩
  | step _ hstep ih => exact hstep.kept ih.1 ih.2

/-! ## Every move of an engine -/

namespace View

/-- The tasks a generation keeps track of. -/
def tracked (v : View) (n : Nat) : List Tracked := ((v.generation? n).map (·.tracked)).getD []

variable {v v' : View}

theorem tracked_of_eq (h : v'.generation? n = v.generation? n) : v'.tracked n = v.tracked n := by
  unfold tracked
  rw [h]

theorem tracked_modifyGeneration {f : GenerationState → GenerationState} (hf : KeepsTasks f)
    (k : Nat) : (v.modifyGeneration k f).tracked n = v.tracked n := by
  unfold tracked
  rw [generation?_modifyGeneration]
  split
  · next hk =>
    subst hk
    cases v.generation? n with
    | none => rfl
    | some s => exact (hf s).2.1
  · rfl

/-- A generation tracks the same tasks as before, or has just been asked for one more. -/
def Tracks (v v' : View) (n : Nat) : Prop :=
  v'.tracked n = v.tracked n ∨
    ∃ i d ctx j, v.issued ≤ i ∧ v' = { v with issued := i }.spawn n d ctx j

theorem Tracks.spawn {i : Nat} (hi : v.issued ≤ i) (k : Nat) (d : String) (ctx : Context)
    (j : Job) : v.Tracks ({ v with issued := i }.spawn k d ctx j) n := by
  by_cases hk : k = n
  · subst hk
    exact .inr ⟨i, d, ctx, j, hi, rfl⟩
  · refine .inl ?_
    unfold View.spawn
    split
    · rfl
    · refine tracked_of_eq ?_
      rw [generation?_modifyGeneration, if_neg (Ne.symm hk)]
      rfl

end View

section
variable {u : TaskId} {γ γ' : Stage} {σ σ' : Stance} {v v' : View} {lapsed : Prop}
  {lost : Nat → Prop} {φ φ' : TaskId → Stage} {ψ ψ' : TaskId → Stance} {log ds : List Deed}
  {m m' : Machine}

theorem Effect.tracks (h : Effect e u (φ u) v γ' v') (hv : v.Sound e)
    (hs : Supervised lapsed lost φ v) {x : GenerationState} (hx : v.generation? n = some x)
    (hd : v'.isDestroyed n = v.isDestroyed n) : v.Tracks v' n := by
  cases h with
  | touch hf => exact .inl (View.tracked_modifyGeneration hf _)
  | spawn hi => exact .spawn hi ..
  | listen =>
    exact .inl (View.tracked_modifyGeneration (GenerationState.keepsTasks_addListener _ _) _)
  | unlisten => exact .inl (View.tracked_modifyGeneration GenerationState.keepsTasks_dropListeners _)
  | @cancel _ _ _ ts =>
    refine .inl (View.tracked_of_eq ?_)
    unfold View.generation?
    rw [(View.cancelAll_spec v ts).1]
  | @destroy hand k rest hhand htaken =>
    by_cases hk : n = k
    · subst hk
      obtain ⟨s, hgen, hlive, -⟩ := (hs.hands u hand hhand).taken n (htaken ▸ List.mem_cons_self)
      have hdead := View.isDestroyed_destroy v n
      rw [hd, View.isDestroyed_of_some hgen, hlive] at hdead
      cases hdead
    · refine .inl (View.tracked_of_eq ?_)
      rw [View.generation?_destroy, if_neg hk]
  | mark | install =>
    refine .inl (View.tracked_of_eq ?_)
    unfold View.modifyTab
    split <;> rfl
  | renew =>
    refine .inl (View.tracked_of_eq ?_)
    unfold View.generation?
    rw [View.get?_generations_insert, if_neg (Nat.ne_of_lt (hv.generationsNumbered n x hx))]
    rfl
  | _ => exact .inl rfl

theorem Talk.tracks (h : Talk e σ v σ' v') : v.Tracks v' n := by
  cases h with
  | startBody => exact .spawn (Nat.le_succ _) ..
  | _ => exact .inl rfl

theorem Change.tracks (h : Change e u γ σ v γ' σ' v') (hγ : γ = φ u) (hv : v.Sound e)
    (hs : Supervised lapsed lost φ v) {x : GenerationState} (hx : v.generation? n = some x)
    (hd : v'.isDestroyed n = v.isDestroyed n) : v.Tracks v' n := by
  cases h with
  | effect heff => subst hγ; exact heff.tracks hv hs hx hd
  | talk htalk => exact htalk.tracks

theorem Passage.tracks (h : Passage e log m φ ψ ds v' φ' ψ') (hm : Conducted e log m φ ψ)
    {x : GenerationState} (hx : m.world.generation? n = some x)
    (hd : v'.isDestroyed n = m.world.view.isDestroyed n) : m.world.view.Tracks v' n := by
  cases h with
  | change _ _ _ hchange => exact hchange.tracks rfl hm.sound hm.supervised hx hd
  | store => exact .inl (View.tracked_modifyGeneration (GenerationState.keepsTasks_store _ _ _) _)
  | reply => exact .inl rfl
  | depart _ _ _ hsettles | still hsettles =>
    refine .inl (View.tracked_of_eq ?_)
    unfold View.generation?
    rw [hsettles.generations]

/-- Every move of an engine that does not destroy a generation is nothing else than what may happen
to the tasks of that generation. -/
theorem Conducted.story (he : e.Orderly) (h : Conducted e log m φ ψ) (hmove : Move e m ds m')
    {x : GenerationState} (hx : m.world.generation? g.number = some x)
    (hd : m'.world.isDestroyed g.number = m.world.isDestroyed g.number) :
    ∃ us, Story e g c ⟨m.world, ts, p⟩ ⟨m'.world, us, p⟩ := by
  obtain ⟨φ', ψ', hpassage, -⟩ := h.move he hmove
  have hle := hpassage.le h.sound
  rcases hpassage.tracks h hx hd with hsame | ⟨i, d, ctx, j, hi, hview⟩
  · exact ⟨ts, .step .refl (.elsewhere (.of_view hle hsame hd))⟩
  · let w₁ : World := { m.world with issued := i }
    have hdraw : m.world.Elsewhere g.number w₁ := .of_view (View.le_draw hi) rfl rfl
    have hspawn : (w₁.spawn g.number d ctx j).2.view = m'.world.view := by
      rw [World.view_spawn]
      exact hview.symm
    exact ⟨_, .step (.step (.step .refl (.elsewhere hdraw)) (.spawn d ctx j))
      (.elsewhere (.of_view_eq hspawn.symm))⟩

end

/-! ## No task is missed -/

/-- A new generation tracks nothing and takes tasks. -/
theorem Scene.opened_kept (w : World) (tab tabName : String) (graph : Graph) :
    Kept (w.newGeneration tab tabName graph).1 (opened w tab tabName graph).world [] ∧
      Phase (w.newGeneration tab tabName graph).1 (opened w tab tabName graph).world [] none := by
  have hgen : (w.newGeneration tab tabName graph).2.generation?
      (w.newGeneration tab tabName graph).1.number = some (.new tab) := by
    simp [World.newGeneration, World.fresh, World.generation?]
  refine ⟨⟨fun t ht => absurd ht List.not_mem_nil, fun y hy => ?_⟩,
    .opened (.inl rfl) ?_ fun t ht => absurd ht List.not_mem_nil⟩
  · simp [opened, World.tracked, hgen, GenerationState.new] at hy
  · simp [opened, World.isDestroyed, hgen, GenerationState.new]

/-- From the start of a generation on, in whatever order tasks are asked for, cancelled and end:

* until the one call that ends its tasks is made the generation takes every task, and every
  accepted task that has not ended is tracked;
* as long as the call has not returned it can go on, unless it waits for an accepted task that it
  has cancelled and that has not ended yet;
* once the call has returned all accepted tasks have ended, none is tracked, and asking for another
  one gets none and changes nothing. -/
theorem Story.stops {w₀ : World} {tab tabName : String} {graph : Graph}
    (h : Story e (w₀.newGeneration tab tabName graph).1 c (.opened w₀ tab tabName graph) s)
    {n : Nat} (hn : n = (w₀.newGeneration tab tabName graph).1.number) :
    (s.ending = none →
      (∀ description context job, ∃ t, (s.world.spawn n description context job).1 = some t) ∧
      ∀ t ∈ s.accepted, s.world.isEnded t = false → ∃ y ∈ s.world.tracked n, y.task = t) ∧
    (∀ p, s.ending = some p → p = .done () ∨ (∃ q w, e.step c s.world p = some (q, w)) ∨
      ∃ t ∈ s.accepted, ∃ k, p = .pause (.ended t) k ∧ s.world.isEnded t = false ∧
        Machine.isCancelled s.world t = true) ∧
    (s.ending = some (.done ()) →
      (∀ t ∈ s.accepted, ∃ r, s.world.task? t = some r ∧ r.ended = true) ∧
      s.world.tracked n = [] ∧
      ∀ description context job, s.world.spawn n description context job = (none, s.world)) := by
  subst hn
  obtain ⟨hk₀, hp₀⟩ := Scene.opened_kept w₀ tab tabName graph
  obtain ⟨hk, hp⟩ := h.kept hk₀ hp₀
  generalize (w₀.newGeneration tab tabName graph).1 = g at hk hp ⊢
  obtain ⟨w, ts, p⟩ := s
  refine ⟨?_, ?_, ?_⟩
  · rintro rfl
    cases hp with
    | opened _ hd htr => exact ⟨fun d ctx j => ⟨_, (World.spawn_spec hd d ctx j).1⟩, htr⟩
  · rintro p rfl
    cases hp with
    | opened hp hd htr =>
      obtain rfl : p = Supervisor.endTasks g := by simpa using hp
      exact .inr (.inl ⟨_, _, rfl⟩)
    | @closing left us h =>
      rcases left with _ | ⟨u, left⟩
      · rcases us with _ | ⟨u, us⟩
        · exact .inl rfl
        · cases hend : w.isEnded u with
          | true =>
            have hanswer : w.answer? c (.ended u) = some () := if_pos hend
            exact .inr (.inl ⟨_, _, congrArg (Option.map _) hanswer⟩)
          | false =>
            refine .inr (.inr ⟨u, h.accepted u List.mem_cons_self, _, rfl, hend, ?_⟩)
            rcases h.asked u List.mem_cons_self List.not_mem_nil with hended | hcancelled
            · exact absurd (hended.symm.trans hend) (by simp)
            · exact hcancelled
      · exact .inr (.inl ⟨_, _, rfl⟩)
  · rintro rfl
    have h := hp.of_done
    refine ⟨fun t ht => ?_, h.untracked, fun d ctx j => World.spawn_of_destroyed h.destroyed d ctx j⟩
    obtain ⟨-, r, hr⟩ := hk.known t ht
    refine ⟨r, hr, ?_⟩
    cases hend : r.ended with
    | true => rfl
    | false =>
      have hlive := h.live t ht (by simp [World.isEnded, hr, hend])
      cases hlive

/-! ### A story -/

namespace Scene

/-- The scene after a task has been asked for. -/
def ask (s : Scene) (n : Nat) (description : String) (context : Context) (job : Job) : Scene :=
  let r := s.world.spawn n description context job
  ⟨r.2, s.accepted ++ r.1.toList, s.ending⟩

/-- The scene after the call has gone on by so many steps, fewer if it can not. -/
def goOn (e : Engine) (c : TaskId) : Nat → Scene → Scene
  | 0, s => s
  | k + 1, s =>
    match s.ending with
    | none => s
    | some p =>
      match e.step c s.world p with
      | none => s
      | some (q, w) => goOn e c k ⟨w, s.accepted, some q⟩

/-- Whether the call has returned. -/
def isOver (s : Scene) : Bool :=
  match s.ending with
  | some (.done ()) => true
  | _ => false

theorem ending_of_isOver (h : s.isOver = true) : s.ending = some (.done ()) := by
  unfold isOver at h
  split at h
  · next hp => exact hp
  · cases h

end Scene

theorem Story.goOn (h : Story e g c s s') (k : Nat) : Story e g c s (s'.goOn e c k) := by
  induction k generalizing s' with
  | zero => exact h
  | succ k ih =>
    obtain ⟨w, ts, p⟩ := s'
    unfold Scene.goOn
    split
    · exact h
    · next q hq =>
      obtain rfl : p = some q := hq
      split
      · exact h
      · next q' w' hstep => exact ih (.step h (.perform hstep))

namespace Script

/-- A generation without blocks, made first of all. -/
def bare : Generation := ((World.start 10).newGeneration "main" "Main" ⟨[], []⟩).1

/-- The scene in which it has just been made. -/
def bareOpened : Scene := .opened (.start 10) "main" "Main" ⟨[], []⟩

/-- One more task is asked for. -/
def askBare (s : Scene) : Scene := s.ask bare.number "task" ⟨0, none, none⟩ (.stopAfter 0 0 0)

/-- Two tasks have been asked for, one of them has ended, and the call is made. -/
def stopCalled : Scene :=
  let s := askBare (askBare bareOpened)
  ⟨s.world.finish 1, s.accepted, some (Supervisor.endTasks bare)⟩

/-- The call destroys the generation, a third task is asked for, the call cancels the second one. -/
def stopping : Scene := (askBare (stopCalled.goOn engine 0 1)).goOn engine 0 2

/-- The cancelled task goes away, and the call goes on. -/
def stopped : Scene :=
  Scene.goOn engine 0 2
    ⟨Machine.leave stopping.world 2 (.done ()), stopping.accepted, stopping.ending⟩

theorem story_askBare (h : Story engine bare 0 bareOpened s) :
    Story engine bare 0 bareOpened (askBare s) :=
  .step h (.spawn ..)

theorem story_stopCalled : Story engine bare 0 bareOpened stopCalled :=
  .step (.step (story_askBare (story_askBare .refl)) (.finish 1)) .call

theorem story_stopping : Story engine bare 0 bareOpened stopping :=
  Story.goOn (story_askBare (story_stopCalled.goOn 1)) 2

theorem story_stopped : Story engine bare 0 bareOpened stopped :=
  Story.goOn (.step story_stopping (.leave (.done ()) (by decide +kernel))) 2

end Script

/-- Of two tasks one ends by itself, one is cancelled by the call; a third one is asked for in vain.
All of it is over when the call returns. -/
theorem stops_two_tasks :
    Script.stopped.accepted = [1, 2] ∧
      (∀ t ∈ [1, 2], ∃ r, Script.stopped.world.task? t = some r ∧ r.ended = true) ∧
      Script.stopped.world.tracked 0 = [] ∧
      ∀ description context job,
        Script.stopped.world.spawn 0 description context job = (none, Script.stopped.world) := by
  have haccepted : Script.stopped.accepted = [1, 2] := by decide +kernel
  have hover : Script.stopped.ending = some (.done ()) :=
    Scene.ending_of_isOver (by decide +kernel)
  obtain ⟨-, -, hall⟩ := Story.stops Script.story_stopped rfl
  exact ⟨haccepted, haccepted ▸ hall hover⟩

end BlockEngine
