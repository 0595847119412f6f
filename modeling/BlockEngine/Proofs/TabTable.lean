import BlockEngine.Proofs.Rules
import BlockEngine.Proofs.Following
import BlockEngine.Proofs.Script

/-!
# The table of tabs

Who may take a tab out of the table, and when.

* `World.SameTabs` : the rule of blocks; `Call.Spares` : the rule of a call;
* `Works` : a call under way, with the states in which its steps have been performed;
* `Run.origin` : every thread works on a job or on a call;
* `Execution.Careful` : an execution that changes the table only once it can not fail any more;
* `Run.tabs_kept` : tabs are never lost.
-/

namespace BlockEngine

variable {α : Type} {e : Engine} {t u : TaskId} {log ds : List Deed} {m m' : Machine}
  {w w' : World} {ws : List World}

/-! ## Rules -/

/-- The table of tabs is the same. -/
def World.SameTabs (w w' : World) : Prop := w'.tabs = w.tabs

/-- Every tab is still there. -/
def World.KeepsIds (w w' : World) : Prop :=
  ∀ id x, w.tab? id = some x → ∃ x', w'.tab? id = some x'

/-- No tab goes but the one that a call deletes, which is not the general one and whose content
holds nothing. -/
def Call.Spares (e : Engine) (c : Call) (w w' : World) : Prop :=
  ∀ id x, w.tab? id = some x → w'.tab? id = none →
    c = .delete id ∧ id ≠ e.generalTab ∧ isEmptyContent x.content = .ok true

theorem World.SameTabs.of_view (h : w'.view.tabs = w.view.tabs) : w.SameTabs w' := h

theorem World.SameTabs.keepsIds (h : w.SameTabs w') : w.KeepsIds w' := fun id x hx =>
  ⟨x, (congrArg (Keyed.get? id) h).trans hx⟩

theorem World.KeepsIds.spares (h : w.KeepsIds w') (c : Call) : c.Spares e w w' := by
  intro id x hx hnone
  obtain ⟨x', hx'⟩ := h id x hx
  exact absurd (hnone.symm.trans hx') (by simp)

theorem World.tabs_modifyGeneration (w : World) (n : Nat)
    (f : GenerationState → GenerationState) : (w.modifyGeneration n f).tabs = w.tabs :=
  (congrArg View.tabs (World.view_modifyGeneration w n f)).trans (View.tabs_modifyGeneration ..)

theorem World.tabs_modifyTask (w : World) (t : TaskId) (f : TaskRecord → TaskRecord) :
    (w.modifyTask t f).tabs = w.tabs := by
  unfold World.modifyTask
  split <;> rfl

/-- Blocks are not given the table of tabs. -/
instance : BlockRule World.SameTabs where
  refl _ := rfl
  trans h h' := h'.trans h
  fresh _ := rfl
  modifyGeneration := World.tabs_modifyGeneration
  newTask _ _ := rfl
  withLocks _ _ := rfl
  wake w t := congrArg View.tabs (World.view_wake w t)
  modifyTask w t f _ := World.tabs_modifyTask w t f
  vars _ _ := rfl
  notifications _ _ := rfl
  note _ _ _ := rfl
  settle w t p := by
    have h := congrArg View.tabs (World.view_settle w t p)
    cases p <;> exact h

/-! ## What calls change -/

theorem World.sameTabs_passTurn (w : World) : w.SameTabs w.passTurn :=
  congrArg View.tabs (World.view_passTurn w)

theorem World.keepsIds_insert {id : String} {x : TabEntry}
    (h : w'.tabs = Keyed.insert id x w.tabs) : w.KeepsIds w' := fun id' y hy => by
  unfold World.tab?
  rw [h, Keyed.get?_insert]
  split
  · exact ⟨x, rfl⟩
  · exact ⟨y, hy⟩

theorem World.keepsIds_modifyTab (w : World) (id : String) (f : TabEntry → TabEntry) :
    w.KeepsIds (w.modifyTab id f) := by
  unfold World.modifyTab
  split
  · exact keepsIds_insert rfl
  · exact SameTabs.keepsIds rfl

namespace Supervisor

open Attempt.Obeys (bind lift throw)
open World (SameTabs KeepsIds)

theorem obeys_retire (id : String) (status : TabStatus) :
    Attempt.Obeys KeepsIds (retire id status) := by
  refine Execution.Obeys.atomically fun w => ?_
  split
  · exact World.keepsIds_modifyTab w id _
  · exact SameTabs.keepsIds rfl

theorem obeys_modifyTab (id : String) (f : TabEntry → TabEntry) :
    (modifyTab id f).Obeys KeepsIds := .change fun w => World.keepsIds_modifyTab w id f

theorem keepsIds_passTurn (w : World) : w.KeepsIds w.passTurn := w.sameTabs_passTurn.keepsIds

theorem obeys_reload (id : String) : Attempt.Obeys KeepsIds (reload e id) := by
  have hkeeps : ∀ w w', SameTabs w w' → KeepsIds w w' := fun _ _ h => h.keepsIds
  have hstart : ∀ old : TabEntry, Attempt.Obeys SameTabs (start e id old.name old.content) :=
    fun _ => obeys_start (fun _ _ _ _ => rfl) id _ _
  refine obeys_alone keepsIds_passTurn ?_
  refine bind (obeys_retire id _) fun old => ?_
  refine bind (lift ((obeys_teardown id _).mono hkeeps)) fun _ => ?_
  refine bind (lift (obeys_modifyTab id _)) fun _ => ?_
  refine bind (lift (.mono (hstart old) hkeeps)) fun r => ?_
  cases r with
  | ok g => exact lift (obeys_modifyTab id _)
  | error err =>
    refine bind (lift (.change fun w => hkeeps _ _ (BlockRule.notifications w _))) fun _ => ?_
    exact bind (lift (obeys_modifyTab id _)) fun _ => throw _

theorem obeys_release (id : String) : Attempt.Obeys KeepsIds (release id) := by
  refine obeys_alone keepsIds_passTurn (bind (obeys_retire id _) fun old => ?_)
  exact lift ((obeys_teardown id _).mono fun _ _ (h : SameTabs _ _) => h.keepsIds)

theorem obeys_shutdown : shutdown.Obeys KeepsIds := by
  have hkeeps : ∀ w w', SameTabs w w' → KeepsIds w w' := fun _ _ h => h.keepsIds
  refine obeys_alone keepsIds_passTurn (.bind (.atomically fun w => ?_) fun tabs => ?_)
  · intro id x hx
    let stop (x : TabEntry) : TabEntry := { x with status := .stopped none, generation := none }
    exact ⟨stop x, (Keyed.get?_map id stop w.tabs).trans (congrArg (Option.map stop) hx)⟩
  · refine ((obeys_teardownAll tabs).mono hkeeps).bind fun _ => .change fun w => hkeeps _ _ ?_
    exact congrArg View.tabs (World.view_releaseAllLocks w)

theorem obeys_create (id name content : String) :
    Attempt.Obeys KeepsIds (create id name content) := by
  refine Execution.Obeys.atomically fun w => ?_
  split
  · exact SameTabs.keepsIds rfl
  · exact World.keepsIds_insert rfl

theorem obeys_save (id content : String) : Attempt.Obeys KeepsIds (save e id content) :=
  bind (lift (.change fun _ => World.keepsIds_insert rfl)) fun _ => obeys_reload id

theorem obeys_loadAll (sources : List TabSource) : (loadAll e sources).Obeys KeepsIds := by
  refine .bind (.atomically fun w => (takeIn_spec sources w).1.old) fun ids => ?_
  induction ids with
  | nil => trivial
  | cons id ids ih => exact .bind (obeys_reload id) fun _ => ih.bind fun _ => trivial

/-- A tab is deleted only if its content can be read and holds nothing. -/
theorem obeys_delete (id : String) :
    Attempt.Obeys ((Call.delete id).Spares e) (delete e id) := by
  have hspares : ∀ w w', SameTabs w w' → (Call.delete id).Spares e w w' := fun _ _ h =>
    h.keepsIds.spares _
  unfold delete
  split
  · exact throw _
  · next hgeneral =>
    refine obeys_alone (fun w => hspares _ _ w.sameTabs_passTurn) ?_
    refine bind (Execution.Obeys.atomically fun w => ?_) fun old =>
      lift ((obeys_teardown id _).mono hspares)
    split
    · next x hx =>
      split
      · next hempty =>
        intro id' x' hx' hnone
        rw [World.tab?, Keyed.get?_erase] at hnone
        split at hnone
        · next hid =>
          subst hid
          obtain rfl := Option.some.inj (hx.symm.trans hx')
          refine ⟨rfl, hgeneral, ?_⟩
          cases hc : isEmptyContent x.content with
          | ok b =>
            rw [hc] at hempty
            exact congrArg Except.ok hempty
          | error err =>
            rw [hc] at hempty
            cases hempty
        · exact absurd (hnone.symm.trans hx') (by simp)
      · exact hspares _ _ rfl
    · exact hspares _ _ rfl

end Supervisor

theorem Call.obeys_execution (c : Call) : (c.execution e).Obeys (c.Spares e) := by
  have hspares : ∀ w w', World.KeepsIds w w' → c.Spares e w w' := fun _ _ h => h.spares c
  cases c with
  | create id name content =>
    exact .bind (.mono (Supervisor.obeys_create id name content) hspares) fun _ => trivial
  | save id content =>
    exact .bind (.mono (Supervisor.obeys_save id content) hspares) fun _ => trivial
  | delete id => exact .bind (Supervisor.obeys_delete id) fun _ => trivial
  | reload id => exact .bind (.mono (Supervisor.obeys_reload id) hspares) fun _ => trivial
  | release id => exact .bind (.mono (Supervisor.obeys_release id) hspares) fun _ => trivial
  | loadAll sources =>
    exact .bind (.mono (Supervisor.obeys_loadAll sources) hspares) fun _ => trivial
  | shutdown => exact Supervisor.obeys_shutdown.mono hspares

/-! ## Threads and what they work on -/

/-- A caller has made a call and is under way with it; its steps have been performed in these
states. Others make their moves meanwhile. -/
inductive Works (e : Engine) (m₀ : Machine) (t : TaskId) (c : Call) :
    List World → List Deed → Machine → Prop
  | call {log : List Deed} {m : Machine} :
      Run e m₀ log m → m.world.IsCaller t → m.threads[t]? = none →
      Works e m₀ t c [] log ⟨m.world, m.threads.insert t (c.execution e)⟩
  | perform {ws : List World} {log : List Deed} {m : Machine} {p q : Execution Unit} {w : World} :
      Works e m₀ t c ws log m → m.threads[t]? = some p → e.step t m.world p = some (q, w) →
      Works e m₀ t c (ws ++ [m.world]) (log ++ [.performed t p m.world])
        ⟨w, m.threads.insert t q⟩
  | others {ws : List World} {log ds : List Deed} {m m' : Machine} :
      Works e m₀ t c ws log m → Move e m ds m' → (∀ d ∈ ds, d.actor ≠ t) →
      m'.threads[t]? = m.threads[t]? → Works e m₀ t c ws (log ++ ds) m'

namespace Works

variable {m₀ : Machine} {c : Call}

theorem run (h : Works e m₀ t c ws log m) : Run e m₀ log m := by
  induction h with
  | call hrun hcaller hnone => simpa using hrun.move (.call _ hcaller hnone)
  | perform _ hp hstep ih => exact ih.move (.perform hp hstep)
  | others _ hmove _ _ ih => exact ih.move hmove

/-- The thread is what its steps have left of the call. -/
theorem thread (h : Works e m₀ t c ws log m) :
    m.threads[t]? = e.replay t (c.execution e) ws := by
  induction h with
  | call => exact (threads_insert ..).trans (if_pos rfl)
  | perform _ hp hstep ih =>
    rw [threads_insert, if_pos rfl, Engine.replay_append, ← ih, hp]
    simp [Engine.replay, hstep]
  | others _ _ _ hsame ih => exact hsame.trans ih

end Works

/-- Every thread works on a job, or on a call that a caller has made. -/
theorem Run.origin {m₀ : Machine} (hrun : Run e m₀ log m)
    (hnone : ∀ t : TaskId, m₀.threads[t]? = none) {p : Execution Unit}
    (hp : m.threads[t]? = some p) :
    (∃ j ws, e.replay t (e.work j) ws = some p) ∨ ∃ c ws, Works e m₀ t c ws log m := by
  induction hrun generalizing t p with
  | refl => exact absurd ((hnone t).symm.trans hp) (by simp)
  | @move log ds m m' hrun hmove ih =>
    -- The thread is as it was.
    have hsame (hds : ∀ d ∈ ds, d.actor ≠ t) (hthread : m'.threads[t]? = m.threads[t]?) :
        (∃ j ws, e.replay t (e.work j) ws = some p) ∨
          ∃ c ws, Works e m₀ t c ws (log ++ ds) m' :=
      (ih (hthread ▸ hp)).imp_right fun ⟨c, ws, hworks⟩ => ⟨c, ws, hworks.others hmove hds hthread⟩
    -- The thread is gone.
    have herased {u : TaskId} (hm : m'.threads = m.threads.erase u) (hds : ∀ d ∈ ds, d.actor = u) :
        (∃ j ws, e.replay t (e.work j) ws = some p) ∨
          ∃ c ws, Works e m₀ t c ws (log ++ ds) m' := by
      rw [hm, threads_erase] at hp
      split at hp
      · cases hp
      · next htu =>
        refine hsame (fun d hd h => htu (h.symm.trans (hds d hd))) ?_
        rw [hm, threads_erase, if_neg htu]
    cases hmove with
    | @perform u p' q w hu hstep =>
      by_cases htu : t = u
      · subst htu
        rw [threads_insert, if_pos rfl] at hp
        obtain rfl := Option.some.inj hp
        rcases ih hu with ⟨j, ws, hreplay⟩ | ⟨c, ws, hworks⟩
        · refine .inl ⟨j, ws ++ [m.world], ?_⟩
          rw [Engine.replay_append, hreplay]
          simp [Engine.replay, hstep]
        · exact .inr ⟨c, _, hworks.perform hu hstep⟩
      · refine hsame (fun d hd h => htu ?_) ?_
        · rw [List.mem_singleton.1 hd] at h
          exact h.symm
        · rw [threads_insert, if_neg htu]
    | @begin u j hlive hfree =>
      rw [threads_insert] at hp
      split at hp
      · next htu =>
        subst htu
        exact .inl ⟨j, [], hp⟩
      · next htu => exact hsame (List.forall_mem_nil _) (by rw [threads_insert, if_neg htu])
    | @call u c hcaller hfree =>
      rw [threads_insert] at hp
      split at hp
      · next htu =>
        subst htu
        rw [List.append_nil]
        exact .inr ⟨c, [], .call hrun hcaller hfree⟩
      · next htu => exact hsame (List.forall_mem_nil _) (by rw [threads_insert, if_neg htu])
    | finish => exact herased rfl (List.forall_mem_nil _)
    | leave => exact herased rfl (List.forall_mem_nil _)
    | «return» => exact herased rfl (List.forall_mem_nil _)
    | @drop u => exact herased rfl fun d hd => by rw [List.mem_singleton.1 hd]; rfl
    | leaveEarly => exact hsame (List.forall_mem_nil _) rfl
    | reschedule => exact hsame (List.forall_mem_nil _) rfl
    | appear => exact hsame (List.forall_mem_nil _) rfl

/-! ## Moves -/

/-- Only steps change the table. -/
theorem Move.sameTabs (h : Move e m ds m') (hds : ∀ t p w, Deed.performed t p w ∉ ds) :
    m.world.SameTabs m'.world := by
  have hfinish (w : World) (t : TaskId) : w.SameTabs (w.finish t) := by
    obtain ⟨holder, hview, -⟩ := w.view_finish_spec t
    exact congrArg View.tabs hview
  have hforsake (w : World) (t : TaskId) (p : Execution Unit) :
      w.SameTabs (Machine.forsake w t p) := by
    obtain ⟨holder, locks, hview, -⟩ := w.view_forsake t p
    exact congrArg View.tabs hview
  cases h with
  | perform => exact absurd List.mem_cons_self (hds _ _ _)
  | finish => exact hfinish _ _
  | leave => exact (hfinish _ _).trans (hforsake _ _ _)
  | leaveEarly => exact hfinish _ _
  | reschedule h => exact congrArg View.tabs h.view
  | drop => exact hforsake _ _ _
  | begin | appear | call | «return» => exact rfl

/-- A move that takes a tab out of the table is a step of a call that deletes this tab. -/
theorem Move.tab_lost (he : e.Obeys World.SameTabs) {capacity : Nat}
    (hrun : Run e (.start capacity) log m) (hmove : Move e m ds m') {id : String} {x : TabEntry}
    (hx : m.world.tab? id = some x) (hnone : m'.world.tab? id = none) :
    ∃ t p q ws, ds = [.performed t p m.world] ∧ m.threads[t]? = some p ∧
      e.step t m.world p = some (q, m'.world) ∧
      Works e (.start capacity) t (.delete id) ws log m ∧
      id ≠ e.generalTab ∧ isEmptyContent x.content = .ok true := by
  have hkept (h : m.world.SameTabs m'.world) : False := by
    obtain ⟨x', hx'⟩ := h.keepsIds id x hx
    exact absurd (hnone.symm.trans hx') (by simp)
  have hstill (hds : ∀ t p w, Deed.performed t p w ∉ ds) : False := hkept (hmove.sameTabs hds)
  cases hmove with
  | @perform t p q w hp hstep =>
    rcases hrun.origin (fun _ => rfl) hp with ⟨j, ws, hreplay⟩ | ⟨c, ws, hworks⟩
    · have hobeys := (Engine.obeys_work j).replay he (fun _ _ h => h) hreplay
      exact (hkept (hobeys.step he (fun _ _ h => h) hstep).1).elim
    · have hobeys := c.obeys_execution.replay he (fun _ _ h => h.keepsIds.spares c)
        (hworks.thread.symm.trans hp)
      obtain ⟨rfl, hgeneral, hempty⟩ :=
        (hobeys.step he (fun _ _ h => h.keepsIds.spares c) hstep).1 id x hx hnone
      exact ⟨t, p, q, ws, rfl, hp, hstep, hworks, hgeneral, hempty⟩
  | drop => exact (hstill (by simp)).elim
  | _ => exact (hstill nofun).elim

/-- The general tab is there for good. -/
theorem Run.general_kept (he : e.Obeys World.SameTabs) {capacity : Nat}
    (hreached : Run e (.start capacity) log m) {log' : List Deed} (hrun : Run e m log' m')
    (hthere : (m.world.tab? e.generalTab).isSome = true) :
    (m'.world.tab? e.generalTab).isSome = true := by
  induction hrun with
  | refl => exact hthere
  | move hrun hmove ih =>
    obtain ⟨x, hx⟩ := Option.isSome_iff_exists.1 ih
    cases hlost : World.tab? _ e.generalTab with
    | some x' => rfl
    | none =>
      obtain ⟨_, _, _, _, -, -, -, -, hgeneral, -⟩ :=
        Move.tab_lost he (hreached.trans hrun) hmove hx hlost
      exact absurd rfl hgeneral

/-! ## Failure -/

/-- An execution made of changes and pauses that changes the table of tabs only once it can not fail
any more. -/
def Execution.Careful {ε : Type} : Execution (Except ε Unit) → Prop
  | .done _ => True
  | .act f k => ∀ w, (k w).Ends (· = .ok ()) ∨ w.SameTabs (f w) ∧ (k w).Careful
  | .pause _ k => ∀ r, (k r).Careful
  | .signal .. | .evaluate .. | .run .. => False

namespace Execution.Careful

variable {ε : Type} {p q : Execution (Except ε Unit)}

theorem step (hp : p.Careful) (hstep : e.step t w p = some (q, w')) :
    q.Ends (· = .ok ()) ∨ w.SameTabs w' ∧ q.Careful := by
  cases p with
  | act f k =>
    obtain ⟨rfl, rfl⟩ := Prod.mk.inj (Option.some.inj hstep)
    exact hp w
  | pause c k =>
    obtain ⟨r, -, rfl, rfl⟩ := Engine.step_pause hstep
    exact .inr ⟨BlockRule.settle w t c, hp r⟩
  | done a => cases hstep
  | signal | evaluate | run => exact hp.elim

theorem replay (hp : p.Careful) (h : e.replay t p ws = some q) :
    q.Ends (· = .ok ()) ∨ q.Careful := by
  induction ws generalizing p with
  | nil => exact .inr (Option.some.inj h ▸ hp)
  | cons w ws ih =>
    obtain ⟨⟨q', w'⟩, hstep, hrest⟩ := Option.bind_eq_some_iff.1 h
    rcases hp.step hstep with hends | ⟨-, hq'⟩
    · exact .inl (hends.replay hrest)
    · exact ih hq' hrest

end Execution.Careful

/-- The states before and after each of the steps that an execution performs in some states. -/
def Engine.changes (e : Engine) (t : TaskId) : Execution α → List World → List (World × World)
  | _, [] => []
  | p, w :: ws =>
    match e.step t w p with
    | some (q, w') => (w, w') :: e.changes t q ws
    | none => []

/-- A careful execution that has failed has changed nothing about the table in any step. -/
theorem Execution.Careful.sameTabs_of_error {ε : Type} {p : Execution (Except ε Unit)} {err : ε}
    (hp : p.Careful) (h : e.replay t p ws = some (.done (.error err))) :
    ∀ c ∈ e.changes t p ws, c.1.SameTabs c.2 := by
  induction ws generalizing p with
  | nil => exact nofun
  | cons w ws ih =>
    obtain ⟨⟨q, w'⟩, hstep, hrest⟩ := Option.bind_eq_some_iff.1 h
    rcases hp.step hstep with hends | ⟨hsame, hq⟩
    · exact absurd (hends.replay hrest) nofun
    · simp only [Engine.changes, hstep]
      exact List.forall_mem_cons.2 ⟨hsame, ih hq hrest⟩

namespace Supervisor

theorem careful_create (id name content : String) :
    (ExceptT.run (create id name content)).Careful := by
  intro w
  cases hx : w.tab? id with
  | some x => exact .inr (by simp [hx, World.SameTabs, Execution.Careful])
  | none => exact .inl (by simp [hx, Execution.Ends])

/-- A tab that may not be deleted stays as it is. One that is taken out is deleted. -/
theorem careful_delete (id : String) : (ExceptT.run (delete e id)).Careful := by
  have hdeleted (old : TabEntry) : Execution.Ends (· = .ok ())
      ((ExceptT.run (liftM (teardown id old.generation) : Request Unit)).bind fun a =>
        (Execution.change World.passTurn).bind fun _ => .done a) := by
    have hends : Execution.Ends (· = .ok ())
        (ExceptT.run (liftM (teardown id old.generation) : Request Unit)) :=
      .andThen (teardown id old.generation) fun _ => rfl
    exact hends.bind fun a ha => fun _ => ha
  have hrefused (err : SupervisorError) : ((Execution.change World.passTurn).bind fun _ =>
      Execution.done (.error err : Except SupervisorError Unit)).Careful := fun w =>
    .inr ⟨w.sameTabs_passTurn, trivial⟩
  unfold delete
  split
  · trivial
  · intro _ w
    cases hx : w.tab? id with
    | none =>
      simp only [hx]
      exact .inr ⟨rfl, hrefused _⟩
    | some x =>
      by_cases hempty : (isEmptyContent x.content).toOption.getD false = true
      · simp only [hx, if_pos hempty]
        exact .inl (hdeleted x)
      · simp only [hx, if_neg hempty]
        exact .inr ⟨rfl, hrefused _⟩

end Supervisor

/-- A call whose answer is not asked for has come as far as the request itself. -/
theorem Engine.replay_bind_done {β : Type} {p : Execution α} {b : β} {r : Execution β}
    (h : e.replay t (p.bind fun _ => .done b) ws = some r) :
    ∃ q, e.replay t p ws = some q ∧ r = q.bind fun _ => .done b := by
  induction ws generalizing p with
  | nil => exact ⟨p, rfl, (Option.some.inj h).symm⟩
  | cons w ws ih =>
    obtain ⟨⟨r', w'⟩, hstep, hrest⟩ := Option.bind_eq_some_iff.1 h
    by_cases hp : ∃ a, p = .done a
    · obtain ⟨a, rfl⟩ := hp
      cases hstep
    · rw [Engine.step_bind e t w _ fun a ha => hp ⟨a, ha⟩] at hstep
      obtain ⟨⟨q', w₁⟩, hq', heq⟩ := Option.map_eq_some_iff.1 hstep
      obtain ⟨rfl, rfl⟩ := Prod.mk.inj heq
      obtain ⟨q, hq, rfl⟩ := ih hrest
      exact ⟨q, by simp [Engine.replay, hq', hq], rfl⟩

/-- A call that has taken a tab out can only succeed. -/
theorem Works.deletes {capacity : Nat} {id : String} {p q : Execution Unit}
    (h : Works e (.start capacity) t (.delete id) ws log m) (hp : m.threads[t]? = some p)
    (hstep : e.step t m.world p = some (q, w')) (hlost : ¬ m.world.SameTabs w') {ws' : List World}
    {r : Except SupervisorError Unit}
    (hr : e.replay t (ExceptT.run (Supervisor.delete e id)) (ws ++ m.world :: ws') =
      some (.done r)) : r = .ok () := by
  obtain ⟨p₁, hp₁, rfl⟩ := Engine.replay_bind_done (h.thread.symm.trans hp)
  rw [Engine.replay_append, hp₁, Option.bind_some] at hr
  obtain ⟨⟨q₁, w₁⟩, hstep₁, hrest⟩ := Option.bind_eq_some_iff.1 hr
  have hw : w₁ = w' := by
    rw [Engine.step_bind e t m.world _ (by rintro a rfl; cases hstep₁), hstep₁] at hstep
    exact (Prod.mk.inj (Option.some.inj hstep)).2
  rcases (Supervisor.careful_delete id).replay hp₁ with hends | hcareful
  · exact (hends.step hstep₁).replay hrest
  · rcases hcareful.step hstep₁ with hends | ⟨hsame, -⟩
    · exact hends.replay hrest
    · exact absurd (hw ▸ hsame) hlost

/-! ## The theorem -/

theorem World.tab?_putTab (w : World) (id name : String) (f : TabEntry → TabEntry) (k : String) :
    (w.putTab id name f).tab? k =
      if k = id then some (f ((w.tab? id).getD (.new name ""))) else w.tab? k :=
  Keyed.get?_insert ..

theorem World.isSome_putTab (w : World) (id name : String) (f : TabEntry → TabEntry) :
    ((w.putTab id name f).tab? id).isSome = true := by
  rw [tab?_putTab, if_pos rfl]
  rfl

theorem World.keepsIds_putTab (w : World) (id name : String) (f : TabEntry → TabEntry) :
    w.KeepsIds (w.putTab id name f) := keepsIds_insert rfl

/-- What puts tabs one after the other keeps those that are there. -/
theorem World.keepsIds_foldl {f : World → α → World}
    (h : ∀ (w : World) (a : α), w.KeepsIds (f w a)) (xs : List α) (w : World) :
    w.KeepsIds (xs.foldl f w) := by
  induction xs generalizing w with
  | nil => exact SameTabs.keepsIds rfl
  | cons a xs ih =>
    intro id x hx
    obtain ⟨x', hx'⟩ := h w a id x hx
    exact ih _ id x' hx'

theorem World.KeepsIds.isSome (h : w.KeepsIds w') {id : String}
    (hx : (w.tab? id).isSome = true) : (w'.tab? id).isSome = true := by
  obtain ⟨x, hx⟩ := Option.isSome_iff_exists.1 hx
  exact Option.isSome_iff_exists.2 (h id x hx)

/-- Once stored tabs are taken in the general tab is there. -/
theorem Supervisor.general_takeIn (sources : List TabSource) (w : World) :
    ((takeIn e sources w).2.tab? e.generalTab).isSome = true := by
  unfold takeIn
  simp only
  have hlater := World.keepsIds_foldl (f := fun (w : World) (s : TabSource) =>
    w.putTab s.id s.id fun entry => { entry with name := s.name.getD s.id, content := s.content })
    fun w s => w.keepsIds_putTab s.id s.id _
  split
  · next h =>
    rw [List.foldl_nil]
    rcases Bool.or_eq_true_iff.1 h with hany | hthere
    · obtain ⟨s, hs, hid⟩ := List.any_eq_true.1 hany
      obtain ⟨before, after, rfl⟩ := List.append_of_mem hs
      rw [List.foldl_append, List.foldl_cons, ← of_decide_eq_true hid]
      exact (hlater after _).isSome (World.isSome_putTab ..)
    · exact (hlater sources w).isSome hthere
  · rw [List.foldl_cons, List.foldl_nil]
    exact (hlater sources _).isSome (World.isSome_putTab ..)

/-- A call that has begun to load stored tabs has made the general tab. -/
theorem Works.general_of_loadAll (he : e.Obeys World.SameTabs) {capacity : Nat}
    {sources : List TabSource} (h : Works e (.start capacity) t (.loadAll sources) ws log m) :
    ws = [] ∨ (m.world.tab? e.generalTab).isSome = true := by
  induction h with
  | call => exact .inl rfl
  | @perform ws log m p q w hworks hp hstep ih =>
    right
    rcases ih with rfl | hthere
    · obtain rfl := Option.some.inj (hp.symm.trans hworks.thread)
      obtain ⟨rfl, rfl⟩ := Prod.mk.inj (Option.some.inj hstep)
      exact Supervisor.general_takeIn sources m.world
    · exact hworks.run.general_kept he (.single (.perform hp hstep)) hthere
  | others hworks hmove _ _ ih =>
    exact ih.imp_right (hworks.run.general_kept he (.single hmove))

/-- Tabs are never lost. Whatever the order in which callers and tasks go on: the general tab stays
for good once it is there, and it is there once stored tabs have been loaded; a tab is taken out
only by a step of a call that deletes it, while its content can be read and holds nothing, and that
call does not fail any more; a call that fails to create or delete a tab has changed nothing about
the table. -/
theorem Run.tabs_kept (he : e.Obeys World.SameTabs) {capacity : Nat}
    (hrun : Run e (.start capacity) log m) :
    ((m.world.tab? e.generalTab).isSome = true →
      ∀ log' m', Run e m log' m' → (m'.world.tab? e.generalTab).isSome = true) ∧
    (∀ id x ds m', m.world.tab? id = some x → Move e m ds m' → m'.world.tab? id = none →
      ∃ t p ws, ds = [.performed t p m.world] ∧
        Works e (.start capacity) t (.delete id) ws log m ∧
        id ≠ e.generalTab ∧ isEmptyContent x.content = .ok true ∧
        ∀ ws' r, e.replay t (ExceptT.run (Supervisor.delete e id)) (ws ++ m.world :: ws') =
          some (.done r) → r = .ok ()) ∧
    (∀ t ws err id name content,
      e.replay t (ExceptT.run (Supervisor.create id name content)) ws = some (.done (.error err)) →
      ∀ c ∈ e.changes t (ExceptT.run (Supervisor.create id name content)) ws,
        c.2.tabs = c.1.tabs) ∧
    (∀ t ws err id,
      e.replay t (ExceptT.run (Supervisor.delete e id)) ws = some (.done (.error err)) →
      ∀ c ∈ e.changes t (ExceptT.run (Supervisor.delete e id)) ws, c.2.tabs = c.1.tabs) ∧
    ∀ t sources ws n, Works e (.start capacity) t (.loadAll sources) ws log m →
      e.replay t (Supervisor.loadAll e sources) ws = some (.done n) →
      (m.world.tab? e.generalTab).isSome = true := by
  refine ⟨fun hthere log' m' hrun' => hrun.general_kept he hrun' hthere,
    fun id x ds m' hx hmove hnone => ?_,
    fun t ws err id name content h =>
      Execution.Careful.sameTabs_of_error (Supervisor.careful_create id name content) h,
    fun t ws err id h => Execution.Careful.sameTabs_of_error (Supervisor.careful_delete id) h,
    fun t sources ws n hworks hdone => ?_⟩
  · obtain ⟨t, p, q, ws, rfl, hp, hstep, hworks, hgeneral, hempty⟩ :=
      hmove.tab_lost he hrun hx hnone
    refine ⟨t, p, ws, rfl, hworks, hgeneral, hempty, fun ws' r hr => ?_⟩
    refine hworks.deletes hp hstep (fun hsame => ?_) hr
    obtain ⟨x', hx'⟩ := hsame.keepsIds id x hx
    exact absurd (hnone.symm.trans hx') (by simp)
  · refine (hworks.general_of_loadAll he).resolve_left ?_
    rintro rfl
    cases hdone

/-- A stored tab without content is loaded and deleted. The general tab stays. -/
theorem tabs_kept_of_deleted_tab :
    ∃ log m p m', Run Script.engine (.start 10) log m ∧
      Move Script.engine m [.performed 0 p m.world] m' ∧
      (m.world.tab? "a").isSome = true ∧ m'.world.tab? "a" = none ∧
      (m'.world.tab? "main").isSome = true ∧
      ∃ ws, Works Script.engine (.start 10) 0 (.delete "a") ws log m := by
  obtain ⟨log, m, hrun, hend⟩ := Run.of_playAll_any (e := Script.engine) (m := .start 10)
    [.call 0 (.loadAll [⟨"a", none, ""⟩]), .perform 0 100, .return 0, .call 0 (.delete "a"),
      .perform 0 1]
    (f := fun _ m => (m.world.tab? "main").isSome && (m.world.tab? "a").isSome &&
      (m.threads[0]?).any fun p => (Script.engine.step 0 m.world p).any fun q =>
        (q.2.tab? "a").isNone)
    (by decide +kernel)
  obtain ⟨hthere, hstep⟩ := Bool.and_eq_true_iff.1 hend
  obtain ⟨hmain, ha⟩ := Bool.and_eq_true_iff.1 hthere
  obtain ⟨x, hx⟩ := Option.isSome_iff_exists.1 ha
  obtain ⟨p, hp, hstep⟩ := (Option.any_eq_true _ _).1 hstep
  obtain ⟨q, hq, hgone⟩ := (Option.any_eq_true _ _).1 hstep
  have hmove : Move Script.engine m [.performed 0 p m.world] ⟨q.2, m.threads.insert 0 q.1⟩ :=
    .perform hp hq
  have hnone := Option.isNone_iff_eq_none.1 hgone
  have hobeys : Script.engine.Obeys World.SameTabs := Engine.obeys_of_core rfl
  obtain ⟨hgeneral, hdeleted, -⟩ := Run.tabs_kept hobeys hrun
  obtain ⟨t, p', ws, hds, hworks, -⟩ := hdeleted "a" x _ _ hx hmove hnone
  obtain ⟨rfl, -⟩ := Deed.performed.inj (List.head_eq_of_cons_eq hds)
  exact ⟨log, m, p, _, hrun, hmove, ha, hnone, hgeneral hmain _ _ (.single hmove), ws, hworks⟩

end BlockEngine
