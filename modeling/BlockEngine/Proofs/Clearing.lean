import BlockEngine.Proofs.Generations
import BlockEngine.Proofs.Teardown

/-!
# What a teardown comes to

A call that ends the generation of a tab leaves nothing of the tab, and takes nothing from any other
tab.

* `World.Attended` : what runs in a tab is tracked by the generation that the tab records;
* `World.Cleared` : nothing is left of a tab;
* `Supervisor.TornDown` : what a teardown comes to, for the tab and for all others;
* `Call.Clears` : the calls that tear a tab down;
* `Run.torn_down` : they do, whatever tasks and other callers do meanwhile.
-/

namespace BlockEngine

variable {e : Engine} {c t : TaskId} {id : String} {log log₀ : List Deed} {m m₀ m' : Machine}

namespace World

variable {w : World}

/-- What runs in a tab is tracked by the generation that the tab records: no other generation of
the tab takes tasks or has any left. -/
structure Attended (w : World) (id : String) : Prop where
  only : ∀ n s, w.generation? n = some s → s.tab = id → s.destroyed = false →
    ∃ g, Supervisor.generation? w id = some g ∧ g.number = n
  tracked : ∀ t j s, w.IsLive t j → w.generation? j.owner = some s → s.tab = id →
    ∃ g, Supervisor.generation? w id = some g ∧ ∃ y ∈ w.tracked g.number, y.task = t

/-- Nothing is left of a tab: it records no generation and holds no lock, nobody waits on a lock it
ever had or is subscribed to one, no subscription acts for it, and no generation of it takes tasks
or has any left. -/
structure Cleared (w : World) (id : String) : Prop where
  unrecorded : Supervisor.generation? w id = none
  unlocked : w.locks.ofTab id = []
  released : ∀ l x, w.locks.lock? l = some x → x.tab = id →
    x.released = true ∧ x.waiters = [] ∧ x.subscriptions = []
  deaf : ∀ l x, w.locks.lock? l = some x → ∀ s ∈ x.subscriptions, ∀ g,
    s.reaction.home? = some g → g.tab ≠ id
  destroyed : ∀ n s, w.generation? n = some s → s.tab = id → s.destroyed = true
  quiet : ∀ t j s, w.IsLive t j → w.generation? j.owner = some s → s.tab ≠ id

/-- At the start nothing is there of any tab. -/
theorem Cleared.start (capacity : Nat) (tab : String) :
    (World.start capacity).Cleared tab where
  unrecorded := rfl
  unlocked := rfl
  released _ _ h := by cases h
  deaf _ _ h := by cases h
  destroyed n _ h := by cases h
  quiet _ _ _ _ h := by cases h

/-- What runs in a tab is left of the generation that the tab records, and of no other. -/
theorem Attended.holding (h : m.world.Attended id) (hreached : Reached e c m) (he : e.Orderly) :
    m.world.view.Holding id (Supervisor.generation? m.world id)
      (Supervisor.generation? m.world id) := by
  obtain ⟨log, φ, ψ, hc⟩ := hreached.conducted he
  have hentry : ∀ g, Supervisor.generation? m.world id = some g →
      ∃ x, m.world.view.tab? id = some x ∧ x.generation = some g := fun g hg =>
    Option.bind_eq_some_iff.1 hg
  refine ⟨⟨rfl, fun g hg => ?_, fun n s hs htab => ?_⟩, fun g hg => ?_⟩
  · obtain ⟨x, hx, hgen⟩ := hentry g hg
    exact hc.sound.recorded id x g hx hgen
  · refine or_iff_not_imp_left.2 fun hne => ⟨?_, fun t x j hx hj ho => ?_⟩
    · rw [View.isDestroyed_of_some hs]
      exact Bool.not_eq_false _ ▸ fun hd => hne (h.only n s hs htab hd)
    · refine Bool.not_eq_false _ ▸ fun hend => hne ?_
      obtain ⟨r, hr, rfl⟩ := Option.map_eq_some_iff.1 hx
      obtain ⟨g, hg, y, hy, rfl⟩ := h.tracked t j s ⟨r, hr, hj, hend⟩ (ho ▸ hs) htab
      obtain ⟨x', j', hx', hj', ho'⟩ := (hreached.owns he).owner_of_tracked hy
      obtain rfl : r.standing = x' := Option.some.inj (hx.symm.trans hx')
      obtain rfl : j = j' := Option.some.inj (hj.symm.trans hj')
      exact ⟨g, hg, ho'.symm.trans ho⟩
  · obtain ⟨x, hx, hgen⟩ := hentry g hg
    exact hc.supervised.alive g.number ⟨id, x, g, hx, hgen, rfl⟩

/-- What is bare is cleared. -/
theorem cleared_of_bare (h : w.view.Bare id) (hs : w.view.Sound e) : w.Cleared id where
  unrecorded := h.records
  unlocked := by
    unfold LockTable.ofTab
    cases hheld : Keyed.get? id w.locks.held with
    | none => rfl
    | some ls =>
      refine List.eq_nil_iff_forall_not_mem.2 fun q hq => ?_
      obtain ⟨x, hx, htab, -, hlive⟩ := hs.locks.held _ (Keyed.mem_of_get? hheld) q hq
      exact absurd ((h.released _ x hx htab).symm.trans hlive) nofun
  released l x hx htab :=
    have hreleased := h.released l x hx htab
    ⟨hreleased, hs.locks.ended l x hx hreleased⟩
  deaf l x hx s hmem g hg htab := by
    obtain ⟨-, y, hy, hytab⟩ := (hs.subscribed l x hx s hmem).2.tab_of_home hg
    obtain rfl := Option.some.inj (hx.symm.trans hy)
    have hended := hs.locks.ended l x hx (h.released l x hx (hytab.trans htab))
    rw [hended.2] at hmem
    cases hmem
  destroyed n s hs htab := by
    rcases h.others n s hs htab with ⟨g, hg, -⟩ | hspent
    · cases hg
    · exact (View.isDestroyed_of_some (v := w.view) hs).symm.trans hspent.destroyed
  quiet t j s hlive hs htab := by
    obtain ⟨x, hx, hj, hend⟩ := Conducted.standing_of_live (m := ⟨w, ∅⟩) hlive
    rcases h.others _ s hs htab with ⟨g, hg, -⟩ | hspent
    · cases hg
    · exact absurd (hend.symm.trans (hspent.quiet t x j hx hj rfl)) nofun

end World

namespace Supervisor

/-- A run in which the caller ends the locks of the tab in one step, the second of its steps: all
who wait on a lock of the tab then are told so, and nothing else reaches them any more. -/
def TellsWaiters (e : Engine) (c : TaskId) (id : String) (m : Machine) (log : List Deed)
    (m' : Machine) : Prop :=
  ∃ log₁ m₁ m₂ log₂, Run.Through e c m log m' log₁ m₁ m₂ log₂ ∧
    (Deed.statesOf c log₁).length = 1 ∧ m₂.world = m₁.world.releaseLocks id ∧
    ∀ b, m₁.world.locks.WaitedIn id b → m₂.world.locks.mailbox? b = some ⟨b, some .released⟩ ∧
      (m'.world.locks.mailbox? b = some ⟨b, some .released⟩ ∨ m'.world.locks.mailbox? b = none)

/-- What a teardown comes to: nothing is left of the tab; who waited on its locks has been told, and
nobody waits any more; the listeners of its generation have run, each of them once; and no step of
the teardown has changed anything of another tab. -/
structure TornDown (e : Engine) (c : TaskId) (id : String) (m : Machine) (log : List Deed)
    (m' : Machine) : Prop where
  cleared : m'.world.Cleared id
  told : TellsWaiters e c id m log m'
  ended : ∀ log₁ m₁ log₂ b, log = log₁ ++ log₂ → Run e m log₁ m₁ → Run e m₁ log₂ m' →
    m₁.world.locks.WaitedIn id b → m'.world.locks.isPending b = false
  listeners : ∀ g, generation? m.world id = some g → RunsListeners e c g.number m log m'
  spares : ∀ p w q w', .performed c p w ∈ log → e.step c w p = some (q, w') → w.Spares id w'

theorem ReleasesAfter.tellsWaiters (h : ReleasesAfter e c id 1 m log m') (he : e.Orderly)
    (hturn : HasTurn e c m) : TellsWaiters e c id m log m' := by
  obtain ⟨log₁, m₁, m₂, log₂, hthrough, hlength, hworld⟩ := h
  refine ⟨log₁, m₁, m₂, log₂, hthrough, hlength, hworld, fun b hb => ?_⟩
  obtain ⟨capacity, log₀, hrun₀⟩ := hturn.reached
  obtain ⟨p, -, hmove⟩ := hthrough.step
  have hrun₁ := hrun₀.trans hthrough.before
  have hrun₂ := hrun₁.move hmove
  obtain ⟨φ₁, ψ₁, hc₁⟩ := Conducted.run he hrun₁
  obtain ⟨φ₂, ψ₂, hc₂⟩ := Conducted.run he hrun₂
  have hlocks : m₂.world.locks = (m₁.world.locks.release id).2 :=
    (congrArg World.locks hworld).trans (congrArg View.locks (World.view_releaseLocks m₁.world id))
  have htold : m₂.world.locks.mailbox? b = some ⟨b, some .released⟩ :=
    hlocks ▸ hb.release (hrun₁.tidy he) hc₁.sound.locks
  have hsound : m₂.world.locks.Sound := hc₂.sound.locks
  have hsettled : m₂.world.locks.isPending b = false := by
    rw [Bool.eq_false_iff, Ne, LockTable.isPending_iff hsound.distinct, htold]
    simp
  obtain ⟨es, hes⟩ := hthrough.after.history he hc₂
  have hkept := LockTable.kept_play (hrun₂.tidy he) hsound es (hsound.mailbox?_lt htold) hsettled
  rw [← hes, htold] at hkept
  exact ⟨htold, hkept⟩

end Supervisor

/-! ## The calls -/

/-- The calls that end the generation of a tab, and what they begin with when it is their turn. -/
inductive Call.Clears (e : Engine) (id : String) : Call → Request TabEntry → Prop
  | release : Clears e id (.release id) (Supervisor.retire id (.stopped none))
  | delete : id ≠ e.generalTab → Clears e id (.delete id) (Supervisor.withdraw id)
  | reload : Clears e id (.reload id) (Supervisor.retire id .reloading)

namespace Call.Clears

variable {call : Call} {take : Request TabEntry}

theorem takes (h : call.Clears e id take) : Supervisor.Takes id take := by
  cases h with
  | release | reload => exact .retire _
  | delete => exact .withdraw

/-- What takes a generation out and tears it down, before the rest of a request. -/
theorem run_teardown {β : Type} (take : Request TabEntry) (id : String)
    (rest : TabEntry → Request β) :
    ExceptT.run (take >>= fun old => liftM (Supervisor.teardown id old.generation) >>= fun _ =>
      rest old) = (ExceptT.run (Supervisor.clear take id)).bind fun
        | .ok old => ExceptT.run (rest old)
        | .error err => .done (.error err) := by
  rw [Supervisor.run_clear, Execution.bind_assoc]
  change (ExceptT.run take).bind _ = _
  congr 1
  funext r
  cases r with
  | ok old =>
    change ((Supervisor.teardown id old.generation).bind _).bind _ = _
    rw [Execution.bind_assoc, Execution.bind_assoc]
    rfl
  | error err => rfl

/-- A call that waits for its turn, ends a generation and goes on with the rest of a request. -/
theorem alone_teardown {β : Type} (take : Request TabEntry) (id : String)
    (rest : TabEntry → Request β) (k : Except SupervisorError β → Execution Unit) :
    ∃ l, (Supervisor.alone (ExceptT.run (take >>= fun old =>
      liftM (Supervisor.teardown id old.generation) >>= fun _ => rest old))).bind k =
        (Execution.pause .turn .done).bind fun _ =>
          (ExceptT.run (Supervisor.clear take id)).bind l := by
  refine ⟨fun r => (match r with
      | .ok old => ExceptT.run (rest old)
      | .error err => .done (.error err)).bind fun a =>
        (Execution.change World.passTurn).bind fun _ => k a, ?_⟩
  rw [run_teardown]
  change ((Execution.pause .turn .done).bind fun _ => (Execution.bind _ _).bind fun a =>
    (Execution.change World.passTurn).bind fun _ => .done a).bind k = _
  simp only [Execution.bind_assoc]
  rfl

/-- The same when nothing is left of the request. -/
theorem alone_teardown_last (take : Request TabEntry) (id : String) :
    ∃ l, (Supervisor.alone (ExceptT.run (take >>= fun old =>
      liftM (Supervisor.teardown id old.generation)))).bind (fun _ => .done ()) =
        (Execution.pause .turn .done).bind fun _ =>
          (ExceptT.run (Supervisor.clear take id)).bind l := by
  have h := alone_teardown take id (fun _ => pure ()) fun _ => .done ()
  simpa only [bind_pure_unit] using h

theorem execution (h : call.Clears e id take) : ∃ k, call.execution e =
    (Execution.pause .turn .done).bind fun _ =>
      (ExceptT.run (Supervisor.clear take id)).bind k := by
  cases h with
  | release => exact alone_teardown_last (Supervisor.retire id (.stopped none)) id
  | delete hne =>
    have hdelete : Supervisor.delete e id = ExceptT.mk (Supervisor.alone (ExceptT.run do
        let old ← Supervisor.withdraw id
        liftM (Supervisor.teardown id old.generation))) := by
      unfold Supervisor.delete
      rw [if_neg hne]
    change ∃ k, (ExceptT.run (Supervisor.delete e id)).bind _ = _
    rw [hdelete]
    exact alone_teardown_last (Supervisor.withdraw id) id
  | reload => exact alone_teardown (Supervisor.retire id .reloading) id _ _

/-- The first step of the call is to get its turn. -/
theorem step (h : call.Clears e id take) {w w' : World} {q : Execution Unit}
    (hstep : e.step c w (call.execution e) = some (q, w')) :
    (∃ k, q = (ExceptT.run (Supervisor.clear take id)).bind k) ∧ w' = w.settle c .turn := by
  obtain ⟨k, hexecution⟩ := h.execution
  rw [hexecution] at hstep
  obtain ⟨r, -, heq⟩ := Option.map_eq_some_iff.1 hstep
  obtain ⟨rfl, rfl⟩ := Prod.mk.inj heq
  exact ⟨⟨k, rfl⟩, rfl⟩

end Call.Clears

/-! ## What they come to -/

/-- As long as nobody has anything in hand, a generation is recorded for its tab, gone or lost. -/
theorem Conducted.recorded_or_gone {φ : TaskId → Stage} {ψ : TaskId → Stance}
    (hc : Conducted e log m φ ψ) (hfree : ∀ t, (φ t).hand = none) {n : Nat} {s : GenerationState}
    (hs : m.world.generation? n = some s) :
    (∃ g, Supervisor.generation? m.world s.tab = some g ∧ g.number = n) ∨ m.world.view.Gone n ∨
      Lost log n := by
  rcases hc.supervised.placed n s hs with ⟨tab, x, g, hx, hg, rfl⟩ | ⟨t, hd, hhand, -⟩ | hrest
  · obtain ⟨hgtab, s', hs', hstab⟩ := hc.sound.recorded tab x g hx hg
    obtain rfl : s = s' := Option.some.inj (hs.symm.trans hs')
    obtain rfl : s.tab = tab := hstab.trans hgtab
    exact .inl ⟨g, Option.bind_eq_some_iff.2 ⟨x, hx, hg⟩, rfl⟩
  · exact absurd ((hfree t).symm.trans hhand) nofun
  · exact .inr hrest

/-- As long as nothing is lost and nobody has anything in hand, every tab is attended. -/
theorem Conducted.attended {φ : TaskId → Stage} {ψ : TaskId → Stance}
    (hc : Conducted e log m φ ψ) (hfree : ∀ t, (φ t).hand = none) (hlost : ∀ n, ¬ Lost log n)
    (id : String) : m.world.Attended id := by
  have hplace : ∀ n s, m.world.generation? n = some s → s.tab = id →
      (∃ g, Supervisor.generation? m.world id = some g ∧ g.number = n) ∨ m.world.view.Gone n := by
    rintro n s hs rfl
    exact (hc.recorded_or_gone hfree hs).imp_right (Or.resolve_right · (hlost n))
  refine ⟨fun n s hs htab hlive => ?_, fun t j s hlive hs htab => ?_⟩
  · refine (hplace n s hs htab).resolve_right fun hgone => ?_
    exact absurd ((View.isDestroyed_of_some (v := m.world.view) hs).symm.trans hgone.destroyed)
      (by simp [hlive])
  · obtain ⟨x, hx, hj, hend⟩ := Conducted.standing_of_live hlive
    obtain ⟨g, hg, hn⟩ := (hplace _ s hs htab).resolve_right fun hgone =>
      absurd (hend.symm.trans (hgone.quiet t x j hx hj rfl)) nofun
    obtain ⟨entry, hentry, hgen⟩ := Option.bind_eq_some_iff.1 hg
    obtain ⟨s', hs', htracked⟩ := hc.supervised.tracked t x j hx hj
    have halive := hc.supervised.alive j.owner ⟨id, entry, g, hentry, hgen, hn⟩
    rw [View.isDestroyed_of_some hs'] at halive
    refine ⟨g, hg, ?_⟩
    rw [hn, World.tracked_of_some hs']
    exact htracked hend halive

/-- As long as no call has been dropped and none is under way, every tab is attended. -/
theorem Run.attended (he : e.Orderly) {capacity : Nat} (hrun : Run e (.start capacity) log m)
    (hkept : ∀ d ∈ log, d.isDrop = false)
    (hidle : ∀ t, m.world.IsCaller t → m.threads[t]? = none) (id : String) :
    m.world.Attended id := by
  obtain ⟨φ, ψ, hc⟩ := Conducted.run he hrun
  exact hc.attended (fun t => (hc.atRest_of_idle hidle t).1) (fun _ => not_lost_of_kept hkept) id

/-- Whatever tasks and other callers do meanwhile: when a call that has its turn has torn a tab down
in which nothing ran but what its generation tracked, nothing is left of that tab, and nothing has
been taken from any other one. -/
theorem Run.torn_down (he : e.HasCore) {capacity : Nat} {call : Call} {take : Request TabEntry}
    {old : TabEntry} (hreached : Run e (.start capacity) log₀ m₀) (hcaller : m₀.world.IsCaller c)
    (hclears : call.Clears e id take)
    (hturn : Move e m₀ [.performed c (call.execution e) m₀.world] m)
    (hattended : m.world.Attended id) (hrun : Run e m log m')
    (hkept : ∀ w, Deed.dropped c w ∉ log)
    (hdone : e.replay c (ExceptT.run (Supervisor.clear take id)) (Deed.statesOf c log) =
      some (.done (.ok old))) :
    Supervisor.TornDown e c id m log m' := by
  have horderly := Engine.orderly_of_core he
  obtain ⟨φ₀, ψ₀, hc₀⟩ := Conducted.run horderly hreached
  have hle : m₀.world.view ≤ m.world.view := by
    obtain ⟨φ, ψ, hpass, -⟩ := hc₀.move horderly hturn
    exact hpass.le hc₀.sound
  obtain ⟨⟨k, hthread⟩, hholder⟩ : (∃ k, m.threads[c]? =
      some ((ExceptT.run (Supervisor.clear take id)).bind k)) ∧ m.world.turn.holder = some c := by
    cases hturn with
    | perform _ hstep =>
      obtain ⟨⟨k, rfl⟩, rfl⟩ := hclears.step hstep
      exact ⟨⟨k, by rw [threads_insert, if_pos rfl]⟩, rfl⟩
  have hreached' := hreached.move hturn
  have hhas : HasTurn e c m :=
    ⟨⟨⟨capacity, _, hreached'⟩, Reached.isCaller_of_le hcaller hle⟩, hholder⟩
  obtain ⟨φ, ψ, hc⟩ := Conducted.run horderly hreached'
  have hcourse := hrun.course horderly hc hthread hkept hdone
  obtain ⟨hhas', hbare, hguard, hreleases, hlisteners⟩ := Supervisor.torn_clear horderly hhas
    hclears.takes (hattended.holding hhas.toReached horderly) hcourse
  have hcleared := World.cleared_of_bare hbare (hhas'.sound horderly)
  refine ⟨hcleared, hreleases.tellsWaiters horderly hhas, fun log₁ m₁ log₂ b _ hrun₁ hrun₂ hb => ?_,
    hlisteners, hguard.own⟩
  have hreached₁ := hreached'.trans hrun₁
  obtain ⟨φ₁, ψ₁, hc₁⟩ := Conducted.run horderly hreached₁
  obtain ⟨es, hes⟩ := hrun₂.history horderly hc₁
  rw [hes]
  refine hb.ended (hreached₁.tidy horderly) hc₁.sound.locks es fun l x hx htab => ?_
  rw [← hes] at hx
  exact (hcleared.released l x hx htab).2.1

/-! ## A tab that waits and listens -/

namespace Script

/-- A tab with a hat that listens to a variable, and a root that waits. -/
def listening : String :=
  document [
    block "h" "data_onchange_variable"
      "\"topLevel\":true,\"fields\":\x7b\"VARIABLE\":[\"v\",\"v1\"]\x7d",
    block "w" "control_wait_until"
      "\"topLevel\":true,\"inputs\":\x7b\"CONDITION\":[1,[10,\"false\"]]\x7d"]

/-- The tab has been saved, and its two roots have come as far as they can. -/
def untilListening : List Line :=
  [.call 0 (.save "a" listening), .perform 0 100, .begin 1, .perform 1 100, .finish 1,
    .perform 0 100, .return 0, .begin 2, .perform 2 100]

/-- Whether no caller has a call under way. -/
def isIdle (m : Machine) : Bool :=
  (List.range m.world.taskCount).all fun t => !m.isCaller t || (m.threads[t]?).isNone

theorem idle_of_isIdle (h : isIdle m = true) (hnumbered : m.world.view.TasksNumbered) :
    ∀ t, m.world.IsCaller t → m.threads[t]? = none := by
  rintro t ⟨r, hr, hj⟩
  have hlt : t < m.world.taskCount := hnumbered t r.standing (by rw [World.view_tasks, hr]; rfl)
  have ht := List.all_eq_true.1 h t (List.mem_range.2 hlt)
  have hcaller : m.isCaller t = true := by
    unfold Machine.isCaller
    rw [hr, Option.map_some, Option.getD_some, hj]
    rfl
  rw [hcaller] at ht
  simpa using ht

/-- Whether a caller has taken a generation out and torn it down. -/
def isTorn (t : TaskId) (take : Request TabEntry) (id : String) (log : List Deed) : Bool :=
  log.all (!·.isDrop) &&
    match engine.replay t (ExceptT.run (Supervisor.clear take id)) (Deed.statesOf t log) with
    | some (.done (.ok _)) => true
    | _ => false

theorem replay_of_isTorn {take : Request TabEntry} (h : isTorn t take id log = true) :
    (∀ w, Deed.dropped t w ∉ log) ∧ ∃ old,
      engine.replay t (ExceptT.run (Supervisor.clear take id)) (Deed.statesOf t log) =
        some (.done (.ok old)) := by
  obtain ⟨hkept, hdone⟩ := Bool.and_eq_true_iff.1 h
  refine ⟨fun w hw => absurd (List.all_eq_true.1 hkept _ hw) nofun, ?_⟩
  split at hdone
  · exact ⟨_, ‹_›⟩
  · cases hdone

/-- The machine after a caller without a call has asked for the release of the tab. -/
def asked (m : Machine) : Machine :=
  ⟨m.world, m.threads.insert 0 ((Call.release "a").execution engine)⟩

/-- Whether the caller gets its turn at once and tears the tab down, with one listener and while
somebody waits. -/
def isReleased (m : Machine) : Bool :=
  isIdle m && m.isCaller 0 &&
    (engine.step 0 (asked m).world ((Call.release "a").execution engine)).any fun r =>
      decide ((r.2.listeners 0).length = 1) && r.2.locks.isPending 0 &&
        (Machine.playAll engine ⟨r.2, (asked m).threads.insert 0 r.1⟩
          [.perform 0 100, .leave 2, .perform 0 2]).any fun r' =>
            isTorn 0 (Supervisor.retire "a" (.stopped none)) "a" r'.1

end Script

/-- A tab whose hat has a listener and whose root waits on a lock is released. -/
theorem torn_down_of_listening_tab :
    ∃ m log m', (m.world.listeners 0).length = 1 ∧ m.world.locks.isPending 0 = true ∧
      Supervisor.TornDown Script.engine 0 "a" m log m' := by
  have hcore : Script.engine.HasCore := rfl
  obtain ⟨log₁, m₁, hrun₁, hf⟩ := Run.of_playAll_any (e := Script.engine) (m := .start 10)
    Script.untilListening (f := fun log m => log.all (!·.isDrop) && Script.isReleased m)
    (by decide +kernel)
  obtain ⟨hdrop, hf⟩ := Bool.and_eq_true_iff.1 hf
  obtain ⟨hf, hreleased⟩ := Bool.and_eq_true_iff.1 hf
  obtain ⟨hidle, hcaller⟩ := Bool.and_eq_true_iff.1 hf
  obtain ⟨⟨q, w⟩, hstep, hf⟩ := (Option.any_eq_true _ _).1 hreleased
  obtain ⟨hf, hplay⟩ := Bool.and_eq_true_iff.1 hf
  obtain ⟨hlistens, hpending⟩ := Bool.and_eq_true_iff.1 hf
  obtain ⟨log, m', hrun, htorn⟩ := Run.of_playAll_any _ (f := fun log _ => Script.isTorn _ _ _ log) hplay
  obtain ⟨hkept, old, hdone⟩ := Script.replay_of_isTorn htorn
  have hcaller := Machine.isCaller_of_isCaller hcaller
  obtain ⟨φ, ψ, hc⟩ := Conducted.run (Engine.orderly_of_core hcore) hrun₁
  have hquiet := Script.idle_of_isIdle hidle hc.sound.tasksNumbered
  have hattended : m₁.world.Attended "a" := hrun₁.attended (Engine.orderly_of_core hcore)
    (fun d hd => by simpa using List.all_eq_true.1 hdrop d hd) hquiet "a"
  have hclears : (Call.release "a").Clears Script.engine "a"
      (Supervisor.retire "a" (.stopped none)) := .release
  obtain ⟨-, rfl⟩ := hclears.step hstep
  have hasked : Run Script.engine (.start 10) (log₁ ++ []) (Script.asked m₁) :=
    hrun₁.move (.call _ hcaller (hquiet 0 hcaller))
  have hthread : (Script.asked m₁).threads[0]? = some ((Call.release "a").execution Script.engine) :=
    (threads_insert ..).trans (if_pos rfl)
  exact ⟨⟨_, (Script.asked m₁).threads.insert 0 q⟩, log, m', of_decide_eq_true hlistens, hpending,
    Run.torn_down hcore hasked hcaller hclears (.perform hthread hstep)
      ⟨hattended.only, hattended.tracked⟩ hrun hkept hdone⟩

end BlockEngine
