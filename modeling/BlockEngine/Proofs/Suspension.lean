import BlockEngine.Proofs.Queue

/-!
# Suspension points

A thread is interrupted where it waits, and nowhere else. What it does from one pause to the next it
does in one go, the reactions to its signals included.

* `Execution.Brief` : an execution without pauses, blocks and routines; reactions are brief;
* `Cooperation` : moves in which nobody interrupts a thread that is in the middle of its turn;
* `Engine.Through` : all steps of an execution, one right after the other;
* `Cooperation.through` : a brief execution that a thread has begun is gone through at once.
-/

namespace BlockEngine

variable {α β : Type} {e : Engine} {t u : TaskId} {w w' w'' : World} {p q : Execution α}
  {d : Deed} {log log' log₀ log₁ log₂ ds : List Deed} {m₀ m m' m'' : Machine}

/-! ## Executions without pauses -/

namespace Execution

/-- An execution that changes the state and signals locks, and then is done. -/
inductive Brief : Execution α → Prop
  | done (a : α) : Brief (.done a)
  | act {f : World → World} {k : World → Execution α} : (∀ w, Brief (k w)) → Brief (.act f k)
  | signal {l : LockId} {v : Json} {k : Nat → Execution α} :
      (∀ n, Brief (k n)) → Brief (.signal l v k)

/-- An execution that waits or is done. -/
def Rests : Execution α → Prop
  | .done _ | .pause .. => True
  | _ => False

namespace Brief

theorem bind (hp : p.Brief) {k : α → Execution β} (hk : ∀ a, (k a).Brief) : (p.bind k).Brief := by
  induction hp with
  | done a => exact hk a
  | act _ ih => exact .act ih
  | signal _ ih => exact .signal ih

/-- It is done as soon as it rests. -/
theorem done_of_rests {k : α → Execution β} (hp : p.Brief) (h : (p.bind k).Rests) :
    ∃ a, p = .done a := by
  cases hp with
  | done a => exact ⟨a, rfl⟩
  | act | signal => exact h.elim

theorem atomically (f : World → α × World) : (Execution.atomically f).Brief := .act fun _ => .done _

theorem change (f : World → World) : (Execution.change f).Brief := .act fun _ => .done ()

theorem look_bind {k : World → Execution α} (hk : ∀ w, (k w).Brief) : (look.bind k).Brief := .act hk

theorem signalLock (l : LockId) (v : Json) : (Execution.signalLock l v).Brief := .signal .done

theorem signalLocks (v : Json) (ls : List LockId) : (Execution.signalLocks v ls).Brief := by
  induction ls with
  | nil => exact .done ()
  | cons l ls ih => exact (signalLock l v).bind fun _ => ih

theorem signalKey (tab key : String) (v : Json) : (Execution.signalKey tab key v).Brief :=
  look_bind fun _ => by
    split
    · exact (signalLock _ v).bind fun _ => .done _
    · exact .done _

theorem signalAllTabs (key : String) (v : Json) : (Execution.signalAllTabs key v).Brief :=
  look_bind fun _ => (signalLocks v _).bind fun _ => .done _

theorem setValue (g : Generation) (block key : String) (v : Json) :
    (Execution.setValue g block key v).Brief := by
  refine (change fun w => w.storeValue g.number block key v).bind fun _ => ?_
  split
  · exact (signalKey ..).bind fun _ => .done ()
  · exact .done ()

theorem writeVariable (id : String) (v : Json) : (Execution.writeVariable id v).Brief :=
  (atomically _).bind fun _ => (signalAllTabs ..).bind fun _ => .done _

theorem spawnIn (s : Site) (job : Context → Job) : (Execution.spawnIn s job).Brief := atomically _

theorem spawnChain (s chain : Site) : (Execution.spawnChain s chain).Brief := spawnIn _ _

theorem spawnNext (limit : Nat) (s : Site) : (Execution.spawnNext limit s).Brief := by
  unfold Execution.spawnNext
  split
  · exact .done _
  · exact spawnIn _ _

end Brief
end Execution

open Execution in
theorem Engine.brief_hostAct (v : Json) (act : HostAct) : (hostAct v act).Brief := by
  cases act with
  | nothing => exact .done ()
  | signal tab key value => exact (Brief.signalKey ..).bind fun _ => .done ()
  | write id value => exact (Brief.writeVariable ..).bind fun _ => .done ()
  | unsubscribe | release => exact .act fun _ => .done ()

open Execution in
theorem Engine.brief_react (e : Engine) (v : Json) (r : Reaction) : (e.react v r).Brief := by
  have hkeep : ∀ s, (keep s valueKey v).Brief := fun s => Brief.setValue _ _ _ _
  have hnext : ∀ s, (spawnNext e.settings.maxDepth s).Brief := Brief.spawnNext _
  cases r with
  | start hat => exact (hnext hat).bind fun _ => .done ()
  | keepAndStart hat => exact (hkeep hat).bind fun _ => (hnext hat).bind fun _ => .done ()
  | keepAndStartIf hat operator =>
    refine (hkeep hat).bind fun _ => ?_
    split
    · exact .done ()
    · refine Brief.bind ?_ fun _ => .done ()
      exact Brief.spawnIn hat _
  | link id asTruth => exact (Brief.writeVariable ..).bind fun _ => .done ()
  | runBody d arguments returns =>
    refine Brief.bind ?_ fun _ => .done ()
    exact Brief.spawnIn d _
  | keepAndRun owner body =>
    exact (hkeep owner).bind fun _ => (Brief.spawnChain owner body).bind fun _ => .done ()
  | host name act =>
    refine Brief.bind ?_ fun _ => brief_hostAct v act
    exact Brief.change _

theorem Engine.brief_reactAll (e : Engine) (v : Json) (rs : List Reaction) :
    (e.reactAll v rs).Brief := by
  induction rs with
  | nil => exact .done ()
  | cons r rs ih => exact (e.brief_react v r).bind fun _ => ih

/-- What a step of a brief execution leaves is brief. -/
theorem Execution.Brief.step (hp : p.Brief) (hstep : e.step t w p = some (q, w')) : q.Brief := by
  cases hp with
  | done => cases hstep
  | act hk =>
    obtain ⟨rfl, rfl⟩ := Prod.mk.inj (Option.some.inj hstep)
    exact hk w
  | signal hk =>
    rw [Engine.step_signal] at hstep
    obtain ⟨rfl, rfl⟩ := Prod.mk.inj (Option.some.inj hstep)
    exact (e.brief_reactAll _ _).bind fun _ => hk _

/-! ## Moves that interrupt nobody -/

/-- A thread is in the middle of its turn. -/
def Machine.Busy (m : Machine) (t : TaskId) : Prop := ∃ p, m.threads[t]? = some p ∧ ¬ p.Rests

/-- Nobody is in the middle of a turn. -/
def Machine.AtRest (m : Machine) : Prop := ∀ t, ¬ m.Busy t

/-- Moves one after the other, in any order but this: as long as a thread is in the middle of its turn
nobody else moves. -/
inductive Cooperation (e : Engine) : Machine → List Deed → Machine → Prop
  | refl {m : Machine} : Cooperation e m [] m
  | move {ds log : List Deed} {m m' m'' : Machine} :
      Move e m ds m' → (∀ t, m.Busy t → ∃ p, ds = [.performed t p m.world]) →
      Cooperation e m' log m'' → Cooperation e m (ds ++ log) m''

namespace Cooperation

theorem single (hmove : Move e m ds m') (h : ∀ t, m.Busy t → ∃ p, ds = [.performed t p m.world]) :
    Cooperation e m ds m' := by
  simpa using move hmove h refl

theorem trans (h : Cooperation e m log m') (h' : Cooperation e m' log' m'') :
    Cooperation e m (log ++ log') m'' := by
  induction h with
  | refl => exact h'
  | move hmove hbusy _ ih =>
    rw [List.append_assoc]
    exact move hmove hbusy (ih h')

theorem run (h : Cooperation e m log m') : Run e m log m' := by
  induction h with
  | refl => exact .refl
  | move hmove _ _ ih => exact (Run.single hmove).trans ih

/-- It goes through the move that the first deed of its log stands for. -/
theorem uncons {d : Deed} (h : Cooperation e m (d :: log) m') :
    ∃ m₁ m₂, Cooperation e m [] m₁ ∧ Move e m₁ [d] m₂ ∧
      (∀ t, m₁.Busy t → ∃ p, d = .performed t p m₁.world) ∧ Cooperation e m₂ log m' := by
  generalize hlog : d :: log = log₀ at h
  induction h with
  | refl => cases hlog
  | @move ds log₁ m m₁ m₂ hmove hbusy hrest ih =>
    rcases hmove.deeds with rfl | ⟨d', rfl⟩
    · obtain ⟨m₃, m₄, hidle, hd, hbusy', hrest'⟩ := ih hlog
      exact ⟨m₃, m₄, move hmove hbusy hidle, hd, hbusy', hrest'⟩
    · obtain ⟨rfl, rfl⟩ := List.cons.inj hlog
      refine ⟨m, m₁, refl, hmove, fun t ht => ?_, hrest⟩
      obtain ⟨p, hp⟩ := hbusy t ht
      exact ⟨p, (List.cons.inj hp).1⟩

/-- It can be cut where its log is cut. -/
theorem cut (h : Cooperation e m (log ++ log') m') :
    ∃ m₁, Cooperation e m log m₁ ∧ Cooperation e m₁ log' m' := by
  induction log generalizing m with
  | nil => exact ⟨m, refl, h⟩
  | cons d log ih =>
    obtain ⟨m₁, m₂, hidle, hmove, hbusy, hrest⟩ := h.uncons
    obtain ⟨m₃, hbefore, hafter⟩ := ih hrest
    have hmoved : Cooperation e m₁ (d :: log) m₃ := move hmove (fun t ht => by
      obtain ⟨p, rfl⟩ := hbusy t ht
      exact ⟨p, rfl⟩) hbefore
    exact ⟨m₃, hidle.trans hmoved, hafter⟩

/-- A run goes on with the move that the first deed of the rest stands for. -/
theorem next {d : Deed} (hbefore : Cooperation e m₀ log₀ m)
    (hrun : Cooperation e m (d :: log) m') :
    ∃ m₁ m₂, Cooperation e m₀ log₀ m₁ ∧ Move e m₁ [d] m₂ ∧ Cooperation e m₀ (log₀ ++ [d]) m₂ ∧
      Cooperation e m₂ log m' := by
  obtain ⟨m₁, m₂, hidle, hmove, hbusy, hlater⟩ := hrun.uncons
  have hbefore₁ : Cooperation e m₀ log₀ m₁ := by
    simpa using hbefore.trans hidle
  refine ⟨m₁, m₂, hbefore₁, hmove, hbefore₁.trans (.single hmove fun t ht => ?_), hlater⟩
  obtain ⟨p, rfl⟩ := hbusy t ht
  exact ⟨p, rfl⟩

/-- While a thread is in the middle of its turn, nothing happens without it. -/
theorem eq_of_busy (h : Cooperation e m log m') (hbusy : m.Busy t)
    (hothers : ∀ d ∈ log, d.actor ≠ t) : log = [] ∧ m' = m := by
  cases h with
  | refl => exact ⟨rfl, rfl⟩
  | move _ h _ =>
    obtain ⟨p, rfl⟩ := h t hbusy
    exact absurd rfl (hothers _ (List.mem_append_left _ (List.mem_singleton_self _)))

/-- A thread in the middle of its turn goes on, before anything else happens. -/
theorem next_of_busy {p : Execution Unit} (h : Cooperation e m (d :: log) m')
    (hp : m.threads[t]? = some p) (hbusy : ¬ p.Rests) :
    ∃ q w, d = .performed t p m.world ∧ e.step t m.world p = some (q, w) ∧
      Cooperation e ⟨w, m.threads.insert t q⟩ log m' := by
  obtain ⟨m₁, m₂, hidle, hmove, honly, hlater⟩ := h.uncons
  obtain ⟨-, rfl⟩ := hidle.eq_of_busy ⟨p, hp, hbusy⟩ nofun
  obtain ⟨p', rfl⟩ := honly t ⟨p, hp, hbusy⟩
  generalize hds : [Deed.performed t p' m₁.world] = ds at hmove
  cases hmove with
  | perform hp' hstep =>
    cases hds
    obtain rfl := Option.some.inj (hp'.symm.trans hp)
    exact ⟨_, _, rfl, hstep, hlater⟩
  | _ => cases hds

end Cooperation

/-! ## Executions that are gone through at once -/

/-- A thread performs all steps of an execution, one right after the other: the state before, the
deeds, the answer and the state after. What it has to do then is `k`. -/
inductive Engine.Through (e : Engine) (t : TaskId) {α : Type} (k : α → Execution Unit) :
    Execution α → World → List Deed → α → World → Prop
  | done {a : α} {w : World} : Through e t k (.done a) w [] a w
  | step {p q : Execution α} {w w' w'' : World} {log : List Deed} {a : α} :
      e.step t w p = some (q, w') → Through e t k q w' log a w'' →
      Through e t k p w (.performed t (p.bind k) w :: log) a w''

namespace Engine.Through

variable {k : α → Execution Unit} {a : α}

theorem of_done {b : α} (h : e.Through t k (.done b) w log a w') : log = [] ∧ b = a ∧ w' = w := by
  cases h with
  | done => exact ⟨rfl, rfl, rfl⟩
  | step hstep => cases hstep

theorem of_act {f : World → World} {g : World → Execution α} (h : e.Through t k (.act f g) w log a w') :
    ∃ log', log = .performed t ((Execution.act f g).bind k) w :: log' ∧
      e.Through t k (g w) (f w) log' a w' := by
  cases h with
  | step hstep hrest =>
    obtain ⟨rfl, rfl⟩ := Prod.mk.inj (Option.some.inj hstep)
    exact ⟨_, rfl, hrest⟩

theorem of_bind {p : Execution β} {g : β → Execution α} (h : e.Through t k (p.bind g) w log a w') :
    ∃ b w₁ log₁ log₂, log = log₁ ++ log₂ ∧ e.Through t (fun b => (g b).bind k) p w log₁ b w₁ ∧
      e.Through t k (g b) w₁ log₂ a w' := by
  generalize hr : p.bind g = r at h
  induction h generalizing p with
  | @done a w =>
    cases p with
    | done b => exact ⟨b, w, [], [], rfl, .done, by rw [show g b = .done a from hr]; exact .done⟩
    | _ => cases hr
  | @step r q w w₁ w' log a hstep hrest ih =>
    subst hr
    by_cases hp : ∃ b, p = .done b
    · obtain ⟨b, rfl⟩ := hp
      exact ⟨b, w, [], _, rfl, .done, .step hstep hrest⟩
    · rw [step_bind e t w g fun b hb => hp ⟨b, hb⟩] at hstep
      obtain ⟨⟨p', w₂⟩, hp', heq⟩ := Option.map_eq_some_iff.1 hstep
      obtain ⟨rfl, rfl⟩ := Prod.mk.inj heq
      obtain ⟨b, w₃, log₁, log₂, rfl, hfirst, hsecond⟩ := ih rfl
      rw [Execution.bind_assoc]
      exact ⟨b, w₃, _, log₂, rfl, .step hp' hfirst, hsecond⟩

theorem of_signal {l : LockId} {v : Json} {g : Nat → Execution α}
    (h : e.Through t k (.signal l v g) w log a w') :
    ∃ n w₁ log₁ log₂, log = .performed t ((Execution.signal l v g).bind k) w :: (log₁ ++ log₂) ∧
      e.Through t (fun _ => (g n).bind k) (e.reactAll v (w.locks.deliver l v).1.2)
        (w.deliver l v).2 log₁ () w₁ ∧
      e.Through t k (g n) w₁ log₂ a w' := by
  cases h with
  | step hstep hrest =>
    rw [Engine.step_signal] at hstep
    obtain ⟨rfl, rfl⟩ := Prod.mk.inj (Option.some.inj hstep)
    obtain ⟨_, w₁, log₁, log₂, rfl, hfirst, hsecond⟩ := hrest.of_bind
    exact ⟨_, w₁, log₁, log₂, rfl, hfirst, hsecond⟩

/-- All its deeds are those of the thread. -/
theorem actor (h : e.Through t k p w log a w') : ∀ d ∈ log, d.actor = t := by
  induction h with
  | done => nofun
  | step _ _ ih => exact List.forall_mem_cons.2 ⟨rfl, ih⟩

end Engine.Through

/-- A thread that has begun a brief execution goes through it before anybody else moves, if it ever
rests again. -/
theorem Cooperation.through {x : Execution α} {k : α → Execution Unit} (h : Cooperation e m log m')
    (hx : x.Brief) (hp : m.threads[t]? = some (x.bind k)) (hrest : m'.AtRest) :
    ∃ a w log₁ log₂, log = log₁ ++ log₂ ∧ e.Through t k x m.world log₁ a w ∧
      Cooperation e ⟨w, m.threads.insert t (k a)⟩ log₂ m' := by
  induction h generalizing x with
  | @refl m =>
    by_cases hrests : (x.bind k).Rests
    · obtain ⟨a, rfl⟩ := hx.done_of_rests hrests
      refine ⟨a, m.world, [], [], rfl, .done, ?_⟩
      rw [Worker.threads_insert_self (p := k a) hp]
      exact .refl
    · exact absurd ⟨_, hp, hrests⟩ (hrest t)
  | @move ds log m m₁ m₂ hmove hbusy hafter ih =>
    by_cases hdone : ∃ a, x = .done a
    · obtain ⟨a, rfl⟩ := hdone
      refine ⟨a, m.world, [], ds ++ log, rfl, .done, ?_⟩
      rw [Worker.threads_insert_self (p := k a) hp]
      exact .move hmove hbusy hafter
    · obtain ⟨p, rfl⟩ := hbusy t ⟨_, hp, fun hrests => hdone (hx.done_of_rests hrests)⟩
      cases hmove with
      | perform hp' hstep =>
        obtain rfl := Option.some.inj (hp'.symm.trans hp)
        rw [Engine.step_bind e t _ k fun a ha => hdone ⟨a, ha⟩] at hstep
        obtain ⟨⟨y, w₁⟩, hy, heq⟩ := Option.map_eq_some_iff.1 hstep
        obtain ⟨rfl, rfl⟩ := Prod.mk.inj heq
        obtain ⟨a, w₂, log₁, log₂, rfl, hthrough, hrest'⟩ :=
          ih (hx.step hy) ((threads_insert ..).trans (if_pos rfl)) hrest
        refine ⟨a, w₂, _, log₂, rfl, .step hy hthrough, ?_⟩
        rwa [Worker.threads_insert_insert] at hrest'

/-! ## Scripts in which nobody is interrupted -/

instance (p : Execution α) : Decidable p.Rests :=
  match p with
  | .done _ | .pause .. => .isTrue trivial
  | .act .. | .signal .. | .evaluate .. | .run .. => .isFalse id

namespace Machine

/-- Whether all threads but one, if one is named, rest. -/
def restsBut (m : Machine) (t? : Option TaskId) : Bool :=
  m.threads.toList.all fun x => decide (x.2.Rests) || decide (some x.1 = t?)

theorem eq_of_restsBut {t? : Option TaskId} (h : m.restsBut t? = true) (hbusy : m.Busy t) :
    some t = t? := by
  obtain ⟨p, hp, hrests⟩ := hbusy
  have ht := List.all_eq_true.1 h (t, p) (Std.ExtTreeMap.mem_toList_iff_getElem?_eq_some.2 hp)
  simpa [hrests] using ht

theorem atRest_of_restsBut (h : m.restsBut none = true) : m.AtRest := fun _ hbusy =>
  nomatch eq_of_restsBut h hbusy

/-- The machine after a script in which nobody is interrupted. -/
def playInTurn (e : Engine) : Machine → List Script.Line → Option (List Deed × Machine)
  | m, [] => some ([], m)
  | m, l :: rest =>
    if m.restsBut l.mover? then do
      let (log, m') ← m.play e l
      let (log', m'') ← playInTurn e m' rest
      return (log ++ log', m'')
    else none

end Machine

theorem Cooperation.of_performAll (t : TaskId) (n : Nat) (honly : ∀ u, m.Busy u → u = t) :
    Cooperation e m (m.performAll e t n).1 (m.performAll e t n).2 := by
  induction n generalizing m with
  | zero => exact .refl
  | succ n ih =>
    unfold Machine.performAll
    split
    · exact .refl
    · next p hp =>
      split
      · exact .refl
      · next q w hstep =>
        refine (Cooperation.single (.perform hp hstep) fun u hu => ?_).trans (ih fun u hu => ?_)
        · obtain rfl := honly u hu
          exact ⟨p, rfl⟩
        · obtain ⟨r, hr, hrests⟩ := hu
          rw [threads_insert] at hr
          split at hr
          · assumption
          · exact honly u ⟨r, hr, hrests⟩

/-- In a line of a script nobody is interrupted, if all other threads rest before it. -/
theorem Cooperation.of_play {l : Script.Line} (hrests : m.restsBut l.mover? = true)
    (h : m.play e l = some (log, m')) : Cooperation e m log m' := by
  cases hl : l.mover? with
  | none =>
    rw [hl] at hrests
    exact .single (.of_play hl h) fun t ht => absurd ht (Machine.atRest_of_restsBut hrests t)
  | some t =>
    cases l with
    | perform t n =>
      obtain ⟨rfl, rfl⟩ := Prod.mk.inj (Option.some.inj h)
      exact .of_performAll t n fun u hu => Option.some.inj (Machine.eq_of_restsBut hrests hu)
    | _ => cases hl

/-- A script that can be played so is a run in which nobody is interrupted. -/
theorem Cooperation.of_playInTurn {ls : List Script.Line}
    (h : m.playInTurn e ls = some (log, m')) : Cooperation e m log m' := by
  induction ls generalizing m log with
  | nil =>
    obtain ⟨rfl, rfl⟩ := Prod.mk.inj (Option.some.inj h)
    exact .refl
  | cons l rest ih =>
    unfold Machine.playInTurn at h
    split at h
    · next hrests =>
      obtain ⟨⟨log₁, m₁⟩, hplay, h⟩ := Option.bind_eq_some_iff.1 h
      obtain ⟨⟨log₂, m₂⟩, hrest, h⟩ := Option.bind_eq_some_iff.1 h
      obtain ⟨rfl, rfl⟩ := Prod.mk.inj (Option.some.inj h)
      exact (Cooperation.of_play hrests hplay).trans (ih hrest)
    · cases h

/-- A script whose end has been computed to be like `f`, and at whose end all rest. -/
theorem Cooperation.of_playInTurn_any (ls : List Script.Line) {f : List Deed → Machine → Bool}
    (h : ((m.playInTurn e ls).any fun r => r.2.restsBut none && f r.1 r.2) = true) :
    ∃ log m', Cooperation e m log m' ∧ m'.AtRest ∧ f log m' = true := by
  obtain ⟨⟨log, m'⟩, hplay, h⟩ := (Option.any_eq_true _ _).1 h
  obtain ⟨hrests, hf⟩ := Bool.and_eq_true_iff.1 h
  exact ⟨log, m', .of_playInTurn hplay, Machine.atRest_of_restsBut hrests, hf⟩

end BlockEngine
