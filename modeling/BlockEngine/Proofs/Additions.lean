import BlockEngine.Proofs.Integers
import BlockEngine.Proofs.Strides

/-!
# Numbers that are added to a variable

Blocks of many tasks and tabs add integers to a variable that nobody else writes. None of them is
lost, in whatever order the tasks go on where they have waited.

* `Deed.Reads`, `Deed.Adds` : a thread has read the item of a block that changes the variable, and is
  about to write;
* `Additions` : a log in which only such blocks write the variable, with the integers they add;
* `Execution.signalLocks` and `Engine.Through.write` : what is signalled for a write;
* `Cooperation.adds_up` : the sums, the signals, and that nothing comes between reading and writing.
-/

namespace BlockEngine

open Execution (writeVariable)

variable {α β : Type} {e : Engine} {t : TaskId} {l : LockId} {id tab : String} {w w' : World}
  {x : Double} {i n : Int} {v v' : Json} {p : Execution Unit} {d : Deed} {log log₁ log₂ past ds : List Deed}
  {ys : List (World × Int)} {m m' : Machine} {capacity : Nat} {key : LockKey}

/-- The number that a variable counts as. -/
def World.number (w : World) (id : String) : Double :=
  ((w.vars.value? id).bind Json.toDouble?).getD .zero

/-! ## Deeds of blocks that change a variable -/

namespace Deed

/-- The step of a thread writes a variable. -/
def Writes (id : String) (d : Deed) : Prop :=
  ∃ t v k w, d = .performed t ((writeVariable id v).bind k) w

/-- A thread has entered a block that changes a variable, has read the item of the block and has
performed no step since. -/
def Reads (e : Engine) (id : String) (past : List Deed) (t : TaskId) (x : Double) : Prop :=
  ∃ before p w s after, past = before ++ .performed t p w :: after ∧ p.Enters s ∧
    s.block.opcode = ⟨"data", "changevariableby"⟩ ∧ Library.variableId s = id ∧
    e.replay t (ExceptT.run (s.inputDouble e.environment itemInput)) (statesOf t after) =
      some (.done (.ok x))

/-- A thread has read the item of such a block, and its one step since then was to look at the state. -/
def Adds (e : Engine) (id : String) (past : List Deed) (t : TaskId) (x : Double) : Prop :=
  ∃ before p w after, past = before ++ .performed t p w :: after ∧ Reads e id before t x ∧
    statesOf t after = []

end Deed

/-- A log, after another, in which only blocks that change a variable write it, and they change it by
integers: the states in which they write, with the integers. -/
inductive Additions (e : Engine) (id : String) : List Deed → List Deed → List (World × Int) → Prop
  | nil {past : List Deed} : Additions e id past [] []
  | add {past log : List Deed} {ys : List (World × Int)} {t : TaskId} {x : Double} {n : Int} {v : Json}
      {k : Option Json → Execution Unit} {w : World} :
      Deed.Adds e id past t x → x.Holds n →
      Additions e id (past ++ [.performed t ((writeVariable id v).bind k) w]) log ys →
      Additions e id past (.performed t ((writeVariable id v).bind k) w :: log) ((w, n) :: ys)
  | other {past log : List Deed} {ys : List (World × Int)} {d : Deed} :
      ¬ d.Writes id → Additions e id (past ++ [d]) log ys → Additions e id past (d :: log) ys

/-- All that is added. -/
def added : List (World × Int) → Int
  | [] => 0
  | y :: ys => y.2 + added ys

/-- The sums from an integer on, each in the state in which it is reached. -/
def sumsFrom : Int → List (World × Int) → List (World × Int)
  | _, [] => []
  | i, y :: ys => (y.1, i + y.2) :: sumsFrom (i + y.2) ys

/-! ### Heads of executions -/

/-- To write a variable is to change the state, and then to tell. -/
theorem Execution.writeVariable_bind (id : String) (v : Json) (k : Option Json → Execution β) :
    ∃ g, (writeVariable id v).bind k = .act (fun w => { w with vars := w.vars.write id v }) g :=
  ⟨_, rfl⟩

theorem Execution.value_of_write {f : World → World} {g : World → Execution β}
    {k : Option Json → Execution β} (h : Execution.act f g = (writeVariable id v).bind k) (w : World) :
    (f w).vars.value? id = some v := by
  obtain ⟨g', hg'⟩ := writeVariable_bind id v k
  rw [(Execution.act.inj (h.trans hg')).1]
  exact (Variables.value?_write ..).trans (if_pos rfl)

/-- What is written can be read off the execution. -/
theorem Execution.write_inj {k : Option Json → Execution β} {k' : Option Json → Execution β}
    (h : (writeVariable id v).bind k = (writeVariable id v').bind k') : v = v' := by
  obtain ⟨g, hg⟩ := writeVariable_bind id v k
  have hfirst := value_of_write hg.symm (.start 0)
  exact Option.some.inj (hfirst.symm.trans (value_of_write (hg.symm.trans h) (.start 0)))

/-- Who keeps all variables does not write. -/
theorem Deed.not_writes_act {f : World → World} {g : World → Execution Unit}
    (hf : ∀ w, (f w).vars = w.vars) : ¬ (Deed.performed t (.act f g) w).Writes id := by
  rintro ⟨u, v, k, w', h⟩
  have hvalue := Execution.value_of_write (Deed.performed.inj h).2.1 (.start 0)
  rw [hf] at hvalue
  cases hvalue

theorem Deed.not_writes_signal {k : Nat → Execution Unit} :
    ¬ (Deed.performed t (.signal l v k) w).Writes id := by
  rintro ⟨u, v', k', w', h⟩
  cases (Deed.performed.inj h).2.1

/-! ## What a thread does that has read -/

theorem Engine.HasCore.command_of_adds (he : e.HasCore) {s : Site}
    (ho : s.block.opcode = ⟨"data", "changevariableby"⟩) : e.IsCommand s Library.changeVariable := by
  unfold Engine.IsCommand Engine.lookup
  rw [he, ho]
  exact ⟨_, rfl, rfl⟩

/-- Whoever has read an item is about to add it. -/
theorem Deed.Reads.thread (he : e.HasCore) (hrun : Run e (.start capacity) past m)
    (hreads : Deed.Reads e id past t x) (hp : m.threads[t]? = some p) :
    ∃ k, p = (Library.addTo id x).bind k := by
  have horderly := Engine.orderly_of_core he
  obtain ⟨before, p₀, w₀, s, after, rfl, hs, ho, rfl, hitem⟩ := hreads
  obtain ⟨m₁, m₂, q, rfl, hstep, hrun₁, hmove, hrun₂⟩ := hrun.at_deed
  have hp₀ := hmove.thread
  obtain honce | ⟨j, hj, -⟩ := hrun₁.entered he hp₀ hs
  · rw [ho] at honce
    cases honce
  obtain ⟨φ, ψ, hc⟩ := Conducted.run horderly hrun₁
  obtain ⟨-, -, -, hle⟩ := hc.extend horderly ((Run.single hmove).trans hrun₂)
  obtain ⟨q₁, hreplay₁, hq₁, -⟩ := hrun₁.task_steps horderly hj
  obtain rfl := hq₁ p₀ hp₀
  obtain ⟨q₂, hreplay₂, hq₂, -⟩ := hrun.task_steps horderly (World.job?_of_le hle hj)
  obtain rfl := hq₂ p hp
  obtain ⟨k, hcommand, -⟩ := (he.command_of_adds ho).step_of_enters hs
  have hstates : Deed.statesOf t (before ++ .performed t p₀ m₁.world :: after) =
      Deed.statesOf t before ++ m₁.world :: Deed.statesOf t after := by
    simp [Deed.statesOf]
  rw [hstates, Engine.replay_append, hreplay₁, Option.bind_some, Engine.replay, hcommand t m₁.world,
    Option.bind_some, Library.changeVariable_eq] at hreplay₂
  have hrest := Engine.replay_bind_of_some (Engine.replay_bind_of_some hitem (ExceptT.bindCont
    fun x => (monadLift (Library.addTo (Library.variableId s) x) : Attempt Unit) >>= fun _ =>
      pure Signal.proceed)) k
  obtain rfl := Option.some.inj (hreplay₂.symm.trans hrest)
  change ∃ k', ((((Library.addTo (Library.variableId s) x).bind _).bind _).bind k) = _
  rw [Execution.bind_assoc, Execution.bind_assoc]
  exact ⟨_, rfl⟩

theorem Library.step_addTo (e : Engine) (t : TaskId) (w : World) (id : String) (x : Double)
    (k : Unit → Execution β) : e.step t w ((Library.addTo id x).bind k) =
      some ((writeVariable id (.ofDouble ((w.number id).add x))).bind fun _ => k (), w) :=
  congrArg (fun q => some (q, w))
    (Execution.bind_assoc (writeVariable id (.ofDouble ((w.number id).add x))) (fun _ => .done ()) k)

/-- While a thread is in the middle of its turn, nothing happens unless it performs a step. -/
theorem Cooperation.eq_of_no_step (h : Cooperation e m log m') (hbusy : m.Busy t)
    (hnone : Deed.statesOf t log = []) : m' = m := by
  cases h with
  | refl => rfl
  | move _ h _ =>
    obtain ⟨p, rfl⟩ := h t hbusy
    simp [Deed.statesOf] at hnone

/-- Whoever has read an item looks at the state next, and then is about to write the sum. -/
theorem Deed.Reads.look (he : e.HasCore) (hrun : Run e (.start capacity) past m)
    (hreads : Deed.Reads e id past t x) (hmove : Move e m [.performed t p w] m') :
    m'.world = w ∧ ∃ k, m'.threads[t]? =
      some ((writeVariable id (.ofDouble ((w.number id).add x))).bind k) := by
  obtain ⟨k, rfl⟩ := hreads.thread he hrun (hmove.of_performed (List.mem_singleton_self _)).1
  generalize hds : [Deed.performed t ((Library.addTo id x).bind k) w] = ds at hmove
  cases hmove with
  | perform hp hstep =>
    cases hds
    rw [Library.step_addTo] at hstep
    obtain ⟨rfl, rfl⟩ := Prod.mk.inj (Option.some.inj hstep)
    exact ⟨rfl, _, (threads_insert ..).trans (if_pos rfl)⟩
  | _ => cases hds

/-- Whoever has read an item and has looked at the state has found it as it still is, and is about to
write the sum. -/
theorem Deed.Adds.thread (he : e.HasCore) (hrun : Cooperation e (.start capacity) past m)
    (hadds : Deed.Adds e id past t x) (hp : m.threads[t]? = some p) :
    ∃ k, p = (writeVariable id (.ofDouble ((m.world.number id).add x))).bind k := by
  obtain ⟨before, p₁, w₁, after, rfl, hreads, hnone⟩ := hadds
  obtain ⟨m₀, hbefore, hafter⟩ := hrun.cut
  obtain ⟨m₁, m₂, hidle, hmove, -, hlater⟩ := hafter.uncons
  obtain ⟨rfl, k, hthread⟩ := hreads.look he (by simpa using (hbefore.trans hidle).run) hmove
  obtain rfl := hlater.eq_of_no_step ⟨_, hthread, fun h => h⟩ hnone
  exact ⟨k, Option.some.inj (hp.symm.trans hthread)⟩

/-- Whoever has read an item and looks at the state writes before anybody else moves. -/
theorem Cooperation.writes_at_once (he : e.HasCore) (hbefore : Cooperation e (.start capacity) past m)
    (hrun : Cooperation e m (log₁ ++ .performed t p w :: log₂) m') (hrest : m'.AtRest)
    (hreads : Deed.Reads e id (past ++ log₁) t x) :
    ∃ v k log₃, log₂ = .performed t ((writeVariable id v).bind k) w :: log₃ := by
  obtain ⟨m₀, hfirst, hafter⟩ := hrun.cut
  obtain ⟨m₁, m₂, hidle, hmove, -, hlater⟩ := hafter.uncons
  obtain ⟨rfl, k, hthread⟩ :=
    hreads.look he (by simpa using (hbefore.trans (hfirst.trans hidle)).run) hmove
  cases log₂ with
  | nil =>
    obtain ⟨-, rfl⟩ := hlater.eq_of_busy ⟨_, hthread, fun h => h⟩ nofun
    exact absurd ⟨_, hthread, fun h => h⟩ (hrest t)
  | cons d log₃ =>
    obtain ⟨-, -, rfl, -, -⟩ := hlater.next_of_busy hthread fun h => h
    exact ⟨_, k, log₃, rfl⟩

/-! ## Around the writes -/

section

variable {X : ∀ {β : Type}, Execution β → Prop} {q : Execution α} {k : α → Execution β}
  {k' : Option Json → Execution β}

/-- A variable that may not change is not written. -/
theorem Execution.Plain.not_write (hq : q.Plain (.guarded e l tab key id X))
    (hw : w.Places e l tab key) (hdone : ∀ a, q ≠ .done a) :
    q.bind k ≠ (writeVariable id v).bind k' := by
  intro h
  obtain ⟨g, hg⟩ := writeVariable_bind id v k'
  cases q with
  | done a => exact hdone a rfl
  | act f g' =>
    obtain ⟨rfl, -⟩ := Execution.act.inj (h.trans hg)
    -- The limits hold in any state, so also where the variable has another value.
    obtain ⟨v', hne⟩ : ∃ v', v' ≠ v := by
      cases v with
      | null => exact ⟨.bool true, nofun⟩
      | _ => exact ⟨.null, nofun⟩
    have hother := (hq { w with vars := w.vars.write id v' } ⟨hw.sound, hw.lock⟩
      ⟨hw.sound, hw.lock⟩).1 v' ((Variables.value?_write ..).trans (if_pos rfl))
    exact hne (Option.some.inj
      (hother.symm.trans ((Variables.value?_write ..).trans (if_pos rfl))))
  | _ => cases h.trans hg

theorem Execution.Plain.tells_nil (hq : q.Plain (.guarded e l tab key id X)) : q.tells l = [] := by
  cases q with
  | signal l' v k => exact if_neg hq.1
  | _ => rfl

end

/-! ## What a write sets off -/

/-- What is signalled in a deed does not reach a link that writes a variable. -/
def Deed.Unlinked (id : String) : Deed → Prop
  | .performed _ (.signal l v _) w => ∀ b, .link id b ∉ (w.locks.deliver l v).1.2
  | _ => True

/-- A variable is not written in a deed, and a lock is not signalled. -/
def Deed.Leaves (id : String) (l : LockId) (d : Deed) : Prop := ¬ d.Writes id ∧ d.tells l = []

theorem Execution.Plain.leaves {X : ∀ {β : Type}, Execution β → Prop} {q : Execution α}
    {k : α → Execution Unit} (hq : q.Plain (.guarded e l tab key id X)) (hw : w.Places e l tab key)
    (hdone : ∀ a, q ≠ .done a) : (Deed.performed t (q.bind k) w').Leaves id l := by
  refine ⟨?_, (Engine.tells_bind hdone l k).trans hq.tells_nil⟩
  rintro ⟨u, v, k', w₁, h⟩
  exact hq.not_write hw hdone (Deed.performed.inj h).2.1

theorem Deed.IsPlain.leaves {X : ∀ {β : Type}, Execution β → Prop}
    (hd : d.IsPlain (.guarded e l tab key id X)) (hw : w.Places e l tab key) : d.Leaves id l := by
  cases d with
  | dropped => exact ⟨nofun, rfl⟩
  | performed t p w₁ =>
    by_cases hdone : ∃ a, p = .done a
    · obtain ⟨a, rfl⟩ := hdone
      refine ⟨?_, rfl⟩
      rintro ⟨u, v, k, w₂, h⟩
      cases (Deed.performed.inj h).2.1
    · rw [← p.bind_done]
      exact Execution.Plain.leaves hd hw fun a ha => hdone ⟨a, ha⟩

/-- The limits around a variable and one of its locks, without exemptions. -/
abbrev Limits.sealed (e : Engine) (l : LockId) (tab id : String) : Limits :=
  .guarded e l tab (.variableWrite id) id fun _ => False

theorem LockKey.text_variableWrite_ne {id' : String} (h : id' ≠ id) :
    LockKey.text (.variableWrite id') ≠ LockKey.text (.variableWrite id) := fun heq =>
  h (word_eq_of_text heq).2

/-- A reaction stays within them unless it is a link that writes the variable. -/
theorem Engine.within_react_sealed (hw : w.Places e l tab (.variableWrite id)) {l' : LockId}
    {r : Reaction} (hr : r ∈ (w.locks.deliver l' v).1.2) (hlink : ∀ b, r ≠ .link id b) (v' : Json) :
    (e.react v' r).Within (.sealed e l tab id) := by
  have hne : ∀ id' b, r = .link id' b → id' ≠ id := by
    rintro id' b rfl rfl
    exact hlink b rfl
  have hkey : ∀ block, LockKey.text (.value block) ≠ LockKey.text (.variableWrite id) :=
    fun _ => LockKey.text_ne (by simp [LockKey.word])
  exact Engine.within_react
    (fun s _ => .setValue s.generation (Limits.opens_guarded (hkey s.id)) valueKey)
    (fun id' b hr => Limits.within_write_guarded (hne id' b hr)
      (LockKey.text_variableWrite_ne (hne id' b hr))) (World.ne_host_of_mem hw.sound hr) v'

namespace Engine.Through

section

variable {k : α → Execution Unit} {a : α} {q : Execution α}
  (hfits : ∀ u p w₁, .performed u p w₁ ∈ log → w₁.Places e l tab (.variableWrite id))
  (hfits' : w'.Places e l tab (.variableWrite id)) (hunlinked : ∀ d ∈ log, d.Unlinked id)

include hfits hfits'

theorem places (h : e.Through t k q w log a w') : w.Places e l tab (.variableWrite id) := by
  cases h with
  | done => exact hfits'
  | step => exact hfits _ _ _ List.mem_cons_self

include hunlinked

/-- What is brief and keeps to the limits leaves the variable and the lock alone. -/
theorem leaves (h : e.Through t k q w log a w') (hbrief : q.Brief)
    (hq : q.Within (.sealed e l tab id)) : w.Retains id w' ∧ ∀ d ∈ log, d.Leaves id l := by
  obtain ⟨hretains, hdeeds⟩ := h.plain (L := .sealed e l tab id) (fun _ h => h) hbrief hq hfits hfits'
    fun u l' v g w₁ hd _ r hr => within_react_sealed (hfits _ _ _ hd) hr
      (fun b h => hunlinked _ hd b (h ▸ hr)) v
  refine ⟨hretains, fun d hd => ?_⟩
  obtain ⟨q', w₁, rfl, hplain, hdone, hw₁⟩ := hdeeds d hd
  exact hplain.leaves hw₁ hdone

/-- To signal locks, each once, is to signal each that is among them once. -/
theorem signals {ls : List LockId} {k : Unit → Execution Unit} {a : Unit}
    (h : e.Through t k (Execution.signalLocks v ls) w log a w') (hls : ls.Nodup) :
    w.Retains id w' ∧ (∀ d ∈ log, ¬ d.Writes id) ∧
      log.flatMap (Deed.tells l) = if l ∈ ls then [v] else [] := by
  induction ls generalizing w log with
  | nil =>
    obtain ⟨rfl, -, rfl⟩ := h.of_done
    exact ⟨.refl _, nofun, rfl⟩
  | cons l' ls ih =>
    obtain ⟨hnew, hls⟩ := List.nodup_cons.1 hls
    obtain ⟨n, w₁, log₁, log₂, rfl, hfirst, hrest⟩ :=
      of_bind (p := Execution.signalLock l' v) (g := fun _ => Execution.signalLocks v ls) h
    obtain ⟨n', w₂, log₃, log₄, rfl, hreact, hdone⟩ := of_signal hfirst
    obtain ⟨rfl, -, rfl⟩ := hdone.of_done
    rw [List.append_nil] at hfits hunlinked ⊢
    have hfits₂ : ∀ u p w₃, .performed u p w₃ ∈ log₂ → w₃.Places e l tab (.variableWrite id) :=
      fun u p w₃ hd => hfits u p w₃ (List.mem_append_right _ hd)
    obtain ⟨hretains₂, hwrites₂, htells₂⟩ :=
      ih hfits₂ (fun d hd => hunlinked d (List.mem_append_right _ hd)) hrest hls
    have hw := hfits _ _ _ (List.mem_append_left _ List.mem_cons_self)
    have hlink := hunlinked _ (List.mem_append_left _ List.mem_cons_self)
    obtain ⟨hretains₁, hleaves⟩ := leaves
      (fun u p w₃ hd => hfits u p w₃ (List.mem_append_left _ (List.mem_cons_of_mem _ hd)))
      (places hfits₂ hfits' hrest)
      (fun d hd => hunlinked d (List.mem_append_left _ (List.mem_cons_of_mem _ hd))) hreact
      (e.brief_reactAll _ _)
      (within_reactAll fun r hr => within_react_sealed hw hr (fun b h => hlink b (h ▸ hr)) v)
    have htells₁ : log₃.flatMap (Deed.tells l) = [] :=
      List.flatMap_eq_nil_iff.2 fun d hd => (hleaves d hd).2
    refine ⟨?_, fun d hd => ?_, ?_⟩
    · exact (BlockLimits.deliverTo (L := .sealed e l tab id) w l' v).trans
        (hretains₁.trans hretains₂)
    · rcases List.mem_append.1 hd with hd | hd
      · rcases List.mem_cons.1 hd with rfl | hd
        · exact Deed.not_writes_signal
        · exact (hleaves d hd).1
      · exact hwrites₂ d hd
    · rw [List.flatMap_append, List.flatMap_cons, htells₁, htells₂, List.append_nil]
      change (if l' = l then [v] else []) ++ (if l ∈ ls then [v] else []) = _
      by_cases hl : l' = l
      · subst hl
        simp [hnew]
      · simp [hl, Ne.symm hl]

/-- To write a variable is to signal each of its locks once, after which it has the value. -/
theorem write {k : Option Json → Execution Unit} {old : Option Json}
    (h : e.Through t k (writeVariable id v) w log old w') :
    ∃ rest, log = .performed t ((writeVariable id v).bind k) w :: rest ∧
      (∀ d ∈ rest, ¬ d.Writes id) ∧ w'.vars.value? id = some v ∧
      log.flatMap (Deed.tells l) =
        if l ∈ w.locks.acrossTabs (LockKey.variableWrite id).text then [v] else [] := by
  have hsound := (places hfits hfits' h).sound
  obtain ⟨log₁, rfl, h₁⟩ := of_act (f := fun w => { w with vars := w.vars.write id v }) h
  obtain ⟨log₂, rfl, h₂⟩ := of_act (f := fun w => w) h₁
  obtain ⟨n, w₁, log₃, log₄, rfl, h₃, h₄⟩ := of_bind (p := (Execution.signalLocks v
    (w.locks.acrossTabs (LockKey.variableWrite id).text)).bind fun _ => .done _) h₂
  obtain ⟨u, w₂, log₅, log₆, rfl, hsignals, hdone⟩ := h₃.of_bind
  obtain ⟨rfl, -, rfl⟩ := hdone.of_done
  obtain ⟨rfl, -, rfl⟩ := h₄.of_done
  simp only [List.append_nil] at hfits hunlinked ⊢
  have hlater : ∀ {d d₁ d₂ : Deed}, d ∈ log₅ → d ∈ d₁ :: d₂ :: log₅ :=
    fun hd => List.mem_cons_of_mem _ (List.mem_cons_of_mem _ hd)
  obtain ⟨hretains, hwrites, htells⟩ := signals (fun u p w₃ hd => hfits u p w₃ (hlater hd)) hfits'
    (fun d hd => hunlinked d (hlater hd)) hsignals (hsound.locks.nodup_acrossTabs _)
  refine ⟨_, rfl, List.forall_mem_cons.2 ⟨Deed.not_writes_act fun _ => rfl, hwrites⟩,
    hretains v ((Variables.value?_write ..).trans (if_pos rfl)), ?_⟩
  exact htells

end

end Engine.Through

/-! ## Runs -/

theorem Run.places_of_deed (he : e.HasCore) (hbefore : Run e (.start capacity) past m)
    (hrun : Run e m log m') (hplaces : m'.world.Places e l tab key) (hd : .performed t p w ∈ log) :
    w.Places e l tab key := by
  obtain ⟨log₁, log₂, rfl⟩ := List.append_of_mem hd
  obtain ⟨m₁, m₂, q, rfl, -, h₁, hmove, h₂⟩ := hrun.at_deed
  obtain ⟨φ, ψ, hc⟩ := Conducted.run (Engine.orderly_of_core he) (hbefore.trans h₁)
  exact ((Run.single hmove).trans h₂).places he hc hplaces

/-- The execution writes a variable. -/
inductive Execution.IsWrite (id : String) : ∀ {β : Type}, Execution β → Prop
  | intro (v : Json) : IsWrite id (writeVariable id v)

/-- The limits around a variable and one of its locks, from which writes of the variable are exempt. -/
abbrev Limits.around (e : Engine) (l : LockId) (tab id : String) : Limits :=
  .guarded e l tab (.variableWrite id) id (Execution.IsWrite id)

theorem LockKey.isKept_variableWrite (id : String) : (LockKey.variableWrite id).IsKept :=
  .inr (by simp [LockKey.word])

namespace Limits

theorem within_keep_around (s : Site) (v : Json) :
    (Engine.keep s valueKey v).Within (.around e l tab id) :=
  .setValue s.generation (opens_guarded (LockKey.text_ne (by simp [LockKey.word]))) valueKey v

theorem within_write_around (id' : String) (v : Json) :
    (writeVariable id' v).Within (.around e l tab id) := by
  by_cases h : id' = id
  · subst h
    exact .of_exempt (.intro v)
  · exact within_write_guarded h (LockKey.text_variableWrite_ne h) v

theorem withinAt_around (he : e.HasCore) (s : Site) : e.WithinAt (.around e l tab id) s :=
  he.withinAt (suits_guarded (LockKey.isKept_variableWrite id) (within_keep_around s)
    (fun _ => within_write_around _) fun _ => within_write_around _)

end Limits

/-- Writes of a variable are gone through at once; in between, everything keeps the variable and leaves
its lock alone. -/
theorem Cooperation.strides_around (he : e.HasCore) (hbefore : Run e (.start capacity) past m)
    (hrun : Cooperation e m log m') (hrest : m'.AtRest)
    (hplaces : m'.world.Places e l tab (.variableWrite id))
    (hstart : ∀ (t : TaskId) p, m.threads[t]? = some p → p.Within (.around e l tab id)) :
    Strides e (.around e l tab id) m log m' ∧
      ∀ (t : TaskId) p, m'.threads[t]? = some p → p.Within (.around e l tab id) := by
  have hfits : ∀ log₁ m₁ log₂, Run e m log₁ m₁ → Run e m₁ log₂ m' →
      m₁.world.Places e l tab (.variableWrite id) := fun log₁ m₁ log₂ h₁ h₂ => by
    obtain ⟨φ, ψ, hc⟩ := Conducted.run (Engine.orderly_of_core he) (hbefore.trans h₁)
    exact h₂.places he hc hplaces
  refine hrun.strides (fun x hx => ?_) hrest hfits
    (fun _ _ _ s _ _ => Limits.withinAt_around he s) (fun t l' v k w hd _ r hr => ?_)
    (fun log₁ m₁ log₂ t j h₁ h₂ hj => ?_) hstart
  · cases hx with
    | intro v => exact ⟨.writeVariable id v, nofun⟩
  · have hw := Run.places_of_deed he hbefore hrun.run hplaces hd
    exact Engine.within_react (fun s _ => Limits.within_keep_around s)
      (fun id' _ _ => Limits.within_write_around id') (World.ne_host_of_mem hw.sound hr) v
  · have hw := hfits log₁ m₁ log₂ h₁ h₂
    obtain ⟨r, hr, hrj, -⟩ := hj
    refine Limits.within_work_guarded (LockKey.isKept_variableWrite id)
      (hw.sound.jobs t r.standing j (congrArg (Option.map _) hr) hrj) hw ?_ Limits.within_keep_around
    rintro s input kind rfl
    exact Run.watchless he (hbefore.trans h₁) hw (LockKey.isKept_variableWrite id).ne_event t s input
      kind (by rw [World.job?, hr]; exact hrj)

/-! ## Sums -/

/-- What a lock is told of sums: those that are reached in states in which a tab has it. -/
def announced (id : String) (l : LockId) (sums : List (World × Int)) : List Json :=
  sums.filterMap fun s =>
    if l ∈ s.1.locks.acrossTabs (LockKey.variableWrite id).text then some (.num (.int s.2)) else none

theorem announced_cons (id : String) (l : LockId) (w : World) (i : Int)
    (sums : List (World × Int)) : announced id l ((w, i) :: sums) =
      (if l ∈ w.locks.acrossTabs (LockKey.variableWrite id).text then [.num (.int i)] else []) ++
        announced id l sums := by
  unfold announced
  rw [List.filterMap_cons]
  by_cases h : l ∈ w.locks.acrossTabs (LockKey.variableWrite id).text
  · simp only [h, if_true, List.singleton_append]
  · simp only [h, if_false, List.nil_append]

theorem Additions.skip (h : Additions e id past (ds ++ log) ys) (hds : ∀ d ∈ ds, ¬ d.Writes id) :
    Additions e id (past ++ ds) log ys := by
  induction ds generalizing past with
  | nil => rwa [List.append_nil]
  | cons d ds ih =>
    obtain ⟨hd, hds⟩ := List.forall_mem_cons.1 hds
    rw [List.append_cons]
    cases h with
    | add => exact absurd ⟨_, _, _, _, rfl⟩ hd
    | other _ hrest => exact ih hrest hds

/-- A write that is an addition writes the sum. -/
theorem Additions.write (he : e.HasCore) (hbefore : Cooperation e (.start capacity) past m)
    {k : Option Json → Execution Unit} (hp : m.threads[t]? = some ((writeVariable id v).bind k))
    (h : Additions e id past (.performed t ((writeVariable id v).bind k) m.world :: log) ys)
    (hi : (m.world.number id).Holds i) (hsmall : i.natAbs < 2 ^ 53) :
    ∃ n ys', ys = (m.world, n) :: ys' ∧
      ((i + n).natAbs < 2 ^ 53 → v = .num (.int (i + n))) ∧
      Additions e id (past ++ [.performed t ((writeVariable id v).bind k) m.world]) log ys' := by
  generalize hd : Deed.performed t ((writeVariable id v).bind k) m.world = d at h
  cases h with
  | @add _ _ ys' u x n v' k' w hadds hn hrest =>
    obtain ⟨rfl, hv, rfl⟩ := Deed.performed.inj hd
    obtain ⟨k₁, hsum⟩ := hadds.thread he hbefore hp
    obtain rfl := Execution.write_inj hsum
    refine ⟨n, ys', rfl, fun hlt => ?_, hd ▸ hrest⟩
    exact Json.ofDouble_of_holds (hi.add hn hsmall hlt) hlt
  | other hother => exact absurd ⟨_, _, _, _, hd.symm⟩ hother

theorem World.number_of_value {n : Int} (h : w.vars.value? id = some (.num (.int n)))
    (hlt : n.natAbs < 2 ^ 53) : (w.number id).Holds n := by
  unfold World.number
  rw [h]
  exact Double.holds_ofInt hlt

theorem World.Retains.number (h : w.Retains id w') (hv : w.vars.value? id = some v) :
    w'.number id = w.number id := by
  unfold World.number
  rw [h v hv, hv]

/-- In strides around a variable and one of its locks, integers that are added to it add up, and the
lock is told of each sum. -/
theorem Strides.sums_up (he : e.HasCore) (hstrides : Strides e (.around e l tab id) m log m')
    (hbefore : Cooperation e (.start capacity) past m)
    (hplaces : m'.world.Places e l tab (.variableWrite id)) (hunlinked : ∀ d ∈ log, d.Unlinked id)
    (hadditions : Additions e id past log ys) (hv : m.world.vars.value? id = some v)
    (hi : (m.world.number id).Holds i) (hsmall : i.natAbs < 2 ^ 53)
    (hsums : ∀ s ∈ sumsFrom i ys, s.2.natAbs < 2 ^ 53) :
    (m'.world.number id).Holds (i + added ys) ∧
      log.flatMap (Deed.tells l) = announced id l (sumsFrom i ys) := by
  induction hstrides generalizing past ys i v with
  | refl =>
    cases hadditions
    exact ⟨by simpa [added] using hi, rfl⟩
  | @plain ds log m m₁ m' hmove hbusy hplain hallows hrest ih =>
    have hbefore₁ := hbefore.trans (.single hmove hbusy)
    have hw : m.world.Places e l tab (.variableWrite id) := by
      obtain ⟨φ, ψ, hc⟩ := Conducted.run (Engine.orderly_of_core he) hbefore.run
      exact ((Run.single hmove).trans hrest.cooperation.run).places he hc hplaces
    have hleaves : ∀ d ∈ ds, d.Leaves id l := fun d hd => (hplain d hd).leaves hw
    have htells : ds.flatMap (Deed.tells l) = [] :=
      List.flatMap_eq_nil_iff.2 fun d hd => (hleaves d hd).2
    rw [List.flatMap_append, htells, List.nil_append]
    exact ih hbefore₁ hplaces (fun d hd => hunlinked d (List.mem_append_right _ hd))
      (hadditions.skip fun d hd => (hleaves d hd).1) (hallows v hv) (hallows.number hv ▸ hi) hsmall
      hsums
  | @exempt β x k t b w ds log m m' hp honly hx hthrough hrest ih =>
    cases hx with
    | intro v₁ =>
      have hstride := hthrough.cooperation hp honly
      have hbefore₁ := hbefore.trans hstride
      have hw : w.Places e l tab (.variableWrite id) := by
        obtain ⟨φ, ψ, hc⟩ := Conducted.run (Engine.orderly_of_core he) hbefore₁.run
        exact hrest.cooperation.run.places he hc hplaces
      have hfits : ∀ u p w₁, .performed u p w₁ ∈ ds → w₁.Places e l tab (.variableWrite id) :=
        fun u p w₁ hd => Run.places_of_deed he hbefore.run
          (hstride.run.trans hrest.cooperation.run) hplaces (List.mem_append_left _ hd)
      obtain ⟨rest, rfl, hwrites, hvalue, htells⟩ := Engine.Through.write hfits hw
        (fun d hd => hunlinked d (List.mem_append_left _ hd)) hthrough
      obtain ⟨n, ys, rfl, hsum, hlater⟩ := hadditions.write he hbefore hp hi hsmall
      have hlt := hsums (m.world, i + n) List.mem_cons_self
      obtain rfl := hsum hlt
      have hlater₁ := hlater.skip hwrites
      rw [List.append_assoc] at hlater₁
      obtain ⟨hnumber, hannounced⟩ := ih hbefore₁ hplaces
        (fun d hd => hunlinked d (List.mem_append_right _ hd)) hlater₁ hvalue
        (World.number_of_value hvalue hlt) hlt fun s hs => hsums s (List.mem_cons_of_mem _ hs)
      refine ⟨?_, ?_⟩
      · rwa [added, ← Int.add_assoc]
      · rw [List.flatMap_append, htells, hannounced]
        exact (announced_cons ..).symm

/-- What it comes to when integers are added to a variable: none of them is lost, each lock of the
variable is told of each sum that is reached while its tab has it, once and in this order, and nothing
comes between reading an item and writing the sum. -/
structure AddedUp (e : Engine) (id : String) (past log : List Deed) (i : Int) (ys : List (World × Int))
    (w : World) : Prop where
  number : (w.number id).Holds (i + added ys)
  told : ∀ l y, w.locks.lock? l = some y → y.key = (LockKey.variableWrite id).text →
    log.flatMap (Deed.tells l) = announced id l (sumsFrom i ys)
  atOnce : ∀ log₁ t p w log₂ x, log = log₁ ++ .performed t p w :: log₂ →
    Deed.Reads e id (past ++ log₁) t x →
      ∃ v k log₃, log₂ = .performed t ((writeVariable id v).bind k) w :: log₃

/-- Tasks of any number and any tabs add integers to a variable, in any order in which they are
interrupted only where they wait. -/
theorem Cooperation.adds_up (he : e.HasCore) (hbefore : Cooperation e (.start capacity) past m)
    (hrest : m.AtRest) (hrun : Cooperation e m log m') (hrest' : m'.AtRest)
    (hunlinked : ∀ d ∈ log, d.Unlinked id) (hadditions : Additions e id past log ys)
    (hv : m.world.vars.value? id = some v) (hi : (m.world.number id).Holds i)
    (hsmall : i.natAbs < 2 ^ 53) (hsums : ∀ s ∈ sumsFrom i ys, s.2.natAbs < 2 ^ 53) :
    AddedUp e id past log i ys m'.world := by
  have hall : ∀ l tab, (∀ y, m'.world.locks.lock? l = some y →
      y.tab = tab ∧ y.key = (LockKey.variableWrite id).text) →
        (m'.world.number id).Holds (i + added ys) ∧
          log.flatMap (Deed.tells l) = announced id l (sumsFrom i ys) := fun l tab hlock => by
    obtain ⟨φ, ψ, hc⟩ := Conducted.run (Engine.orderly_of_core he) hbefore.run
    obtain ⟨φ', ψ', hc', -⟩ := hc.extend (Engine.orderly_of_core he) hrun.run
    have hplaces' : m'.world.Places e l tab (.variableWrite id) := ⟨hc'.sound, hlock⟩
    have hplaces := hrun.run.places he hc hplaces'
    obtain ⟨-, hstart⟩ := hbefore.strides_around he .refl hrest hplaces fun t p hp => by
      change (∅ : Std.ExtTreeMap TaskId (Execution Unit))[t]? = some p at hp
      simp at hp
    obtain ⟨hstrides, -⟩ := hrun.strides_around he hbefore.run hrest' hplaces' hstart
    exact hstrides.sums_up he hbefore hplaces' hunlinked hadditions hv hi hsmall hsums
  refine ⟨(hall m'.world.locks.locks.length "" fun y hy => ?_).1, fun l y hy hkey =>
    (hall l y.tab fun y' hy' => ?_).2, fun log₁ t p w log₂ x hlog hreads => ?_⟩
  · have hnone : m'.world.locks.lock? m'.world.locks.locks.length = none :=
      List.getElem?_eq_none (Nat.le_refl _)
    cases hnone.symm.trans hy
  · obtain rfl := Option.some.inj (hy.symm.trans hy')
    exact ⟨rfl, hkey⟩
  · subst hlog
    exact hbefore.writes_at_once he hrun hrest' hreads

/-! ## Two tasks -/

namespace Script

/-- The block that a thread enters, if it changes the variable. -/
def entered? (id : String) : Execution Unit → Option Site
  | .run (.chain visited s) _ =>
    if visited.contains s.id = false ∧ s.block.opcode = ⟨"data", "changevariableby"⟩ ∧
        Library.variableId s = id then some s
    else none
  | _ => none

theorem entered?_spec {s : Site} (h : entered? id p = some s) : p.Enters s ∧
    s.block.opcode = ⟨"data", "changevariableby"⟩ ∧ Library.variableId s = id := by
  unfold entered? at h
  split at h
  · split at h
    · next hs =>
      cases h
      exact ⟨.chain hs.1, hs.2⟩
    · cases h
  · cases h

/-- The answer of an attempt that needs no step. -/
def answer? (a : Attempt α) : Option α :=
  match ExceptT.run a with
  | .done (.ok x) => some x
  | _ => none

theorem run_of_answer? {a : Attempt α} {x : α} (h : answer? a = some x) :
    ExceptT.run a = .done (.ok x) := by
  unfold answer? at h
  split at h
  · next hx => exact Option.some.inj h ▸ hx
  · cases h

/-- The item of a block that changes a variable, if a thread enters the block and the item is plain. -/
def enteredItem? (id : String) (p : Execution Unit) : Option Double :=
  (entered? id p).bind fun s => answer? (s.inputDouble engine.environment itemInput)

/-- Whether the next step does not write a variable. -/
def leavesUnset (id : String) : Execution Unit → Bool
  | .act f _ => ((f (.start 0)).vars.value? id).isNone
  | _ => true

theorem not_writes_of_leavesUnset (h : leavesUnset id p = true) :
    ¬ (Deed.performed t p w).Writes id := by
  rintro ⟨u, v, k, w', hd⟩
  obtain ⟨g, hg⟩ := Execution.writeVariable_bind id v k
  rw [(Deed.performed.inj hd).2.1, hg] at h
  have hvalue : ((World.start 0).vars.write id v).value? id = some v :=
    (Variables.value?_write ..).trans (if_pos rfl)
  cases (Option.isNone_iff_eq_none.1 h).symm.trans hvalue

/-- Whether no link to a variable is reached in a deed. -/
def noLink (id : String) : Deed → Bool
  | .performed _ (.signal l v _) w => (w.locks.deliver l v).1.2.all fun
    | .link id' _ => decide (id' ≠ id)
    | _ => true
  | _ => true

theorem unlinked_of_noLink (h : noLink id d = true) : d.Unlinked id := by
  unfold noLink at h
  split at h
  · intro b hb
    simpa using List.all_eq_true.1 h _ hb
  · next hd =>
    unfold Deed.Unlinked
    split
    · exact absurd rfl (hd _ _ _ _ _)
    · trivial

/-- The integers that are added to a variable, each two steps after a block is entered, if nobody else
writes it. -/
def additions? (id : String) : List Deed → Option (List (World × Int))
  | [] => some []
  | .dropped .. :: log => additions? id log
  | .performed t p _ :: log =>
    if leavesUnset id p then
      match enteredItem? id p, log with
      | some x, .performed t₁ q _ :: .performed t₂ _ w :: later =>
        if leavesUnset id q ∧ t₁ = t ∧ t₂ = t ∧ x.Holds (x.truncate?.getD 0) then
          (additions? id later).map ((w, x.truncate?.getD 0) :: ·)
        else none
      | _, log => additions? id log
    else none

theorem additions_of_additions? (hbefore : Cooperation engine (.start capacity) past m)
    (hrun : Cooperation engine m log m') (h : additions? id log = some ys) :
    Additions engine id past log ys := by
  have hcore : engine.HasCore := rfl
  fun_induction additions? id log generalizing past m ys with
  | case1 =>
    cases h
    exact .nil
  | case2 t w log ih =>
    obtain ⟨-, m₁, -, -, hpast, hlog⟩ := hbefore.next hrun
    exact .other nofun (ih hpast hlog h)
  | case3 t p w hp x t₁ q w₁ t₂ r w₂ later hitem hnext ih =>
    obtain ⟨hq, rfl, rfl, hx⟩ := hnext
    obtain ⟨ys, hlater, rfl⟩ := Option.map_eq_some_iff.1 h
    obtain ⟨s, hs, hanswer⟩ := Option.bind_eq_some_iff.1 hitem
    obtain ⟨henters, ho, hid⟩ := entered?_spec hs
    obtain ⟨-, m₁, -, -, hpast₁, hlog₁⟩ := hbefore.next hrun
    obtain ⟨-, m₂, -, -, hpast₂, hlog₂⟩ := hpast₁.next hlog₁
    obtain ⟨m₃, m₄, hpast₃, hmove, hpast₄, hlog₃⟩ := hpast₂.next hlog₂
    have hreads : Deed.Reads engine id (past ++ [.performed t₂ p w]) t₂ x :=
      ⟨past, p, w, s, [], rfl, henters, ho, hid, congrArg some (run_of_answer? hanswer)⟩
    have hadds : Deed.Adds engine id (past ++ [.performed t₂ p w] ++ [.performed t₂ q w₁]) t₂ x :=
      ⟨_, q, w₁, [], rfl, hreads, rfl⟩
    obtain ⟨k, rfl⟩ := hadds.thread hcore hpast₃ (hmove.of_performed (List.mem_singleton_self _)).1
    exact .other (not_writes_of_leavesUnset hp) (.other (not_writes_of_leavesUnset hq)
      (.add hadds hx (ih hpast₄ hlog₃ hlater)))
  | case4 | case6 => cases h
  | case5 t p w hp log _ ih =>
    obtain ⟨-, m₁, -, -, hpast, hlog⟩ := hbefore.next hrun
    exact .other (not_writes_of_leavesUnset hp) (ih hpast hlog h)

/-- A tab with a variable, a hat that listens to it, and roots that change it. -/
def adding (initial : String) (items : List (String × String)) : String :=
  let field := "\"topLevel\":true,\"fields\":\x7b\"VARIABLE\":[\"v\",\"v1\"]\x7d"
  let adds (item : String × String) := block item.1 "data_changevariableby"
    (field ++ ",\"inputs\":\x7b\"ITEM\":[1,[4," ++ item.2 ++ "]]\x7d")
  "\x7b\"target\":\x7b\"variables\":\x7b\"v1\":[\"v\"," ++ initial ++ "]\x7d,\"blocks\":\x7b" ++
    ",".intercalate (block "h" "data_onchange_variable" field :: items.map adds) ++ "\x7d\x7d\x7d"

/-- The tab has been saved and its hat listens. -/
def untilAdding (content : String) : List Line :=
  [.call 0 (.save "a" content), .perform 0 100, .begin 1, .perform 1 100, .finish 1, .perform 0 100,
    .return 0]

/-- Whether the variable has an integer value. -/
def hasInteger (i : Int) (w : World) : Bool :=
  match w.vars.value? "v1" with
  | some (.num (.int n)) => decide (n = i)
  | _ => false

theorem value_of_hasInteger (h : hasInteger i w = true) :
    w.vars.value? "v1" = some (.num (.int i)) := by
  unfold hasInteger at h
  split at h
  · next hv => rw [hv, of_decide_eq_true h]
  · cases h

/-- Whether no link to the variable is reached, these integers are added to it, and its first lock is
told of these values. -/
def adds (is : List Int) (told : List String) (log : List Deed) : Bool :=
  log.all (noLink "v1") && (additions? "v1" log).any (fun ys => decide (ys.map (·.2) = is)) &&
    decide ((log.flatMap (Deed.tells 0)).map Json.text = told)

theorem adds_spec {is : List Int} {told : List String} (h : adds is told log = true)
    (hbefore : Cooperation engine (.start capacity) past m) (hrun : Cooperation engine m log m') :
    (∀ d ∈ log, d.Unlinked "v1") ∧ (∃ ys, Additions engine "v1" past log ys ∧ ys.map (·.2) = is) ∧
      (log.flatMap (Deed.tells 0)).map Json.text = told := by
  obtain ⟨h, htold⟩ := Bool.and_eq_true_iff.1 h
  obtain ⟨hlinks, h⟩ := Bool.and_eq_true_iff.1 h
  obtain ⟨ys, hys, his⟩ := (Option.any_eq_true _ _).1 h
  exact ⟨fun d hd => unlinked_of_noLink (List.all_eq_true.1 hlinks d hd),
    ⟨ys, additions_of_additions? hbefore hrun hys, of_decide_eq_true his⟩, of_decide_eq_true htold⟩

/-- The two roots that change the variable, one after the other. -/
def bothRoots : List Line :=
  [.begin 2, .perform 2 100, .finish 2, .begin 3, .perform 3 100, .finish 3]

/-- Whether the variable has a value, and so much is added to it then. -/
def goesOn (ls : List Line) (i : Int) (f : List Deed → Machine → Bool) (m : Machine) : Bool :=
  hasInteger i m.world && (m.playInTurn engine ls).any fun r => r.2.restsBut none && f r.1 r.2

end Script

/-- Two tasks add to a variable, which a hat listens to. -/
theorem adds_up_of_two_tasks : ∃ (past log : List Deed) (m' : Machine) (ys : List (World × Int)),
    AddedUp Script.engine "v1" past log 5 ys m'.world ∧ ys.map (·.2) = [3, 4] ∧
      (log.flatMap (Deed.tells 0)).map Json.text = ["8", "12"] := by
  obtain ⟨past, m, hbefore, hrest, hf⟩ := Cooperation.of_playInTurn_any (e := Script.engine)
    (m := .start 10) (Script.untilAdding (Script.adding "5" [("a", "3"), ("b", "4")]))
    (f := fun _ => Script.goesOn Script.bothRoots 5 fun log _ => Script.adds [3, 4] ["8", "12"] log)
    (by decide +kernel)
  obtain ⟨hvalue, hplay⟩ := Bool.and_eq_true_iff.1 hf
  obtain ⟨log, m', hrun, hrest', hadds⟩ := Cooperation.of_playInTurn_any _
    (f := fun log _ => Script.adds [3, 4] ["8", "12"] log) hplay
  have hinitial := Script.value_of_hasInteger hvalue
  obtain ⟨hunlinked, ⟨ys, hadditions, hys⟩, htold⟩ := Script.adds_spec hadds hbefore hrun
  refine ⟨past, log, m', ys, Cooperation.adds_up (e := Script.engine) rfl hbefore hrest hrun hrest'
    hunlinked hadditions hinitial (World.number_of_value hinitial (by decide)) (by decide) ?_, hys,
    htold⟩
  obtain ⟨y, ys, rfl, hy, hys⟩ := List.map_eq_cons_iff.1 hys
  obtain ⟨y', ys, rfl, hy', hys⟩ := List.map_eq_cons_iff.1 hys
  obtain rfl := List.map_eq_nil_iff.1 hys
  simp [sumsFrom, hy, hy']

namespace Script

/-- The root that changes the variable, alone. -/
def oneRoot : List Line := [.begin 2, .perform 2 100, .finish 2]

/-- Whether a task first enters a block with a text as its item. -/
def entersWith (item : String) : List Deed → Bool
  | .performed _ p _ :: _ => (entered? "v1" p).any fun (s : Site) =>
    decide (answer? (s.inputText engine.environment itemInput) = some item)
  | _ => false

theorem entersWith_spec {item : String} (h : entersWith item log = true) : ∃ t p w later s,
    log = .performed t p w :: later ∧ p.Enters s ∧ s.block.opcode = ⟨"data", "changevariableby"⟩ ∧
      Library.variableId s = "v1" ∧
        ExceptT.run (s.inputText engine.environment itemInput) = .done (.ok item) := by
  unfold entersWith at h
  split at h
  · next t p w later =>
    obtain ⟨s, hs, hitem⟩ := (Option.any_eq_true _ _).1 h
    obtain ⟨henters, ho, hid⟩ := entered?_spec hs
    exact ⟨t, p, w, later, s, rfl, henters, ho, hid, run_of_answer? (of_decide_eq_true hitem)⟩
  · cases h

end Script

/-- An integer that no double holds is not added as it is: one task adds `2 ^ 53 + 1`. -/
theorem rounded_item_added : ∃ (past log : List Deed) (m m' : Machine) (ys : List (World × Int)),
    Cooperation Script.engine (.start 10) past m ∧ m.AtRest ∧
      Cooperation Script.engine m log m' ∧ m'.AtRest ∧ (∀ d ∈ log, d.Unlinked "v1") ∧
        (Additions Script.engine "v1" past log ys ∧ ys.length = 1) ∧
          (∃ t p w later s, log = .performed t p w :: later ∧ p.Enters s ∧
            s.block.opcode = ⟨"data", "changevariableby"⟩ ∧ Library.variableId s = "v1" ∧
              ExceptT.run (s.inputText Script.engine.environment itemInput) =
                .done (.ok "9007199254740993")) ∧
            m.world.vars.value? "v1" = some (.num (.int (-10))) ∧
              (-10 + 9007199254740993 : Int).natAbs < 2 ^ 53 ∧
                m'.world.vars.value? "v1" ≠ some (.num (.int (-10 + 9007199254740993))) := by
  obtain ⟨past, m, hbefore, hrest, hf⟩ := Cooperation.of_playInTurn_any (e := Script.engine)
    (m := .start 10) (Script.untilAdding (Script.adding "-10" [("a", "9007199254740993")]))
    (f := fun _ => Script.goesOn Script.oneRoot (-10) fun log m' =>
      Script.adds [2 ^ 53] ["9007199254740982"] log && Script.entersWith "9007199254740993" log &&
        Script.hasInteger (-10 + 2 ^ 53) m'.world) (by decide +kernel)
  obtain ⟨hvalue, hplay⟩ := Bool.and_eq_true_iff.1 hf
  obtain ⟨log, m', hrun, hrest', hf⟩ := Cooperation.of_playInTurn_any _
    (f := fun log m' => Script.adds [2 ^ 53] ["9007199254740982"] log &&
      Script.entersWith "9007199254740993" log && Script.hasInteger (-10 + 2 ^ 53) m'.world) hplay
  obtain ⟨hf, hvalue'⟩ := Bool.and_eq_true_iff.1 hf
  obtain ⟨hadds, henters⟩ := Bool.and_eq_true_iff.1 hf
  obtain ⟨hunlinked, ⟨ys, hadditions, hys⟩, -⟩ := Script.adds_spec hadds hbefore hrun
  refine ⟨past, log, m, m', ys, hbefore, hrest, hrun, hrest', hunlinked, ⟨hadditions, ?_⟩,
    Script.entersWith_spec henters, Script.value_of_hasInteger hvalue, by decide, fun h => ?_⟩
  · simpa using congrArg List.length hys
  · rw [Script.value_of_hasInteger hvalue'] at h
    cases h

end BlockEngine
