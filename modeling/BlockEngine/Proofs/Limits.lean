import BlockEngine.Proofs.Callers
import BlockEngine.Proofs.Registration

/-!
# Limits on what executions do

Most of what blocks do is the same for all of them: they look at the state, obtain locks, wait and
start tasks. Some blocks do more: they write a variable, listen to a lock, signal one.

* `Limits` : the changes allowed, the locks that may be signalled, the routines that may be run;
* `Execution.Within` : an execution that stays within limits in all states that fit;
* `BlockLimits` : limits that allow what every block does; one lemma for each such step;
* `Limits.Suits` : limits that allow what is particular to the block of a site;
* `Library.within_of_core` : then what the core library does for the site is within them;
* `Execution.Within.step` : a step is allowed, and what it leaves is within the limits again.
-/

namespace BlockEngine

variable {α β : Type}

/-! ## Limits -/

/-- Limits for the steps of executions. -/
structure Limits where
  /-- The states they are about. -/
  Fits : World → Prop
  Allows : World → World → Prop
  Signals : LockId → Prop
  Evaluates : Site → Prop
  Runs : Routine → Prop
  /-- Parts of an execution that are not held to any of this. -/
  Exempts : ∀ {β : Type}, Execution β → Prop

/-- Every change an execution makes in a state that fits is allowed, and so are the locks it signals
and the routines it runs; and its answer is as stated. What it evaluates and runs, and the reactions
to what it signals, have limits of their own. -/
inductive Execution.Leads (L : Limits) (Q : α → Prop) : Execution α → Prop
  | ends {a : α} : Q a → Leads L Q (.done a)
  | act {f : World → World} {k : World → Execution α} :
      (∀ w, L.Fits w → L.Fits (f w) → L.Allows w (f w)) →
      (∀ w, L.Fits w → L.Fits (f w) → Leads L Q (k w)) → Leads L Q (.act f k)
  | pause {c : Pause} {k : c.Reply → Execution α} :
      (∀ r, Leads L Q (k r)) → Leads L Q (.pause c k)
  | signal {l : LockId} {v : Json} {k : Nat → Execution α} :
      L.Signals l → (∀ n, Leads L Q (k n)) → Leads L Q (.signal l v k)
  | evaluate {s : Site} {k : Except EngineError Json → Execution α} :
      L.Evaluates s → (∀ r, Leads L Q (k r)) → Leads L Q (.evaluate s k)
  | run {r : Routine} {k : Except EngineError Signal → Execution α} :
      L.Runs r → (∀ x, Leads L Q (k x)) → Leads L Q (.run r k)
  | exempt {β : Type} {p : Execution β} {k : β → Execution α} :
      L.Exempts p → (∀ b, Leads L Q (k b)) → Leads L Q (p.bind k)

/-- An execution that stays within limits, whatever it answers. -/
abbrev Execution.Within (L : Limits) (p : Execution α) : Prop := p.Leads L fun _ => True

theorem Execution.Leads.done {L : Limits} (a : α) : (Execution.done a).Within L := .ends trivial

theorem Execution.Leads.bind {L : Limits} {Q : α → Prop} {Q' : β → Prop} {p : Execution α}
    {k : α → Execution β} (h : p.Leads L Q) (hk : ∀ a, Q a → (k a).Leads L Q') :
    (p.bind k).Leads L Q' := by
  induction h with
  | ends ha => exact hk _ ha
  | act hf _ ih => exact .act hf ih
  | pause _ ih => exact .pause ih
  | signal hl _ ih => exact .signal hl ih
  | evaluate hs _ ih => exact .evaluate hs ih
  | run hr _ ih => exact .run hr ih
  | exempt hp _ ih =>
    rw [Execution.bind_assoc]
    exact .exempt hp ih

theorem Execution.Leads.within {L : Limits} {Q : α → Prop} {p : Execution α} (h : p.Leads L Q) :
    p.Within L := by
  rw [← p.bind_done]
  exact h.bind fun a _ => .done a

/-- An attempt, or a request, that stays within limits. -/
def Attempt.Within {ε : Type} (L : Limits) (a : ExceptT ε Execution α) : Prop :=
  Execution.Within L (ExceptT.run a)

namespace Execution.Within

variable {L : Limits} {p : Execution α} {k : α → Execution β}

theorem bind (h : p.Within L) (hk : ∀ a, (k a).Within L) : (p.bind k).Within L :=
  Leads.bind h fun a _ => hk a

/-- What is exempt as a whole. -/
theorem of_exempt (h : L.Exempts p) : p.Within L := by
  rw [← p.bind_done]
  exact .exempt h .done

theorem change {f : World → World} (h : ∀ w, L.Fits w → L.Fits (f w) → L.Allows w (f w)) :
    (Execution.change f).Within L := .act h fun _ _ _ => .done ()

theorem atomically {f : World → α × World}
    (h : ∀ w, L.Fits w → L.Fits (f w).2 → L.Allows w (f w).2) :
    (Execution.atomically f).Within L := .act h fun _ _ _ => .done _

theorem signalLock {l : LockId} (h : L.Signals l) (v : Json) : (signalLock l v).Within L :=
  .signal h .done

theorem signalLocks {ls : List LockId} (h : ∀ l ∈ ls, L.Signals l) (v : Json) :
    (signalLocks v ls).Within L := by
  induction ls with
  | nil => exact .done ()
  | cons l ls ih =>
    exact (signalLock (h l List.mem_cons_self) v).bind fun _ =>
      ih fun l' hl' => h l' (List.mem_cons_of_mem _ hl')

end Execution.Within

namespace Attempt.Within

variable {L : Limits} {ε : Type} {a : ExceptT ε Execution α}

theorem pure (x : α) : Within L (pure x : ExceptT ε Execution α) := .done _

theorem throw (err : ε) : Within L (throw err : ExceptT ε Execution α) := .done _

theorem ofExcept (x : Except EngineError α) : Within L (Attempt.ofExcept x) := .done _

theorem bind (h : Within L a) {k : α → ExceptT ε Execution β} (hk : ∀ x, Within L (k x)) :
    Within L (a >>= k) := by
  refine Execution.Within.bind h fun r => ?_
  cases r with
  | ok x => exact hk x
  | error err => exact .done _

theorem lift {p : Execution α} (h : p.Within L) :
    Within L (monadLift p : ExceptT ε Execution α) :=
  Execution.Within.bind h fun _ => .done _

theorem annotated (s : Site) {a : Attempt α} (h : Within L a) :
    Within L (Attempt.annotated s a) :=
  Execution.Within.bind h fun _ => .done _

theorem evaluate {s : Site} (h : L.Evaluates s) : Within L (Attempt.evaluate s) :=
  Execution.Leads.evaluate h .done

theorem routine {r : Routine} (h : L.Runs r) : Within L (Attempt.routine r) :=
  Execution.Leads.run h .done

/-- A state is looked at, and what follows is within the limits as far as that state fits. -/
theorem act {f : World → α × World} (hf : ∀ w, L.Fits w → L.Fits (f w).2 → L.Allows w (f w).2)
    {k : α → ExceptT ε Execution β}
    (hk : ∀ w, L.Fits w → L.Fits (f w).2 → Within L (k (f w).1)) :
    Within L ((monadLift (Execution.atomically f) : ExceptT ε Execution α) >>= k) :=
  Execution.Leads.act hf hk

end Attempt.Within

/-! ## Limits that allow what every block does -/

/-- Whether a routine is the look of a watcher at its input. -/
def Routine.isWatch : Routine → Bool
  | .watch .. => true
  | _ => false

/-- Whether a job is that of a watcher. -/
def Job.isWatch : Job → Bool
  | .watch .. => true
  | _ => false

/-- Limits that allow what blocks and callers have in common: they draw numbers, store values, start
tasks, end them and tell the person who runs the engine. -/
class BasicLimits (L : Limits) : Prop where
  refl (w : World) : L.Allows w w
  trans {w₁ w₂ w₃ : World} : L.Allows w₁ w₂ → L.Allows w₂ w₃ → L.Allows w₁ w₃
  fresh (w : World) : L.Allows w w.fresh.2
  modifyGeneration (w : World) (n : Nat) (f : GenerationState → GenerationState) :
    L.Allows w (w.modifyGeneration n f)
  newTask (w : World) {j : Job} : j.isWatch = false → L.Allows w (w.newTask j).2
  wake (w : World) (t : TaskId) : L.Allows w (w.wake t)
  /-- A task is queued, asked to end or observed. -/
  modifyTask (w : World) (t : TaskId) (f : TaskRecord → TaskRecord) :
    (∀ r, (f r).job = r.job ∧ (f r).ended = r.ended) → L.Allows w (w.modifyTask t f)
  notifications (w : World) (ns : Notifications) : L.Allows w { w with notifications := ns }

/-- Limits that allow whatever every block may do: it takes part in locks, evaluates blocks and runs
all but watchers. -/
class BlockLimits (L : Limits) : Prop extends BasicLimits L where
  obtain (w : World) (tab owner key : String) :
    L.Allows w (w.withLocks (·.obtain tab owner key)).2
  register (w : World) (l : LockId) (f : SignalFilter) :
    L.Allows w (w.withLocks (·.register l f)).2
  close (w : World) (m : MailboxId) : L.Allows w { w with locks := w.locks.close m }
  deliver (w : World) (l : LockId) (v : Json) : L.Allows w (w.withLocks (·.deliver l v)).2
  /-- A pause is answered. -/
  settle (w : World) (t : TaskId) (p : Pause) : L.Allows w (w.settle t p)
  evaluates (s : Site) : L.Evaluates s
  runs {r : Routine} : r.isWatch = false → L.Runs r
  /-- A watcher signals its lock and goes on. -/
  watches {s : Site} {l : LockId} {input : String} {kind : WatchKind} {last : Option Json} :
    L.Runs (.watch s l input kind last) →
      L.Signals l ∧ ∀ last, L.Runs (.watch s l input kind last)

namespace BasicLimits

variable {L : Limits} [BasicLimits L]

theorem spawn (w : World) (n : Nat) (d : String) (c : Context) {j : Job}
    (hj : j.isWatch = false) : L.Allows w (w.spawn n d c j).2 := by
  unfold World.spawn
  split
  · exact refl w
  · exact trans (newTask w hj) (modifyGeneration ..)

theorem wakeAll (w : World) (ts : List TaskId) : L.Allows w (w.wakeAll ts) := by
  unfold World.wakeAll
  induction ts generalizing w with
  | nil => exact refl w
  | cons t ts ih => exact trans (wake w t) (ih _)

theorem cancel (w : World) (t : TaskId) : L.Allows w (w.cancel t) := by
  unfold World.cancel
  split
  · exact refl w
  · have h := modifyTask (L := L) w t (fun r => { r with cancelled := true }) fun _ => ⟨rfl, rfl⟩
    exact trans h (wake ..)

theorem cancelAll (w : World) (ts : List TaskId) : L.Allows w (ts.foldl World.cancel w) := by
  induction ts generalizing w with
  | nil => exact refl w
  | cons t ts ih => exact trans (cancel w t) (ih _)

end BasicLimits

theorem BlockLimits.deliverTo {L : Limits} [BlockLimits L] (w : World) (l : LockId) (v : Json) :
    L.Allows w (w.deliver l v).2 :=
  have h : L.Allows w (w.withLocks (·.deliver l v)).2 := deliver w l v
  BasicLimits.trans h (BasicLimits.wakeAll _ _)

/-- All locks under a key may be signalled. -/
structure Limits.Opens (L : Limits) (key : LockKey) : Prop where
  found : ∀ (w : World) tab l, L.Fits w → w.locks.find? tab key.text = some l → L.Signals l
  across : ∀ (w : World) l, L.Fits w → l ∈ w.locks.acrossTabs key.text → L.Signals l
  obtained : ∀ (w : World) tab owner, L.Fits w →
    L.Fits (w.withLocks (·.obtain tab owner key.text)).2 →
    L.Signals (w.withLocks (·.obtain tab owner key.text)).1

section

variable {L : Limits} [BasicLimits L]

namespace Execution.Within

theorem look : look.Within L := .act (fun w _ _ => BasicLimits.refl w) fun _ _ _ => .done _

theorem look_bind {k : World → Execution α} (hk : ∀ w, L.Fits w → (k w).Within L) :
    (Execution.look.bind k).Within L :=
  .act (fun w _ _ => BasicLimits.refl w) fun w hw _ => hk w hw

theorem sleep (n : Nat) : (sleep n).Within L := look_bind fun _ _ => .pause .done

theorem receive (m : MailboxId) (limit : Option Nat) : (receive m limit).Within L := by
  cases limit with
  | none => exact .pause .done
  | some ms => exact look_bind fun _ _ => .pause .done

theorem signalKey (tab : String) {key : LockKey} (h : L.Opens key) (v : Json) :
    (signalKey tab key.text v).Within L := by
  refine look_bind fun w hw => ?_
  split
  · next l hl => exact (signalLock (h.found w tab l hw hl) v).bind fun _ => .done _
  · exact .done _

theorem signalAllTabs {key : LockKey} (h : L.Opens key) (v : Json) :
    (signalAllTabs key.text v).Within L :=
  look_bind fun w hw => (signalLocks (fun l hl => h.across w l hw hl) v).bind fun _ => .done _

theorem storeValue (n : Nat) (block key : String) (v : Json) :
    (Execution.change fun w => w.storeValue n block key v).Within L :=
  change fun w _ _ => BasicLimits.modifyGeneration w ..

/-- Under any other name than that of the last result, nobody is told. -/
theorem setValue_of_ne (g : Generation) (block : String) {key : String} (hkey : key ≠ valueKey)
    (v : Json) : (setValue g block key v).Within L := by
  refine (storeValue g.number block key v).bind fun _ => ?_
  rw [if_neg hkey]
  exact .done ()

theorem setValue (g : Generation) {block : String} (h : L.Opens (.value block)) (key : String)
    (v : Json) : (setValue g block key v).Within L := by
  refine (storeValue g.number block key v).bind fun _ => ?_
  split
  · exact (signalKey g.tab h v).bind fun _ => .done _
  · exact .done ()

theorem writeVariable {id : String} (h : L.Opens (.variableWrite id))
    (hw : ∀ w v, L.Allows w { w with vars := w.vars.write id v }) (v : Json) :
    (writeVariable id v).Within L :=
  bind (atomically fun w _ _ => hw w v) fun _ => (signalAllTabs h v).bind fun _ => .done _

theorem spawn (s : Site) (c : Context) {j : Job} (hj : j.isWatch = false) :
    (spawn s c j).Within L := atomically fun w _ _ => BasicLimits.spawn w _ _ _ hj

theorem spawnIn (s : Site) {j : Context → Job} (hj : ∀ c, (j c).isWatch = false) :
    (spawnIn s j).Within L := atomically fun w _ _ =>
  BasicLimits.trans (BasicLimits.fresh w) (BasicLimits.spawn _ _ _ _ (hj _))

theorem spawnNext (limit : Nat) (s : Site) : (spawnNext limit s).Within L := by
  unfold Execution.spawnNext
  split
  · exact .done _
  · exact spawnIn s fun _ => rfl

theorem spawnChain (s chain : Site) : (spawnChain s chain).Within L := spawnIn s fun _ => rfl

theorem draw : draw.Within L := atomically fun w _ _ => BasicLimits.fresh w

end Execution.Within

namespace Attempt.Within

theorem look {k : World → Attempt α} (hk : ∀ w, L.Fits w → Within L (k w)) :
    Within L ((monadLift Execution.look : Attempt World) >>= k) :=
  Execution.Leads.act (fun w _ _ => BasicLimits.refl w) fun w hw _ => hk w hw

theorem conclude (s : Site) {a : Attempt Signal} (h : Within L a) :
    (Attempt.conclude s a).Within L := by
  refine Execution.Within.bind h fun r => ?_
  cases r with
  | ok x => exact .done _
  | error err =>
    refine .change fun w _ _ => ?_
    unfold World.report
    split
    · exact BasicLimits.refl w
    · exact BasicLimits.notifications w _

end Attempt.Within

end

section

variable {L : Limits} [BlockLimits L]

namespace Execution.Within

theorem awaitSignal (l : LockId) (ms : Nat) : (awaitSignal l ms).Within L :=
  .act (fun w _ _ => BlockLimits.register w l .all) fun _ _ _ => .pause .done

theorem obtainLock (s : Site) (key : LockKey) : (obtainLock s key).Within L :=
  atomically fun w _ _ => BlockLimits.obtain w ..

end Execution.Within

namespace Attempt.Within

theorem handle (s : Site) : Within L (Attempt.handle s) := routine (BlockLimits.runs rfl)

theorem obtainLock (s : Site) (key : LockKey) {k : LockId → Attempt α}
    (hk : ∀ w, L.Fits w → L.Fits (w.withLocks (·.obtain s.tab s.id key.text)).2 →
      Within L (k (w.withLocks (·.obtain s.tab s.id key.text)).1)) :
    Within L ((monadLift (Execution.obtainLock s key) : Attempt LockId) >>= k) :=
  act (fun w _ _ => BlockLimits.obtain w ..) hk

/-! ### Inputs -/

variable (env : Environment) (s : Site)

theorem input (key : String) (mode : ReadMode) : Within L (s.input env key mode) := by
  refine bind (ofExcept _) fun i => ?_
  simp only
  split
  · exact pure _
  · exact pure _
  · exact bind (ofExcept _) fun _ => evaluate (BlockLimits.evaluates _)
  · exact pure _
  · split
    · exact pure _
    · refine look fun w _ => ?_
      split
      · exact throw _
      · exact pure _

theorem inputValue (key : String) : Within L (s.inputValue env key) := input env s key .value

theorem inputText (key : String) : Within L (s.inputText env key) :=
  bind (inputValue env s key) fun _ => pure _

theorem inputDouble (key : String) : Within L (s.inputDouble env key) := by
  refine bind (inputValue env s key) fun v => ?_
  split
  · exact pure _
  · exact throw _

theorem inputInt (key : String) : Within L (s.inputInt env key) :=
  bind (inputDouble env s key) fun _ => pure _

theorem inputBool (key : String) : Within L (s.inputBool env key) := by
  unfold Site.inputBool
  split
  · exact bind (inputValue env s key) fun _ => pure _
  · exact pure _

theorem handleInput (key : String) : Within L (s.handleInput env key) := by
  refine bind (ofExcept _) fun b => ?_
  split
  · exact handle _
  · exact pure _

end Attempt.Within

end

/-! ## What is particular to a block -/

namespace Library

/-- Add a number to a variable; one that holds no number counts as zero. -/
def addTo (id : String) (x : Double) : Execution Unit := do
  let w ← Execution.look
  let current := ((w.vars.value? id).bind Json.toDouble?).getD Double.zero
  let _ ← Execution.writeVariable id (.ofDouble (current.add x))

/-- To change a variable is to read the item, then to add it. -/
theorem changeVariable_eq (env : Environment) (s : Site) : changeVariable env s = do
    let x ← s.inputDouble env itemInput
    monadLift (addTo (variableId s) x)
    return Signal.proceed := by
  simp only [changeVariable, addTo, monadLift_bind, bind_assoc, monadLift_pure, pure_bind]

/-- What a block with an opcode listens to, and what it does then. -/
inductive Listens (s : Site) (o : Opcode) : LockKey → Reaction → Prop
  | gotBroadcast : o = ⟨"event", "gotbroadcast"⟩ →
      Listens s o (.broadcast (s.block.fieldRef "BROADCAST_OPTION")) (.start s)
  | onChange : o = ⟨"data", "onchange_variable"⟩ →
      Listens s o (.variableWrite (variableId s)) (.keepAndStart s)
  | onChangeTo (operator : ChangeOperator) : o = ⟨"data", "onchange_variable_to"⟩ →
      Listens s o (.variableWrite (variableId s)) (.keepAndStartIf s operator)
  | valueLink (source : String) : o = ⟨"data", "group_variable_link"⟩ →
      Listens s o (.value source) (.link (s.block.fieldRef "group_variables_group") false)
  | truthLink (source : String) : o = ⟨"data", "boolean_link"⟩ →
      Listens s o (.value source) (.link (s.block.fieldRef "bool_variables_group") true)
  | definition (signature : String) (arguments : List (String × String)) (returns : LockId) :
      o = ⟨"procedures", "definition"⟩ →
      Listens s o (.procedure signature) (.runBody s arguments returns)
  | valueWatch (body : Site) : o = ⟨"control", "when_value_changed"⟩ →
      Listens s o (.event s.id) (.keepAndRun s body)
  | conditionWatch (body : Site) : o = ⟨"control", "when_condition_changed"⟩ →
      Listens s o (.event s.id) (.keepAndRun s body)

/-- What a watcher with an opcode looks at. -/
inductive Watches (o : Opcode) : String → WatchKind → Prop
  | value : o = ⟨"control", "when_value_changed"⟩ → Watches o "VALUE" .value
  | condition : o = ⟨"control", "when_condition_changed"⟩ →
      Watches o conditionInput .condition

theorem Watches.listens {o : Opcode} {input : String} {kind : WatchKind}
    (h : Watches o input kind) (s body : Site) : Listens s o (.event s.id) (.keepAndRun s body) := by
  cases h with
  | value ho => exact .valueWatch body ho
  | condition ho => exact .conditionWatch body ho

end Library

/-- Limits that allow what is particular to a block with an opcode: that its result is stored, that it
writes its variable, listens, signals its lock or starts to watch. -/
structure Limits.Suits (L : Limits) (s : Site) (o : Opcode) : Prop where
  keeps : ∀ v, (Engine.keep s valueKey v).Within L
  sets : o = ⟨"data", "setvariableto"⟩ →
    ∀ v, (Execution.writeVariable (Library.variableId s) v).Within L
  adds : o = ⟨"data", "changevariableby"⟩ →
    ∀ x, (Library.addTo (Library.variableId s) x).Within L
  listens : ∀ key r, Library.Listens s o key r → ∀ w, L.Fits w →
    L.Fits (w.withLocks (·.obtain s.tab s.id key.text)).2 →
    (Execution.listen s (w.withLocks (·.obtain s.tab s.id key.text)).1 r).Within L
  sends : o = ⟨"event", "broadcast"⟩ → ∀ message, L.Opens (.broadcast message)
  calls : o = ⟨"procedures", "call"⟩ → ∀ signature, L.Opens (.procedure signature)
  watches : ∀ input kind, Library.Watches o input kind → ∀ w, L.Fits w →
    L.Fits (w.withLocks (·.obtain s.tab s.id (LockKey.event s.id).text)).2 →
    (Execution.spawnIn s fun _ => .watch s
      (w.withLocks (·.obtain s.tab s.id (LockKey.event s.id).text)).1 input kind).Within L

/-! ## The core library -/

/-- What a registered block does for a site is within limits. -/
def Behaviour.WithinAt (L : Limits) (env : Environment) (s : Site) :
    Behaviour StatementHandler ExpressionHandler → Prop
  | .command run | .hat run => Attempt.Within L (run env s)
  | .reporter run => Attempt.Within L (run env s)

namespace Library

open Attempt.Within (pure throw ofExcept bind lift evaluate routine look obtainLock input inputValue
  inputText inputDouble inputInt inputBool handleInput)

variable {L : Limits} {o : Opcode} (env : Environment) (s : Site)

/-! ### Control -/

theorem within_withBody {k : Site → Attempt Signal} (hk : ∀ body, Attempt.Within L (k body)) :
    Attempt.Within L (withBody env s k) := by
  refine bind (ofExcept _) fun b => ?_
  split
  · exact hk _
  · exact pure _

variable [BlockLimits L]

theorem within_inputDuration (key : String) : Attempt.Within L (inputDuration env s key) := by
  refine bind (inputInt env s key) fun amount => ?_
  simp only
  split
  · exact pure _
  · exact throw _

theorem within_runLoop (body : Site) (interval : Nat) (rule : LoopRule) :
    Attempt.Within L (runLoop env s body interval rule) := routine (BlockLimits.runs rfl)

theorem within_forever : Attempt.Within L (forever env s) :=
  within_withBody env s fun body => within_runLoop env s body _ _

theorem within_repeatTimes : Attempt.Within L (repeatTimes env s) :=
  within_withBody env s fun body => bind (inputInt env s _) fun n => by
    split
    · exact pure _
    · exact within_runLoop env s body _ _

theorem within_repeatWhile : Attempt.Within L (repeatWhile env s) :=
  within_withBody env s fun body => by
    split
    · exact within_runLoop env s body _ _
    · exact pure _

theorem within_schedule : Attempt.Within L (schedule env s) :=
  within_withBody env s fun body => bind (within_inputDuration env s _) fun _ =>
    within_runLoop env s body _ _

theorem within_ifThen : Attempt.Within L (ifThen env s) :=
  bind (inputBool env s _) fun holds => by
    split
    · exact handleInput env s _
    · exact pure _

theorem within_ifElse : Attempt.Within L (ifElse env s) :=
  bind (inputBool env s _) fun _ => handleInput env s _

theorem within_wait : Attempt.Within L (wait env s) :=
  bind (inputInt env s _) fun seconds => by
    split
    · exact throw _
    · exact bind (lift (.sleep _)) fun _ => pure _

theorem within_waitUntil : Attempt.Within L (waitUntil env s) :=
  bind (lift (.obtainLock s _)) fun _ => routine (BlockLimits.runs rfl)

theorem within_stopTimeout : Attempt.Within L (stopTimeout env s) :=
  bind (within_inputDuration env s _) fun _ =>
    bind (lift (.spawnIn s fun _ => rfl)) fun _ => pure _

theorem within_watchInput {s : Site} (hs : L.Suits s o) {key : String}
    {kind : WatchKind} (h : Watches o key kind) : Attempt.Within L (watchInput key kind env s) :=
  within_withBody env s fun body => by
    split
    · exact obtainLock s _ fun w hw hw' =>
        bind (lift (hs.listens _ _ (h.listens s body) w hw hw')) fun _ =>
          bind (lift (hs.watches _ _ h w hw hw')) fun _ => pure _
    · exact pure _

/-! ### Variables, broadcasts and texts -/

theorem within_readVariable : Attempt.Within L (readVariable env s) := look fun _ _ => pure _

theorem within_readKept : Attempt.Within L (readKept env s) := look fun _ _ => by
  cases s.parent? env.settings.maxDepth <;> exact pure _

variable {s}

theorem within_setVariable (hs : L.Suits s o)
    (ho : o = ⟨"data", "setvariableto"⟩) : Attempt.Within L (setVariable env s) :=
  bind (inputValue env s _) fun item => by
    split
    · exact bind (lift (hs.sets ho item)) fun _ => pure _
    · exact pure _

theorem within_changeVariable (hs : L.Suits s o)
    (ho : o = ⟨"data", "changevariableby"⟩) :
    Attempt.Within L (changeVariable env s) := by
  rw [changeVariable_eq]
  exact bind (inputDouble env s _) fun x => bind (lift (hs.adds ho x)) fun _ => pure _

theorem within_listenToVariable (hs : L.Suits s o) {r : Reaction}
    (hr : Listens s o (.variableWrite (variableId s)) r) : (listenToVariable s r).Within L :=
  .act (fun w _ _ => BlockLimits.obtain w ..) fun w hw hw' => hs.listens _ _ hr w hw hw'

theorem within_onChange (hs : L.Suits s o)
    (ho : o = ⟨"data", "onchange_variable"⟩) : Attempt.Within L (onChange env s) :=
  bind (lift (within_listenToVariable hs (.onChange ho))) fun _ => pure _

theorem within_onChangeTo (hs : L.Suits s o)
    (ho : o = ⟨"data", "onchange_variable_to"⟩) :
    Attempt.Within L (onChangeTo env s) :=
  bind (ofExcept _) fun operator =>
    bind (lift (within_listenToVariable hs (.onChangeTo operator ho))) fun _ => pure _

theorem within_linkVariable (hs : L.Suits s o) {field : String} {asTruth : Bool}
    (h : ∀ source, Listens s o (.value source) (.link (s.block.fieldRef field) asTruth)) :
    Attempt.Within L (linkVariable field asTruth env s) :=
  bind (input env s _ _) fun source => by
    simp only
    split
    · exact throw _
    · exact bind (ofExcept _) fun _ => obtainLock s _ fun w hw hw' =>
        bind (lift (hs.listens _ _ (h _) w hw hw')) fun _ => pure _

theorem within_broadcast (hs : L.Suits s o) (ho : o = ⟨"event", "broadcast"⟩) :
    Attempt.Within L (broadcast env s) :=
  bind (input env s _ _) fun message => bind (lift (.act (fun w _ _ => BlockLimits.obtain w ..)
    fun w hw hw' => Execution.Within.signalLock ((hs.sends ho message.toText).obtained w s.tab s.id hw hw') _))
      fun _ => pure _

theorem within_gotBroadcast (hs : L.Suits s o)
    (ho : o = ⟨"event", "gotbroadcast"⟩) : Attempt.Within L (gotBroadcast env s) :=
  obtainLock s _ fun w hw hw' =>
    bind (lift (hs.listens _ _ (.gotBroadcast ho) w hw hw')) fun _ => pure _

variable (s)

theorem within_print : Attempt.Within L (print env s) :=
  bind (inputText env s _) fun _ =>
    bind (lift (.change fun w _ _ => BasicLimits.notifications w _)) fun _ => pure _

/-! ### Operators -/

theorem within_arithmetic (op : Double → Double → Double) :
    Attempt.Within L (arithmetic op env s) :=
  bind (inputDouble env s _) fun _ => bind (inputDouble env s _) fun _ => pure _

theorem within_compare (op : Double → Double → Bool) : Attempt.Within L (compare op env s) :=
  bind (inputDouble env s _) fun _ => bind (inputDouble env s _) fun _ => pure _

theorem within_random : Attempt.Within L (random env s) :=
  bind (inputInt env s _) fun _ => bind (inputInt env s _) fun _ =>
    bind (lift .draw) fun _ => pure _

theorem within_both : Attempt.Within L (both env s) :=
  bind (inputBool env s _) fun holds => by
    split
    · exact bind (inputBool env s _) fun _ => pure _
    · exact pure _

theorem within_either : Attempt.Within L (either env s) :=
  bind (inputBool env s _) fun holds => by
    split
    · exact pure _
    · exact bind (inputBool env s _) fun _ => pure _

theorem within_negation : Attempt.Within L (negation env s) :=
  bind (inputBool env s _) fun _ => pure _

theorem within_join : Attempt.Within L (join env s) :=
  bind (inputText env s _) fun _ => bind (inputText env s _) fun _ => pure _

theorem within_mathOp : Attempt.Within L (mathOp env s) := by
  simp only [mathOp]
  split
  · exact bind (inputDouble env s _) fun _ => pure _
  · exact throw _

theorem within_boolToNumber : Attempt.Within L (boolToNumber env s) :=
  bind (inputBool env s _) fun _ => pure _

theorem within_boolChoice : Attempt.Within L (boolChoice env s) :=
  bind (inputBool env s _) fun _ => bind (inputDouble env s _) fun _ => pure _

/-! ### Procedures -/

theorem within_callArguments (ids : List String) :
    Attempt.Within L (callArguments env s ids) := by
  unfold callArguments
  generalize ([] : Keyed Json) = done
  induction ids generalizing done with
  | nil => exact pure _
  | cons id ids ih =>
    rw [List.foldlM_cons]
    refine bind ?_ fun _ => ih _
    split
    · exact bind (inputValue env s id) fun _ => pure _
    · exact bind (pure _) fun _ => pure _

theorem within_heard (signature : String) (m : MailboxId) (accepted : Nat) :
    Attempt.Within L (heard signature m accepted) := by
  unfold heard
  split
  · exact bind (lift (.change fun w _ _ => BlockLimits.close w m)) fun _ => throw _
  · exact bind (lift (.receive m none)) fun _ => ofExcept _

theorem within_enroll (returns : LockId) : (enroll returns).Within L :=
  .atomically fun w _ _ => BasicLimits.trans (BasicLimits.fresh w)
    (BlockLimits.register w.fresh.2 returns (.callId (identText w.issued)))

theorem within_readArgument : Attempt.Within L (readArgument env s) :=
  bind (lift (Execution.Within.look.bind fun _ => .done _)) fun _ => pure _

theorem within_readArgumentTruth : Attempt.Within L (readArgumentTruth env s) :=
  bind (lift (Execution.Within.look.bind fun _ => .done _)) fun _ => pure _

variable {s}

theorem within_definition (hs : L.Suits s o)
    (ho : o = ⟨"procedures", "definition"⟩) :
    Attempt.Within L (definition env s) := by
  refine bind (ofExcept _) fun d => ?_
  obtain ⟨m, signature⟩ := d
  refine obtainLock s _ fun w hw hw' => bind (lift (.obtainLock s _)) fun returns => ?_
  exact bind (lift (hs.listens _ _ (.definition signature _ returns ho) w hw hw')) fun _ => pure _

theorem within_requiredLock {key : LockKey} {k : LockId → Attempt α}
    (hk : ∀ (w : World) l, L.Fits w → w.locks.find? s.tab key.text = some l →
      Attempt.Within L (k l)) : Attempt.Within L (requiredLock s key >>= k) := by
  unfold requiredLock
  rw [bind_assoc]
  refine look fun w hw => ?_
  split
  · next l hl =>
    rw [pure_bind]
    exact hk w l hw hl
  · exact Execution.Leads.done _

theorem within_dial (hs : L.Suits s o) (ho : o = ⟨"procedures", "call"⟩)
    (signature : String) (arguments : Keyed Json) :
    Attempt.Within L (dial s signature arguments) :=
  within_requiredLock fun w l hw hl => bind (lift (.obtainLock s _)) fun _ =>
    bind (lift (within_enroll _)) fun _ =>
      bind (lift (.signalLock ((hs.calls ho signature).found w s.tab l hw hl) _)) fun _ =>
        within_heard signature _ _

theorem within_call (hs : L.Suits s o) (ho : o = ⟨"procedures", "call"⟩) :
    Attempt.Within L (call env s) := by
  simp only [call]
  split
  · exact bind (within_callArguments env s _) fun _ => within_dial hs ho _ _
  · exact throw _

/-- The blocks of the core library: their opcodes and what they do, in the order they are added. -/
def blocks : List (Opcode × Behaviour StatementHandler ExpressionHandler) :=
  core.flatMap fun x => x.blocks.map fun b => (⟨x.id, b.opcode⟩, b.behaviour)

theorem blocks_eq : blocks =
      [(⟨"control", "forever"⟩, .command forever), (⟨"control", "repeat"⟩, .command repeatTimes),
       (⟨"control", "repeat_until"⟩, .command repeatWhile),
       (⟨"control", "schedule"⟩, .command schedule), (⟨"control", "if"⟩, .command ifThen),
       (⟨"control", "if_else"⟩, .command ifElse), (⟨"control", "wait"⟩, .command wait),
       (⟨"control", "wait_until"⟩, .command waitUntil),
       (⟨"control", "stop"⟩, .command fun _ _ => return .stop),
       (⟨"control", "stop_timeout"⟩, .command stopTimeout),
       (⟨"control", "when_value_changed"⟩, .command (watchInput "VALUE" .value)),
       (⟨"control", "when_condition_changed"⟩, .command (watchInput conditionInput .condition)),
       (⟨"event", "broadcast"⟩, .command broadcast), (⟨"event", "gotbroadcast"⟩, .hat gotBroadcast),
       (⟨"data", "variable"⟩, .reporter readVariable),
       (⟨"data", "prev_variable"⟩, .reporter readKept),
       (⟨"data", "setvariableto"⟩, .command setVariable),
       (⟨"data", "changevariableby"⟩, .command changeVariable),
       (⟨"data", "onchange_variable"⟩, .hat onChange),
       (⟨"data", "onchange_variable_to"⟩, .hat onChangeTo),
       (⟨"data", "group_variable_link"⟩, .hat (linkVariable "group_variables_group" false)),
       (⟨"data", "boolean_link"⟩, .hat (linkVariable "bool_variables_group" true)),
       (⟨"operator", "add"⟩, .reporter (arithmetic Double.add)),
       (⟨"operator", "subtract"⟩, .reporter (arithmetic Double.sub)),
       (⟨"operator", "multiply"⟩, .reporter (arithmetic Double.mul)),
       (⟨"operator", "divide"⟩, .reporter (arithmetic Double.div)),
       (⟨"operator", "random"⟩, .reporter random),
       (⟨"operator", "lt"⟩, .reporter (compare Double.lt)),
       (⟨"operator", "gt"⟩, .reporter (compare fun a b => b.lt a)),
       (⟨"operator", "equals"⟩, .reporter (compare Double.eq)),
       (⟨"operator", "and"⟩, .reporter both), (⟨"operator", "or"⟩, .reporter either),
       (⟨"operator", "not"⟩, .reporter negation), (⟨"operator", "join"⟩, .reporter join),
       (⟨"operator", "mathop"⟩, .reporter mathOp),
       (⟨"operator", "bool_to_num"⟩, .reporter boolToNumber),
       (⟨"operator", "bool_if_else"⟩, .reporter boolChoice),
       (⟨"procedures", "definition"⟩, .hat definition), (⟨"procedures", "call"⟩, .command call),
       (⟨"procedures", "prototype"⟩, .reporter prototype),
       (⟨"argument", "reporter_string_number"⟩, .reporter readArgument),
       (⟨"argument", "reporter_boolean"⟩, .reporter readArgumentTruth),
       (⟨"debug", "print"⟩, .command print)] := rfl

/-- What a block of the core library does is within limits that suit it. -/
theorem withinAt_of_mem_core (hs : L.Suits s o) {x : Extension StatementHandler ExpressionHandler}
    (hx : x ∈ core) {b : BlockSpec StatementHandler ExpressionHandler} (hb : b ∈ x.blocks)
    (ho : o = ⟨x.id, b.opcode⟩) : b.behaviour.WithinAt L env s := by
  have hall : ∀ q ∈ blocks, o = q.1 → q.2.WithinAt L env s := by
    rw [blocks_eq]
    simp only [List.forall_mem_cons]
    exact ⟨fun _ => within_forever env s, fun _ => within_repeatTimes env s,
      fun _ => within_repeatWhile env s, fun _ => within_schedule env s,
      fun _ => within_ifThen env s, fun _ => within_ifElse env s, fun _ => within_wait env s,
      fun _ => within_waitUntil env s, fun _ => pure _, fun _ => within_stopTimeout env s,
      fun ho => within_watchInput env hs (.value ho),
      fun ho => within_watchInput env hs (.condition ho), fun ho => within_broadcast env hs ho,
      fun ho => within_gotBroadcast env hs ho, fun _ => within_readVariable env s,
      fun _ => within_readKept env s, fun ho => within_setVariable env hs ho,
      fun ho => within_changeVariable env hs ho, fun ho => within_onChange env hs ho,
      fun ho => within_onChangeTo env hs ho,
      fun ho => within_linkVariable env hs fun source => .valueLink source ho,
      fun ho => within_linkVariable env hs fun source => .truthLink source ho,
      fun _ => within_arithmetic env s _, fun _ => within_arithmetic env s _,
      fun _ => within_arithmetic env s _, fun _ => within_arithmetic env s _,
      fun _ => within_random env s, fun _ => within_compare env s _,
      fun _ => within_compare env s _, fun _ => within_compare env s _,
      fun _ => within_both env s, fun _ => within_either env s, fun _ => within_negation env s,
      fun _ => within_join env s, fun _ => within_mathOp env s, fun _ => within_boolToNumber env s,
      fun _ => within_boolChoice env s, fun ho => within_definition env hs ho,
      fun ho => within_call env hs ho, fun _ => pure _, fun _ => within_readArgument env s,
      fun _ => within_readArgumentTruth env s, fun _ => within_print env s, nofun⟩
  exact hall (⟨x.id, b.opcode⟩, b.behaviour)
    (List.mem_flatMap.2 ⟨x, hx, List.mem_map.2 ⟨b, hb, rfl⟩⟩) ho

end Library

/-! ## The interpreter -/

/-- A registered block of the core library is found by its own opcode. -/
theorem Engine.HasCore.opcode_of_lookup {e : Engine} (he : e.HasCore) {o : Opcode}
    {b : BlockSpec StatementHandler ExpressionHandler} (hb : e.registry.lookup o = .ok b) :
    ∃ x ∈ Library.core, b ∈ x.blocks ∧ o = ⟨x.id, b.opcode⟩ := by
  have hids : ∀ p ∈ (Registry.empty.registerAll Library.core).1.extensions, p.1 = p.2.id := by
    decide
  rw [he] at hb
  unfold Registry.lookup at hb
  split at hb
  · cases hb
  · next x hx =>
    split at hb
    · cases hb
    · next hfound =>
      obtain rfl := Except.ok.inj hb
      have hmem := Keyed.mem_of_get? hx
      refine ⟨x, (Registry.mem_registerAll hmem).resolve_left nofun,
        List.mem_of_find?_eq_some hfound, ?_⟩
      rw [← hids _ hmem, Registry.opcode_of_block? hfound]

theorem Engine.registered_of_lookup {e : Engine} {s : Site}
    {b : BlockSpec StatementHandler ExpressionHandler} (hb : e.lookup s = .ok b) :
    e.registry.lookup s.block.opcode = .ok b := by
  unfold lookup at hb
  cases hfound : e.registry.lookup s.block.opcode with
  | error err => rw [hfound] at hb; cases hb
  | ok b' => rw [hfound] at hb; exact hb

/-- What the engine does for the block of a site is within limits: what the block does, and that its
result is stored. -/
structure Engine.WithinAt (e : Engine) (L : Limits) (s : Site) : Prop where
  handler : ∀ b, e.lookup s = .ok b → b.behaviour.WithinAt L e.environment s
  keeps : ∀ v, (keep s valueKey v).Within L

theorem Engine.HasCore.withinAt {e : Engine} (he : e.HasCore) {L : Limits} [BlockLimits L] {s : Site}
    (hs : L.Suits s s.block.opcode) : e.WithinAt L s where
  handler b hb := by
    obtain ⟨x, hx, hmem, ho⟩ := he.opcode_of_lookup (Engine.registered_of_lookup hb)
    exact Library.withinAt_of_mem_core e.environment hs hx hmem ho
  keeps := hs.keeps

/-- A turn that stays within limits, and so will the next one. -/
def Attempt.Turns (L : Limits) (a : Attempt Turned) : Prop :=
  Execution.Leads L (fun x => ∀ r, x = .ok (.again r) → L.Runs r) (ExceptT.run a)

namespace Attempt.Turns

variable {L : Limits}

theorem of_done {x : Except EngineError Turned} (h : ∀ r, x = .ok (.again r) → L.Runs r) :
    Turns L (ExceptT.mk (.done x)) := Execution.Leads.ends h

theorem concludes (x : Signal) : Turns L (return .over x) := of_done fun _ hr => nomatch hr

theorem again {r : Routine} (h : L.Runs r) : Turns L (return .again r) :=
  of_done fun _ hr => Turned.again.inj (Except.ok.inj hr) ▸ h

theorem throw (err : EngineError) : Turns L (throw err) := of_done fun _ hr => nomatch hr

theorem bind {a : Attempt α} (h : Attempt.Within L a) {k : α → Attempt Turned}
    (hk : ∀ x, Turns L (k x)) : Turns L (a >>= k) := by
  refine Execution.Leads.bind h fun r _ => ?_
  cases r with
  | ok x => exact hk x
  | error err => exact throw err

/-- After the turn comes the next one, or what follows the routine. -/
theorem after {a : Attempt Turned} (h : Turns L a) {k : Except EngineError Signal → Execution α}
    (hk : ∀ r, (k r).Within L) : ((ExceptT.run a).bind (Engine.afterTurn k)).Within L := by
  refine Execution.Leads.bind h fun x hx => ?_
  cases x with
  | error err => exact hk _
  | ok y =>
    cases y with
    | «over» s => exact hk _
    | again r => exact .run (hx r rfl) hk

end Attempt.Turns

namespace Engine

open Attempt.Within (pure throw ofExcept bind lift annotated evaluate routine handle inputBool
  inputValue conclude)

variable {e : Engine} {L : Limits} {s : Site}

theorem within_evaluation (hs : e.WithinAt L s) : Attempt.Within L (e.evaluation s) := by
  unfold evaluation
  cases hb : e.lookup s with
  | error err => exact Execution.Leads.done _
  | ok b =>
    have hhandler := hs.handler b hb
    refine bind (annotated s ?_) fun v => bind (lift (hs.keeps v)) fun _ => pure _
    cases hk : b.behaviour with
    | reporter run =>
      rw [hk] at hhandler
      exact hhandler
    | command run | hat run =>
      rw [hk] at hhandler
      exact bind hhandler fun _ => pure _

/-- Reactions one after the other. -/
theorem within_reactAll {v : Json} {rs : List Reaction} (h : ∀ r ∈ rs, (e.react v r).Within L) :
    (e.reactAll v rs).Within L := by
  induction rs with
  | nil => exact .done ()
  | cons r rs ih =>
    exact (h r List.mem_cons_self).bind fun _ => ih fun r' hr' => h r' (List.mem_cons_of_mem _ hr')

variable [BlockLimits L]

theorem within_keep_of_ne (s : Site) {key : String} (hkey : key ≠ valueKey) (v : Json) :
    (keep s key v).Within L := .setValue_of_ne s.generation s.id hkey v

theorem within_handleOrEvaluate (s : Site) : Attempt.Within L (e.handleOrEvaluate s) := by
  unfold handleOrEvaluate
  split
  · exact bind (evaluate (BlockLimits.evaluates s)) fun _ => pure _
  · exact handle s

theorem turns_chain {visited : List String}
    (hs : visited.contains s.id = false → e.WithinAt L s) :
    Attempt.Turns L (e.chainTurn visited s) := by
  unfold chainTurn
  split
  · exact .concludes _
  · next hnew =>
    have hs := hs (Bool.eq_false_iff.2 hnew)
    cases hb : e.lookup s with
    | error err => exact .throw _
    | ok b =>
      obtain ⟨opcode, behaviour, menus⟩ := b
      have hhandler := hs.handler _ hb
      cases behaviour with
      | command run =>
        refine .bind (annotated s hhandler) fun x => ?_
        cases x with
        | stop => exact .concludes _
        | proceed =>
          cases s.next? e.settings.maxDepth with
          | none => exact .concludes _
          | some next => exact .again (BlockLimits.runs rfl)
      | hat run => exact .bind (annotated s hhandler) fun _ => .concludes _
      | reporter run =>
        exact .bind (annotated s hhandler) fun v => .bind (lift (hs.keeps v)) fun _ => .concludes _

theorem turns_loop (l : Loop) (index : Nat) : Attempt.Turns L (e.loopTurn l index) := by
  have hgoes : Attempt.Within L (e.goesOn l) := by
    unfold goesOn
    split
    · exact inputBool e.environment l.site _
    · exact pure _
  have hpause : Attempt.Turns L (loopTurn.pauseAndGo l index) :=
    .bind (lift (.sleep _)) fun _ => .again (BlockLimits.runs rfl)
  refine .bind (lift (within_keep_of_ne l.site (by decide) _)) fun _ =>
    .bind hgoes fun goes => ?_
  split
  · exact .concludes _
  · refine .bind (handle l.body) fun x => ?_
    cases x with
    | stop => exact .concludes _
    | proceed =>
      simp only
      split
      · split
        · exact .concludes _
        · exact hpause
      · exact hpause

theorem turns_wait (s : Site) (lock : LockId) : Attempt.Turns L (e.waitTurn s lock) := by
  refine .bind (inputBool e.environment s _) fun holds => ?_
  split
  · exact .concludes _
  · refine .bind (lift (.awaitSignal lock _)) fun d => ?_
    split
    · exact .throw _
    · exact .again (BlockLimits.runs rfl)

theorem within_observe (s : Site) (input : String) (kind : WatchKind) :
    Attempt.Within L (e.observe s input kind) := by
  cases kind with
  | value => exact inputValue e.environment s input
  | condition => exact bind (inputBool e.environment s input) fun _ => pure _

theorem turns_watch {lock : LockId} {input : String} {kind : WatchKind} (hl : L.Signals lock)
    (hr : ∀ last, L.Runs (.watch s lock input kind last)) (last : Option Json) :
    Attempt.Turns L (e.watchTurn s lock input kind last) := by
  refine .bind (lift .look) fun w => ?_
  split
  · exact .concludes _
  · refine .bind (within_observe s input kind) fun now => ?_
    simp only
    split
    · exact .bind (lift (.signalLock hl now)) fun _ =>
        .bind (lift (.sleep _)) fun _ => .again (hr _)
    · exact .bind (lift (.sleep _)) fun _ => .again (hr _)

/-- The turn of a routine is within limits that suit the block it is at. -/
theorem turns_turn {r : Routine} (hr : L.Runs r)
    (hchain : ∀ visited s, r = .chain visited s → visited.contains s.id = false →
      e.WithinAt L s) : Attempt.Turns L (e.turn r) := by
  cases r with
  | chain visited s => exact turns_chain (hchain visited s rfl)
  | loop l index => exact turns_loop l index
  | waitUntil s lock => exact turns_wait s lock
  | watch s lock input kind last =>
    obtain ⟨hl, hagain⟩ := BlockLimits.watches hr
    exact turns_watch hl hagain last

/-- A reaction is within limits that allow it to store the value it is given on its block, or to
write its variable. -/
theorem within_react {r : Reaction}
    (hkeep : ∀ s, (r = .keepAndStart s ∨ (∃ o, r = .keepAndStartIf s o) ∨
      ∃ body, r = .keepAndRun s body) → ∀ v, (keep s valueKey v).Within L)
    (hlink : ∀ id b, r = .link id b → ∀ v, (Execution.writeVariable id v).Within L)
    (hhost : ∀ name act, r ≠ .host name act) (v : Json) : (e.react v r).Within L := by
  cases r with
  | start hat => exact (Execution.Within.spawnNext _ hat).bind fun _ => .done ()
  | keepAndStart hat =>
    exact (hkeep hat (.inl rfl) v).bind fun _ =>
      (Execution.Within.spawnNext _ hat).bind fun _ => .done ()
  | keepAndStartIf hat operator =>
    refine (hkeep hat (.inr (.inl ⟨_, rfl⟩)) v).bind fun _ => ?_
    split
    · exact .done ()
    · refine Execution.Within.bind ?_ fun _ => .done ()
      exact .spawnIn hat fun _ => rfl
  | link id asTruth => exact (hlink id asTruth rfl _).bind fun _ => .done ()
  | runBody d arguments returns =>
    refine Execution.Within.bind ?_ fun _ => .done ()
    exact .spawnIn d fun _ => rfl
  | keepAndRun owner body =>
    exact (hkeep owner (.inr (.inr ⟨body, rfl⟩)) v).bind fun _ =>
      (Execution.Within.spawnChain owner body).bind fun _ => .done ()
  | host name act => exact absurd rfl (hhost name act)

/-! ## Tasks -/

theorem within_keepArguments {s : Site} (hkeeps : ∀ v, (keep s valueKey v).Within L) (request : Json)
    (arguments : List (String × String)) : (keepArguments s request arguments).Within L := by
  induction arguments with
  | nil => exact .done ()
  | cons a arguments ih =>
    refine Execution.Within.bind ?_ fun _ => ih
    by_cases hkey : a.2 = valueKey
    · rw [hkey]
      exact hkeeps _
    · exact within_keep_of_ne s hkey _

theorem within_bodyChain {s : Site} (hkeeps : ∀ v, (keep s valueKey v).Within L)
    (arguments : List (String × String)) (request : Json) :
    (e.bodyChain s arguments request).Within L := by
  refine (within_keepArguments hkeeps request arguments).bind fun _ => ?_
  split
  · exact handle _
  · exact .done _

theorem within_guardedChain (hat : Site) (operator : ChangeOperator) (v : Json) (next : Site) :
    Attempt.Within L (e.guardedChain hat operator v next) := by
  have hrest : ∀ item, Attempt.Within L (Attempt.ofExcept (operator.filter item) >>= fun f =>
      if f.accepts v then Attempt.handle next else Pure.pure .proceed) := fun item =>
    bind (ofExcept _) fun f => by
      split
      · exact handle next
      · exact pure _
  unfold guardedChain
  split
  · exact bind (inputValue e.environment hat _) hrest
  · exact bind (pure _) hrest

/-- The work of a task is within limits that allow what is particular to its job: that a body keeps
its arguments and replies, and that a watcher looks at its input. -/
theorem within_work {j : Job}
    (hbody : ∀ s arguments request returns, j = .body s arguments request returns →
      (∀ v, (keep s valueKey v).Within L) ∧ L.Signals returns)
    (hwatch : ∀ s l input kind, j = .watch s l input kind →
      L.Runs (.watch s l input kind (WatchKind.first kind))) : (e.work j).Within L := by
  cases j with
  | root s => exact conclude s (within_handleOrEvaluate s)
  | chain s => exact conclude s (handle s)
  | chainIf hat operator v next => exact conclude hat (within_guardedChain hat operator v next)
  | body s arguments request returns =>
    obtain ⟨hkeeps, hreturns⟩ := hbody s arguments request returns rfl
    exact (within_bodyChain hkeeps arguments request).bind fun _ =>
      (Execution.Within.signalLock hreturns _).bind fun _ => .done ()
  | stopAfter g c ns =>
    refine (Execution.Within.sleep ns).bind fun _ =>
      (Execution.Within.atomically fun w _ _ => ?_).bind fun _ => .done ()
    exact BasicLimits.cancelAll w _
  | watch s lock input kind => exact conclude s (routine (hwatch s lock input kind rfl))

end Engine

/-! ## Limits for callers -/

/-- Limits that allow whatever callers do to the generations of tabs they have in hand: they end
tasks and locks, run listeners, declare variables and run the blocks that run once. -/
class CallerLimits (L : Limits) : Prop extends BasicLimits L where
  release (w : World) (tab : String) : L.Allows w (w.withLocks (·.release tab)).2
  releaseAll (w : World) : L.Allows w (w.withLocks (·.releaseAll)).2
  unsubscribe (w : World) (l : LockId) (id : SubscriptionId) :
    L.Allows w (w.withLocks (·.unsubscribe l id)).2
  note (w : World) (name : String) (v : Json) : L.Allows w (w.note name v)
  declare (w : World) (id name : String) (v : Json) :
    L.Allows w { w with vars := w.vars.declare id name v }
  once {s : Site} : Library.isOnce s.block.opcode = true → L.Runs (.chain [] s)

/-- Limits that allow whatever callers do: they make generations, change the tabs and pass on the
turn as well. -/
class SupervisorLimits (L : Limits) : Prop extends CallerLimits L where
  newGeneration (w : World) (tab tabName : String) (graph : Graph) :
    L.Allows w (w.newGeneration tab tabName graph).2
  tabs (w : World) (tabs : Keyed TabEntry) : L.Allows w { w with tabs }
  turn (w : World) (turn : Turn) : L.Allows w { w with turn }

theorem BasicLimits.foldl {L : Limits} [BasicLimits L] {f : World → α → World}
    (hf : ∀ w a, L.Allows w (f w a)) (xs : List α) (w : World) : L.Allows w (xs.foldl f w) := by
  induction xs generalizing w with
  | nil => exact refl w
  | cons a xs ih => exact trans (hf w a) (ih _)

namespace CallerLimits

variable {L : Limits} [CallerLimits L]

theorem releaseLocks (w : World) (tab : String) : L.Allows w (w.releaseLocks tab) :=
  have h : L.Allows w (w.withLocks (·.release tab)).2 := release w tab
  BasicLimits.trans h (BasicLimits.wakeAll _ _)

theorem releaseAllLocks (w : World) : L.Allows w w.releaseAllLocks :=
  have h : L.Allows w (w.withLocks (·.releaseAll)).2 := releaseAll w
  BasicLimits.trans h (BasicLimits.wakeAll _ _)

theorem releaseBlocks (w : World) (n : Nat) : L.Allows w (w.releaseBlocks n).2 := by
  refine BasicLimits.trans (BasicLimits.modifyGeneration w n _) (BasicLimits.foldl (fun w l => ?_) _ _)
  obtain ⟨block, x⟩ := l
  cases x with
  | unsubscribe l id => exact unsubscribe w l id
  | host name => exact note w _ _

theorem declareAll (w : World) (declared : List (String × String × Json)) :
    L.Allows w { w with
      vars := declared.foldl (fun vs (id, name, initial) => vs.declare id name initial) w.vars } := by
  induction declared generalizing w with
  | nil => exact BasicLimits.refl w
  | cons x declared ih =>
    obtain ⟨id, name, initial⟩ := x
    exact BasicLimits.trans (declare w id name initial)
      (ih { w with vars := w.vars.declare id name initial })

end CallerLimits

namespace SupervisorLimits

variable {L : Limits} [SupervisorLimits L]

theorem modifyTab (w : World) (id : String) (f : TabEntry → TabEntry) :
    L.Allows w (w.modifyTab id f) := by
  unfold World.modifyTab
  split
  · exact tabs w _
  · exact BasicLimits.refl w

theorem putTab (w : World) (id name : String) (f : TabEntry → TabEntry) :
    L.Allows w (w.putTab id name f) := tabs w _

theorem passTurn (w : World) : L.Allows w w.passTurn := by
  unfold World.passTurn
  split
  · exact turn w _
  · exact BasicLimits.trans (turn w _) (BasicLimits.wake _ _)

end SupervisorLimits

namespace Supervisor

open Attempt.Within (bind lift throw)

variable {L : Limits} {e : Engine}

theorem within_alone (hL : ∀ w, L.Allows w w.passTurn) {p : Execution α} (hp : p.Within L) :
    (alone p).Within L :=
  .pause fun _ => hp.bind fun _ => (Execution.Within.change fun w _ _ => hL w).bind fun _ => .done _

theorem within_mapM (f : α → Execution β) (hf : ∀ a, (f a).Within L) (xs : List α) :
    (xs.mapM f).Within L := by
  induction xs with
  | nil => exact .done _
  | cons a xs ih =>
    rw [List.mapM_cons]
    exact (hf a).bind fun _ => ih.bind fun _ => .done _

theorem within_awaitAll (ts : List TaskId) : (awaitAll ts).Within L := by
  induction ts with
  | nil => exact .done ()
  | cons t ts ih => exact .pause fun _ => ih

section

variable [CallerLimits L]

theorem within_cancelAll (ts : List TaskId) : (cancelAll ts).Within L := by
  induction ts with
  | nil => exact .done ()
  | cons t ts ih => exact (Execution.Within.change fun w _ _ => BasicLimits.cancel w t).bind fun _ => ih

theorem within_teardown (id : String) (g : Option Generation) : (teardown id g).Within L := by
  have hrelease : (Execution.change (·.releaseLocks id)).Within L :=
    .change fun w _ _ => CallerLimits.releaseLocks w id
  refine hrelease.bind fun _ => ?_
  cases g with
  | none => exact hrelease
  | some g =>
    refine (Execution.Within.atomically fun w _ _ => ?_).bind fun _ =>
      Execution.Within.bind ?_ fun _ => hrelease
    · exact CallerLimits.releaseBlocks w g.number
    · refine (Execution.Within.atomically fun w _ _ => ?_).bind fun ts => ?_
      · exact BasicLimits.modifyGeneration w _ _
      · exact (within_cancelAll ts).bind fun _ => within_awaitAll ts

theorem within_teardownAll (tabs : List (String × TabEntry)) : (teardownAll tabs).Within L := by
  induction tabs with
  | nil => exact .done ()
  | cons p tabs ih => exact (within_teardown p.1 p.2.generation).bind fun _ => ih

theorem within_handleAll {sites : List Site}
    (h : ∀ s ∈ sites, Library.isOnce s.block.opcode = true) : (handleAll sites).Within L := by
  induction sites with
  | nil => exact .done ()
  | cons s sites ih =>
    have hs : Attempt.Within L (Attempt.handle s) :=
      .routine (CallerLimits.once (h s List.mem_cons_self))
    exact (Attempt.Within.conclude s hs).bind fun _ =>
      ih fun s' hs' => h s' (List.mem_cons_of_mem _ hs')

theorem within_spawnRoots (sites : List Site) : (spawnRoots sites).Within L :=
  (within_mapM _ (fun s => .spawn s s.context rfl) sites).bind fun _ => .done _

theorem within_startRoots (g : Generation) : (startRoots e g).Within L := by
  have hroot : ∀ b, (rootSite g b).Within L := fun b =>
    Execution.Within.bind (Execution.Within.draw.bind fun _ => .done _) fun _ => .done _
  refine (within_mapM _ hroot _).bind fun sites => ?_
  refine (within_handleAll fun s hs => ?_).bind fun _ => (within_spawnRoots _).bind fun started =>
    .look_bind fun w _ => .pause fun _ => (within_spawnRoots _).bind fun _ => .done ()
  change s ∈ (sites.partition fun s => Library.isOnce s.block.opcode).1 at hs
  rw [List.partition_eq_filter_filter] at hs
  exact (List.mem_filter.1 hs).2

theorem within_start (hnew : ∀ w id name graph, L.Allows w (World.newGeneration w id name graph).2)
    (id name content : String) : Attempt.Within L (start e id name content) := by
  refine bind (.ofExcept _) fun graph => ?_
  cases graph with
  | none => exact .pure _
  | some graph =>
    exact bind (lift (.change fun w _ _ => CallerLimits.declareAll w _)) fun _ =>
      bind (lift (.atomically fun w _ _ => hnew w id name graph)) fun g =>
        bind (lift (within_startRoots g)) fun _ => .pure _

end

variable [SupervisorLimits L]

theorem within_modifyTab (id : String) (f : TabEntry → TabEntry) :
    (Supervisor.modifyTab id f).Within L := .change fun w _ _ => SupervisorLimits.modifyTab w id f

theorem within_retire (id : String) (status : TabStatus) :
    Attempt.Within L (Supervisor.retire id status) := by
  refine Execution.Within.atomically fun w _ _ => ?_
  split
  · exact SupervisorLimits.modifyTab w id _
  · exact BasicLimits.refl w

theorem within_withdraw (id : String) : Attempt.Within L (Supervisor.withdraw id) := by
  refine Execution.Within.atomically fun w _ _ => ?_
  split
  · split
    · exact SupervisorLimits.tabs w _
    · exact BasicLimits.refl w
  · exact BasicLimits.refl w

theorem within_reload (id : String) : Attempt.Within L (Supervisor.reload e id) := by
  refine within_alone SupervisorLimits.passTurn (bind (within_retire id _) fun old => ?_)
  refine bind (lift (within_teardown id _)) fun _ => bind (lift (within_modifyTab id _)) fun _ => ?_
  refine bind (lift (within_start SupervisorLimits.newGeneration id _ _)) fun r => ?_
  cases r with
  | ok g => exact lift (within_modifyTab id _)
  | error err =>
    refine bind (lift (.change fun w _ _ => BasicLimits.notifications w _)) fun _ => ?_
    exact bind (lift (within_modifyTab id _)) fun _ => throw _

theorem within_delete (id : String) : Attempt.Within L (Supervisor.delete e id) := by
  unfold Supervisor.delete
  split
  · exact throw _
  · exact within_alone SupervisorLimits.passTurn
      (bind (within_withdraw id) fun old => lift (within_teardown id _))

theorem allows_takeIn (sources : List TabSource) (w : World) :
    L.Allows w (Supervisor.takeIn e sources w).2 :=
  BasicLimits.trans (BasicLimits.foldl (fun w id => SupervisorLimits.putTab w id id _) _ w)
    (BasicLimits.foldl (fun w (s : TabSource) => SupervisorLimits.putTab w s.id s.id _) _ _)

/-- Every call is within limits that allow what callers do. -/
theorem within_execution (c : Call) : (c.execution e).Within L := by
  cases c with
  | create id name content =>
    refine (Execution.Within.atomically fun w _ _ => ?_).bind fun _ => .done ()
    split
    · exact BasicLimits.refl w
    · exact SupervisorLimits.tabs w _
  | save id content =>
    exact Execution.Within.bind (bind (lift (.change fun w _ _ => SupervisorLimits.putTab w id id _))
      fun _ => within_reload id) fun _ => .done ()
  | delete id => exact Execution.Within.bind (within_delete id) fun _ => .done ()
  | reload id => exact Execution.Within.bind (within_reload id) fun _ => .done ()
  | release id =>
    exact Execution.Within.bind (within_alone SupervisorLimits.passTurn
      (bind (within_retire id _) fun old => lift (within_teardown id _))) fun _ => .done ()
  | loadAll sources =>
    refine Execution.Within.bind ((Execution.Within.atomically fun w _ _ =>
      allows_takeIn (e := e) sources w).bind fun ids => ?_) fun _ => .done ()
    induction ids with
    | nil => exact .done _
    | cons id ids ih =>
      exact Execution.Within.bind (within_reload id) fun _ => ih.bind fun _ => .done _
  | shutdown =>
    refine within_alone SupervisorLimits.passTurn
      ((Execution.Within.atomically fun w _ _ => SupervisorLimits.tabs w _).bind fun _ => ?_)
    exact (within_teardownAll _).bind fun _ =>
      .change fun w _ _ => CallerLimits.releaseAllLocks w

end Supervisor

/-! ## Steps -/

/-- An execution that is about to evaluate a block, or to run one in a chain. -/
inductive Execution.Enters (s : Site) : Execution α → Prop
  | evaluate {k : Except EngineError Json → Execution α} : Enters s (.evaluate s k)
  | chain {visited : List String} {k : Except EngineError Signal → Execution α} :
      visited.contains s.id = false → Enters s (.run (.chain visited s) k)

/-- The next step of an execution is within limits, and so is what comes after it. -/
def Execution.Plain (L : Limits) : Execution α → Prop
  | .done _ => True
  | .act f k => ∀ w, L.Fits w → L.Fits (f w) → L.Allows w (f w) ∧ (k w).Within L
  | .pause _ k => ∀ r, (k r).Within L
  | .signal l _ k => L.Signals l ∧ ∀ n, (k n).Within L
  | .evaluate _ k => ∀ r, (k r).Within L
  | .run r k => L.Runs r ∧ ∀ x, (k x).Within L

section

variable {e : Engine} {t : TaskId} {L : Limits} {w w' : World} {p q : Execution α}

/-- Unless what comes next is exempt, the next step is within the limits. -/
theorem Execution.Within.plain_or_exempt (hp : p.Within L) :
    p.Plain L ∨ ∃ (β : Type) (x : Execution β) (k : β → Execution α),
      L.Exempts x ∧ p = x.bind k ∧ ∀ b, (k b).Within L := by
  cases hp with
  | ends => exact .inl trivial
  | act hf hk => exact .inl fun w hw hw' => ⟨hf w hw hw', hk w hw hw'⟩
  | pause hk => exact .inl hk
  | signal hl hk => exact .inl ⟨hl, hk⟩
  | evaluate _ hk => exact .inl hk
  | run hr hk => exact .inl ⟨hr, hk⟩
  | @exempt β x k hx hk => exact .inr ⟨β, x, k, hx, rfl, hk⟩

variable [BlockLimits L]

/-- A step is within limits, and so is what it leaves: as far as the block that is entered, and the
reactions to what is signalled, stay within them. -/
theorem Execution.Plain.step (hp : p.Plain L) (hstep : e.step t w p = some (q, w')) (hw : L.Fits w)
    (hw' : L.Fits w') (henters : ∀ s, p.Enters s → e.WithinAt L s)
    (hreact : ∀ l v k, p = .signal l v k → L.Signals l →
      ∀ r ∈ (w.locks.deliver l v).1.2, (e.react v r).Within L) : L.Allows w w' ∧ q.Within L := by
  cases p with
  | done => cases hstep
  | act f k =>
    obtain ⟨rfl, rfl⟩ := Prod.mk.inj (Option.some.inj hstep)
    exact hp w hw hw'
  | pause c k =>
    obtain ⟨r, -, rfl, rfl⟩ := Engine.step_pause hstep
    exact ⟨BlockLimits.settle w t c, hp r⟩
  | signal l v k =>
    rw [Engine.step_signal] at hstep
    obtain ⟨rfl, rfl⟩ := Prod.mk.inj (Option.some.inj hstep)
    exact ⟨BlockLimits.deliverTo w l v,
      (Engine.within_reactAll (hreact l v k rfl hp.1)).bind fun _ => hp.2 _⟩
  | evaluate s k =>
    obtain ⟨rfl, rfl⟩ := Prod.mk.inj (Option.some.inj hstep)
    exact ⟨BasicLimits.refl w, Execution.Within.bind
      (Engine.within_evaluation (henters s .evaluate)) hp⟩
  | run r k =>
    obtain ⟨rfl, rfl⟩ := Prod.mk.inj (Option.some.inj hstep)
    have hturn := Engine.turns_turn (e := e) hp.1 fun visited s hr' hnew =>
      henters s (hr' ▸ .chain hnew)
    exact ⟨BasicLimits.refl w, hturn.after hp.2⟩

/-- A step of an execution is within its limits, and so is what it leaves. Otherwise what comes next
is exempt. -/
theorem Execution.Within.step (hp : p.Within L) (hstep : e.step t w p = some (q, w'))
    (hw : L.Fits w) (hw' : L.Fits w') (henters : ∀ s, p.Enters s → e.WithinAt L s)
    (hreact : ∀ l v k, p = .signal l v k → L.Signals l →
      ∀ r ∈ (w.locks.deliver l v).1.2, (e.react v r).Within L) :
    L.Allows w w' ∧ q.Within L ∨
      ∃ (β : Type) (x : Execution β) (k : β → Execution α), L.Exempts x ∧ p = x.bind k ∧
        ∀ b, (k b).Within L :=
  hp.plain_or_exempt.imp_left fun h => h.step hstep hw hw' henters hreact

end

end BlockEngine
