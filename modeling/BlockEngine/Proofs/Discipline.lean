import BlockEngine.Proofs.Growth
import BlockEngine.Proofs.Interleaving

/-!
# What threads may do

A thread of a task acts for one generation: it stores values, starts tasks, takes part in locks.
A caller of the supervisor replaces and ends generations, in steps that follow one another.

* `View.Sound` : what every state of an engine satisfies;
* `Stage` : where a thread stands between its steps; `Effect` : one step, as a change of the view;
* `Stance`, `Talk` : the steps of a task that waits on a lock or calls a procedure;
* `Conducts` : an execution all of whose steps are effects; `Conducts.bind`, `Conducts.mono`;
* `Stands` : the same of a thread in a stance.
-/

namespace BlockEngine

/-! ## Sound states -/

/-- What every state of an engine satisfies. -/
structure View.Sound (e : Engine) (v : View) : Prop where
  locks : v.locks.Sound
  subscribed : ∀ l x, v.locks.lock? l = some x → ∀ s ∈ x.subscriptions,
    s.filter = .all ∧ s.reaction.Coherent e.environment v l
  unheard : ∀ l x signature, v.locks.lock? l = some x →
    x.key = (LockKey.procedure signature).text → x.waiters = []
  jobs : ∀ t s j, v.tasks t = some s → s.job = some j → j.Coherent v
  ordered : Keyed.Ordered v.tabs
  recorded : ∀ id x g, v.tab? id = some x → x.generation = some g → g.tab = id ∧ v.Known g
  tasksNumbered : v.TasksNumbered
  generationsNumbered : ∀ n s, v.generation? n = some s → n < v.issued

/-! ## Stages -/

/-- What a caller that has the turn has in hand: generations taken out of their tabs, one that is
destroyed with the tasks it still waits for, one that is started, the tab with the content this is
for, and the tabs that record no generation since. -/
structure Hand where
  taken : List Nat
  ending : Option (Nat × List TaskId)
  fresh : Option Generation
  source : Option (String × String)
  shut : String → Prop

def Hand.empty : Hand := ⟨[], none, none, none, fun _ => False⟩

/-- No generation is in hand. -/
structure Hand.IsFree (h : Hand) : Prop where
  taken : h.taken = []
  ending : h.ending = none
  fresh : h.fresh = none

/-- Where a thread stands: the generation it acts for, what it has in hand if it has the turn, and
the tabs it has changed and not reloaded. -/
structure Stage where
  home : Option Generation
  hand : Option Hand
  owed : List String

/-- The stage of a thread that acts for nobody. -/
def Stage.idle : Stage := ⟨none, none, []⟩

/-- The stage of a task of a generation. -/
def Stage.ofHome (g : Option Generation) : Stage := ⟨g, none, []⟩

/-- The generation a reaction acts for, if it acts for one. -/
def Reaction.home? : Reaction → Option Generation
  | .start s | .keepAndStart s | .keepAndStartIf s _ | .runBody s _ _ | .keepAndRun s _ =>
    some s.generation
  | .link .. | .host .. => none

/-- The generation a job acts for, if it acts for one. -/
def Job.home? : Job → Option Generation
  | .root s | .chain s | .chainIf s .. | .body s .. | .watch s .. => some s.generation
  | .stopAfter .. => none

/-- What a job runs is run under a context. A stop timeout runs no blocks, and fits every context. -/
def Job.RunsIn (c : Context) : Job → Prop
  | .root s | .chain s | .chainIf _ _ _ s | .body s .. => s.context = c
  | .stopAfter .. | .watch .. => True

/-- A tab may start tasks in these. -/
def TabStatus.isActive : TabStatus → Bool
  | .parsing | .running => true
  | _ => false

/-- A change of a generation that keeps its tasks and whether it is destroyed. -/
def KeepsTasks (f : GenerationState → GenerationState) : Prop :=
  ∀ s, (f s).tab = s.tab ∧ (f s).tracked = s.tracked ∧ (f s).destroyed = s.destroyed

/-- A change of a generation that keeps its listeners. -/
def KeepsListeners (f : GenerationState → GenerationState) : Prop :=
  ∀ s, (f s).listeners = s.listeners

/-- One listener more. -/
def GenerationState.addListener (s : GenerationState) (block : String) (x : Listener) :
    GenerationState :=
  { s with listeners := s.listeners ++ [(block, x)] }

/-- No listeners any more. -/
def GenerationState.dropListeners (s : GenerationState) : GenerationState :=
  { s with listeners := [] }

/-- The named value a generation holds on a block. -/
def GenerationState.value? (s : GenerationState) (block key : String) : Option Json :=
  (Keyed.get? block s.values).bind (Keyed.get? key)

/-- Hold one named value more on a block. -/
def GenerationState.store (s : GenerationState) (block key : String) (x : Json) :
    GenerationState :=
  { s with
    values := Keyed.insert block (Keyed.insert key x ((Keyed.get? block s.values).getD [])) s.values }

/-- A name that the engine itself uses, for the last result of a block or the iteration of a loop. -/
def IsReserved (key : String) : Prop := key = valueKey ∨ key = indexKey

instance : DecidablePred IsReserved := fun _ => inferInstanceAs (Decidable (_ ∨ _))

/-- A change of a generation that keeps the named values but those under reserved names. -/
def KeepsNames (f : GenerationState → GenerationState) : Prop :=
  ∀ s block key, ¬ IsReserved key → (f s).value? block key = s.value? block key

/-- The same lock table but for some subscriptions. -/
structure LockTable.Thinned {ρ : Type} (t t' : LockTable ρ) : Prop where
  held : t'.held = t.held
  mailboxes : t'.mailboxes = t.mailboxes
  issued : t'.issued = t.issued
  lock : ∀ l, t'.lock? l = t.lock? l ∨ ∃ x subs, t.lock? l = some x ∧
    t'.lock? l = some { x with subscriptions := subs } ∧ ∀ s ∈ subs, s ∈ x.subscriptions

/-- The table after some subscriptions are removed, one after the other. -/
def LockTable.unsubscribeAll {ρ : Type} (t : LockTable ρ) (ss : List (LockId × SubscriptionId)) :
    LockTable ρ :=
  ss.foldl (fun t s => (t.unsubscribe s.1 s.2).2) t

/-- Tabs of which nothing but names and contents differs, contents only of tabs in a list. A new tab
is not loaded. -/
structure Stores (owed : List String) (tabs tabs' : Keyed TabEntry) : Prop where
  entry : ∀ id x', Keyed.get? id tabs' = some x' →
    (∃ x, Keyed.get? id tabs = some x ∧ x'.status = x.status ∧ x'.generation = x.generation ∧
      (x'.content = x.content ∨ id ∈ owed)) ∨
    Keyed.get? id tabs = none ∧ x'.status = .unloaded ∧ x'.generation = none
  old : ∀ id x, Keyed.get? id tabs = some x → ∃ x', Keyed.get? id tabs' = some x'
  ordered : Keyed.Ordered tabs → Keyed.Ordered tabs'

namespace View

/-- Destroy a generation: it takes no tasks any more. -/
def destroy (v : View) (n : Nat) : View :=
  v.modifyGeneration n fun s => { s with tracked := [], destroyed := true }

/-- Change one tab. -/
def modifyTab (v : View) (id : String) (f : TabEntry → TabEntry) : View :=
  match v.tab? id with
  | some x => { v with tabs := Keyed.insert id (f x) v.tabs }
  | none => v

end View

/-! ## Effects -/

/-- One step of the task `t`, from a stage and a view to the next ones. -/
inductive Effect (e : Engine) (t : TaskId) : Stage → View → Stage → View → Prop
  | idle {γ v} : Effect e t γ v γ v
  | draw {γ v i} : v.issued ≤ i → Effect e t γ v γ { v with issued := i }
  | touch {γ v n f} :
      KeepsTasks f → KeepsNames f → KeepsListeners f → Effect e t γ v γ (v.modifyGeneration n f)
  | spawn {γ v i d c} {j : Job} :
      v.issued ≤ i → j.isBody = false → j.Coherent v → j.RunsIn c →
      (v.issued ≤ c.id ∧ c.id < i ∨ γ.hand.isSome = true) →
      Effect e t γ v γ ({ v with issued := i }.spawn j.owner d c j)
  | obtain {γ v g owner key} :
      γ.home = some g → v.Known g →
      Effect e t γ v γ { v with locks := (v.locks.obtain g.tab owner key).2 }
  | listen {γ v l g key block} {r : Reaction} :
      r.Coherent e.environment v l → (r.home? = none ∨ r.home? = some g) → γ.home = some g →
      v.Known g → v.IsLockOf g.tab key l →
      Effect e t γ v γ
        ({ v with locks := (v.locks.subscribe l .all r).2 }.modifyGeneration g.number
          (·.addListener block (.unsubscribe l (v.locks.subscribe l .all r).1)))
  | signal {γ v tab l x} :
      v.IsPlain tab l → Effect e t γ v γ { v with locks := (v.locks.deliver l x).2 }
  | cancel {γ v n c ns} {ts : List TaskId} :
      (∃ s, v.tasks t = some s ∧ s.job = some (.stopAfter n c ns)) →
      (∀ u ∈ ts, ∃ s x, v.generation? n = some s ∧ x ∈ s.tracked ∧ x.task = u ∧
        x.context.id = c) →
      Effect e t γ v γ (ts.foldl View.cancel v)
  -- Tabs and their contents.
  | put {γ v tabs owed} :
      v.IsCaller t → (∀ id ∈ γ.owed, id ∈ owed) → Stores owed v.tabs tabs →
      Effect e t γ v { γ with owed } { v with tabs }
  -- The turn.
  | enter {γ v} :
      v.IsCaller t → γ.hand = none → v.holder = none ∨ v.holder = some t →
      Effect e t γ v { γ with hand := some .empty } { v with holder := some t }
  | yield {γ v h holder} :
      γ.hand = some h → h.IsFree → Effect e t γ v { γ with hand := none } { v with holder }
  -- Generations are taken out of their tabs.
  | miss {γ v id} :
      v.tab? id = none → Effect e t γ v { γ with owed := γ.owed.filter (· ≠ id) } v
  | take {γ v h id x} {status : TabStatus} :
      γ.hand = some h → h.IsFree → v.tab? id = some x → status.isActive = false →
      Effect e t γ v
        { γ with
          hand := some ⟨x.generation.toList.map (·.number), none, none, some (id, x.content),
            (· = id)⟩
          owed := γ.owed.filter (· ≠ id) }
        { v with tabs := Keyed.insert id { x with status, generation := none } v.tabs }
  | takeAll {γ v h} :
      γ.hand = some h → h.IsFree →
      Effect e t γ v
        { γ with
          hand := some ⟨v.tabs.flatMap fun p => p.2.generation.toList.map (·.number), none, none,
            none, fun _ => True⟩ }
        { v with tabs := List.map (fun p =>
            (p.1, { p.2 with status := .stopped none, generation := none })) v.tabs }
  | withdraw {γ v h id x} :
      γ.hand = some h → h.IsFree → v.tab? id = some x →
      Effect e t γ v
        { γ with hand := some ⟨x.generation.toList.map (·.number), none, none, none, (· = id)⟩ }
        { v with tabs := Keyed.erase id v.tabs }
  -- Generations end.
  | release {γ v h tab} :
      γ.hand = some h → h.shut tab →
      Effect e t γ v γ { v with locks := (v.locks.release tab).2 }
  | releaseAll {γ v h} :
      γ.hand = some h → (∀ tab, h.shut tab) →
      Effect e t γ v γ { v with locks := v.locks.releaseAll.2 }
  | unlisten {γ v h n rest ss} :
      γ.hand = some h → h.taken = n :: rest →
      (∀ p ∈ ss, ∃ s block, v.generation? n = some s ∧
        (block, Listener.unsubscribe p.1 p.2) ∈ s.listeners) →
      Effect e t γ v γ
        ({ v with locks := v.locks.unsubscribeAll ss }.modifyGeneration n (·.dropListeners))
  | destroy {γ v h n rest} :
      γ.hand = some h → h.taken = n :: rest → h.ending = none →
      Effect e t γ v
        { γ with
          hand := some { h with
            taken := rest
            ending := some (n, (((v.generation? n).map (·.tracked)).getD []).map (·.task)) } }
        (v.destroy n)
  | abort {γ v h n u ts} :
      γ.hand = some h → h.ending = some (n, ts) → u ∈ ts → Effect e t γ v γ (v.cancel u)
  | awaited {γ v h n u ts} :
      γ.hand = some h → h.ending = some (n, u :: ts) → v.isEnded u = true →
      Effect e t γ v { γ with hand := some { h with ending := some (n, ts) } } v
  | bury {γ v h n s} :
      γ.hand = some h → h.ending = some (n, []) → v.generation? n = some s →
      Effect e t γ v { γ with hand := some { h with ending := none } }
        { v with locks := (v.locks.release s.tab).2 }
  -- Generations start.
  | mark {γ v h id c f} :
      γ.hand = some h → h.IsFree → h.source = some (id, c) →
      (∀ x, (f x).status ≠ .running ∧ (f x).content = x.content ∧
        ((f x).generation = none ∨ (f x).generation = x.generation)) →
      Effect e t γ v γ (v.modifyTab id f)
  | renew {γ v h id name c graph} :
      γ.hand = some h → h.IsFree → h.source = some (id, c) →
      Supervisor.contentGraph? c = .ok (some graph) →
      Effect e t γ v
        { γ with
          home := some ⟨v.issued, id, name, graph⟩
          hand := some { h with
            fresh := some ⟨v.issued, id, name, graph⟩
            shut := fun _ => False } }
        { v with
          issued := v.issued + 1
          generations := v.generations.insert v.issued (.new id) }
  | install {γ v h g} :
      γ.hand = some h → h.fresh = some g → v.Known g →
      Effect e t γ v { γ with home := none, hand := some { h with fresh := none, source := none } }
        (v.modifyTab g.tab fun x => { x with status := .running, generation := some g })

/-! ## Stances -/

/-- A call of a procedure: its tab and signature, the two locks of the procedure, the mailbox for
the reply, the number of the call and its arguments. -/
structure Ask where
  tab : String
  signature : String
  calls : LockId
  returns : LockId
  mailbox : MailboxId
  number : Nat
  arguments : Keyed Json

/-- What the call signals. -/
def Ask.request (a : Ask) : Json := Library.request (identText a.number) a.arguments

/-- What a thread has to do with mailboxes at the moment. -/
inductive Stance where
  | free
  /-- It waits for the next signal of a lock. -/
  | dozing (m : MailboxId)
  /-- It has a mailbox for the reply to a call. -/
  | enrolled (a : Ask)
  /-- It has signalled the call. All reactions that were due, those left, and the bodies started. -/
  | asked (a : Ask) (due left : List Reaction) (bodies : List TaskId)

/-- The mailbox a thread has. -/
def Stance.mailbox? : Stance → Option MailboxId
  | .free => none
  | .dozing m => some m
  | .enrolled a | .asked a .. => some a.mailbox

/-- The body of a procedure that a call starts. -/
def Ask.body (a : Ask) (d : Site) (arguments : List (String × String)) (returns : LockId)
    (n : Nat) : Job :=
  .body (d.withContext (d.context.child n)) arguments a.request returns

/-- One step in a stance. -/
inductive Talk (e : Engine) : Stance → View → Stance → View → Prop
  | doze {v tab l} :
      v.IsPlain tab l →
      Talk e .free v (.dozing v.locks.issued)
        { v with locks := (v.locks.register l .all).2 }
  | wake {v m} : Talk e (.dozing m) v .free { v with locks := v.locks.close m }
  | enroll {v a} :
      v.Paired a.tab a.signature a.calls a.returns → a.mailbox = v.locks.issued →
      a.number = v.issued →
      Talk e .free v (.enrolled a)
        { v with
          issued := v.issued + 1
          locks := (v.locks.register a.returns (.callId (identText a.number))).2 }
  | request {v a} :
      v.Paired a.tab a.signature a.calls a.returns →
      Talk e (.enrolled a) v
        (.asked a (v.locks.deliver a.calls a.request).1.2
          (v.locks.deliver a.calls a.request).1.2 [])
        { v with locks := (v.locks.deliver a.calls a.request).2 }
  | startBody {v a due left bodies bodies' d arguments returns s} :
      Reaction.Coherent e.environment v a.calls (.runBody d arguments returns) →
      (v.isDestroyed d.generation.number = true → bodies' = bodies) →
      (v.isDestroyed d.generation.number = false → bodies' = bodies ++ [v.taskCount]) →
      Talk e (.asked a due (.runBody d arguments returns :: left) bodies) v
        (.asked a due left bodies')
        ({ v with issued := v.issued + 1 }.spawn d.generation.number s
          (d.context.child v.issued) (a.body d arguments returns v.issued))
  | conclude {v a due bodies} :
      Talk e (.asked a due [] bodies) v .free { v with locks := v.locks.close a.mailbox }

/-- One step of a thread, in its stage and stance. -/
inductive Change (e : Engine) (t : TaskId) :
    Stage → Stance → View → Stage → Stance → View → Prop
  | effect {γ v γ' v'} : Effect e t γ v γ' v' → Change e t γ .free v γ' .free v'
  | talk {γ σ v σ' v'} : Talk e σ v σ' v' → Change e t γ σ v γ σ' v'

/-! ## Executions that conduct themselves -/

variable {α β : Type} {e : Engine} {t : TaskId}

/-- An execution that conducts itself in every state after `v`: each of its steps is an effect, and
at its end the postcondition holds. -/
inductive Conducts (e : Engine) (t : TaskId) (Q : Stage → View → α → Prop) :
    Stage → View → Execution α → Prop
  | done {γ v a} : Q γ v a → Conducts e t Q γ v (.done a)
  | act {γ v} {f : World → World} {k} (γ' : World → Stage) :
      (∀ w, v ≤ w.view → w.view.Sound e → Effect e t γ w.view (γ' w) (f w).view) →
      (∀ w, v ≤ w.view → w.view.Sound e → Conducts e t Q (γ' w) (f w).view (k w)) →
      Conducts e t Q γ v (.act f k)
  | time {γ v d k} :
      (∀ v', v ≤ v' → Conducts e t Q γ v' (k ())) → Conducts e t Q γ v (.pause (.time d) k)
  | allEnded {γ v ts d k} :
      (∀ v', v ≤ v' → Conducts e t Q γ v' (k ())) →
      Conducts e t Q γ v (.pause (.allEnded ts d) k)
  | ended {γ v h n u ts k} :
      γ.hand = some h → h.ending = some (n, u :: ts) →
      (∀ v', v ≤ v' →
        Conducts e t Q { γ with hand := some { h with ending := some (n, ts) } } v' (k ())) →
      Conducts e t Q γ v (.pause (.ended u) k)
  | turn {γ v k} :
      v.IsCaller t → γ.hand = none →
      (∀ v', v ≤ v' → Conducts e t Q { γ with hand := some .empty } v' (k ())) →
      Conducts e t Q γ v (.pause .turn k)
  | signal {γ v tab l x k} :
      v.IsPlain tab l → (∀ n v', v ≤ v' → Conducts e t Q γ v' (k n)) →
      Conducts e t Q γ v (.signal l x k)
  | evaluate {γ v k} {s : Site} :
      γ.home = some s.generation → v.Known s.generation →
      (∀ r v', v ≤ v' → Conducts e t Q γ v' (k r)) → Conducts e t Q γ v (.evaluate s k)
  | run {γ v g k} {r : Routine} :
      γ.home = some g → v.Known g → r.Coherent v g →
      (∀ s v', v ≤ v' → Conducts e t Q γ v' (k s)) → Conducts e t Q γ v (.run r k)
  | doze {γ v tab l ms k} :
      v.IsPlain tab l → (∀ d v', v ≤ v' → Conducts e t Q γ v' (k d)) →
      Conducts e t Q γ v ((Execution.awaitSignal l ms).bind k)
  | ask {γ v tab signature calls returns arguments k} :
      v.Paired tab signature calls returns →
      (∀ r v', v ≤ v' → Conducts e t Q γ v' (k r)) →
      Conducts e t Q γ v
        ((ExceptT.run (Library.ask signature calls returns arguments)).bind k)

/-- A postcondition that stays true. -/
def Lasting (Q : Stage → View → α → Prop) : Prop :=
  ∀ γ v v' a, v ≤ v' → Q γ v a → Q γ v' a

namespace Conducts

variable {Q : Stage → View → α → Prop} {R : Stage → View → β → Prop} {γ : Stage} {v v' : View}
  {p : Execution α}

theorem mono (h : Conducts e t Q γ v p) (hQ : Lasting Q) (hle : v ≤ v') :
    Conducts e t Q γ v' p := by
  induction h generalizing v' with
  | done h => exact .done (hQ _ _ _ _ hle h)
  | act γ' heff hk _ =>
    exact .act γ' (fun w hw => heff w (View.le_trans hle hw))
      (fun w hw => hk w (View.le_trans hle hw))
  | time hk _ => exact .time fun v₂ h => hk v₂ (View.le_trans hle h)
  | allEnded hk _ => exact .allEnded fun v₂ h => hk v₂ (View.le_trans hle h)
  | ended hh hn hk _ => exact .ended hh hn fun v₂ h => hk v₂ (View.le_trans hle h)
  | turn hc hh hk _ => exact .turn (hc.mono hle) hh fun v₂ h => hk v₂ (View.le_trans hle h)
  | signal hl hk _ =>
    exact .signal (hl.mono hle) fun n v₂ h => hk n v₂ (View.le_trans hle h)
  | evaluate hg hn hk _ =>
    exact .evaluate hg (hn.mono hle) fun r v₂ h => hk r v₂ (View.le_trans hle h)
  | run hg hn hr hk _ =>
    exact .run hg (hn.mono hle) (hr.mono hle) fun s v₂ h => hk s v₂ (View.le_trans hle h)
  | doze hl hk _ => exact .doze (hl.mono hle) fun d v₂ h => hk d v₂ (View.le_trans hle h)
  | ask hp hk _ => exact .ask (hp.mono hle) fun r v₂ h => hk r v₂ (View.le_trans hle h)

theorem bind (h : Conducts e t Q γ v p) {k : α → Execution β}
    (hk : ∀ γ' v' a, Q γ' v' a → Conducts e t R γ' v' (k a)) :
    Conducts e t R γ v (p.bind k) := by
  induction h with
  | done h => exact hk _ _ _ h
  | act γ' heff _ ih => exact .act γ' heff ih
  | time _ ih => exact .time ih
  | allEnded _ ih => exact .allEnded ih
  | ended hh hn _ ih => exact .ended hh hn ih
  | turn hc hh _ ih => exact .turn hc hh ih
  | signal hl _ ih => exact .signal hl ih
  | evaluate hg hn _ ih => exact .evaluate hg hn ih
  | run hg hn hr _ ih => exact .run hg hn hr ih
  | doze hl _ ih => rw [Execution.bind_assoc]; exact .doze hl ih
  | ask hp _ ih => rw [Execution.bind_assoc]; exact .ask hp ih

theorem weaken (h : Conducts e t Q γ v p) {Q' : Stage → View → α → Prop}
    (hQ : ∀ γ' v' a, Q γ' v' a → Q' γ' v' a) : Conducts e t Q' γ v p := by
  rw [← p.bind_done]
  exact h.bind fun γ' v' a ha => .done (hQ γ' v' a ha)

end Conducts

/-! ## Threads -/

/-- A thread that conducts itself, in whatever stance. -/
inductive Stands (e : Engine) (t : TaskId) (Q : Stage → View → α → Prop) (γ : Stage) :
    Stance → View → Execution α → Prop
  | free {v p} : Conducts e t Q γ v p → Stands e t Q γ .free v p
  | dozing {v m d k} :
      (∀ r v', v ≤ v' → Conducts e t Q γ v' (k r)) →
      Stands e t Q γ (.dozing m) v (.pause (.mail m (some d)) k)
  | enrolled {v a k} :
      v.Paired a.tab a.signature a.calls a.returns →
      (∀ r v', v ≤ v' → Conducts e t Q γ v' (k r)) →
      Stands e t Q γ (.enrolled a) v
        ((ExceptT.run (Library.inquire a.signature a.calls a.mailbox a.request)).bind k)
  | asked {v a due left bodies k} :
      v.Paired a.tab a.signature a.calls a.returns →
      (∀ r ∈ left, r.Coherent e.environment v a.calls) →
      (∀ r v', v ≤ v' → Conducts e t Q γ v' (k r)) →
      Stands e t Q γ (.asked a due left bodies) v
        ((e.reactAll a.request left).bind fun _ =>
          (ExceptT.run (Library.heard a.signature a.mailbox due.length)).bind k)

theorem Stands.mono {Q : Stage → View → α → Prop} {γ : Stage} {σ : Stance} {v v' : View}
    {p : Execution α} (h : Stands e t Q γ σ v p) (hQ : Lasting Q) (hle : v ≤ v') :
    Stands e t Q γ σ v' p := by
  cases h with
  | free h => exact .free (h.mono hQ hle)
  | dozing hk => exact .dozing fun r v₂ h => hk r v₂ (View.le_trans hle h)
  | enrolled hp hk => exact .enrolled (hp.mono hle) fun r v₂ h => hk r v₂ (View.le_trans hle h)
  | asked hp hr hk =>
    exact .asked (hp.mono hle) (fun r h => (hr r h).mono hle)
      fun r v₂ h => hk r v₂ (View.le_trans hle h)

end BlockEngine
