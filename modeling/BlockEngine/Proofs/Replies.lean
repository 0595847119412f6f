import BlockEngine.Proofs.Calls
import BlockEngine.Proofs.Script

/-!
# Replies to calls

All calls of a procedure share one lock for requests and one for replies.

* `Dial` : a call of a procedure, from the look for the lock of its calls on;
* `Dial.Progress` : how far the call has come after its steps; `Progress.others`, `Progress.own`,
  `Progress.leave` : what a move of others, of its thread, and its end make of that;
* `Run.reply_of_own_body` : it starts one body, and goes on with the reply of that body as soon as
  there is one.
-/

namespace BlockEngine

variable {e : Engine} {t u : TaskId} {v v' : View} {φ φ' : TaskId → Stage}
  {ψ ψ' : TaskId → Stance} {log log₁ log₂ ds : List Deed} {m m' : Machine} {b : MailboxId}
  {n : Nat} {returns : LockId}

/-! ## Calls -/

/-- A call of a procedure: its thread and block, the signature and the arguments, the lock it
signals, the definition that listens there, and what the thread does after the call. -/
structure Dial where
  thread : TaskId
  site : Site
  signature : String
  passed : Keyed Json
  calls : LockId
  definition : Site
  arguments : List (String × String)
  rest : Except EngineError Signal → Execution Unit

/-- The one subscription of a lock runs the body of a definition. -/
def World.DefinedBy (w : World) (calls : LockId) (d : Site) (arguments : List (String × String)) :
    Prop :=
  ∃ x id f returns, w.locks.lock? calls = some x ∧
    x.subscriptions = [⟨id, f, .runBody d arguments returns⟩]

/-- The return lock is not released before the lock of the calls. -/
theorem View.Paired.returns_held {tab signature : String} {calls : LockId}
    (h : v.Paired tab signature calls returns)
    (hheld : ∀ x, v.locks.lock? calls = some x → x.released = false) :
    ∃ y, v.locks.lock? returns = some y ∧ y.tab = tab ∧
      y.key = (LockKey.procedureReturn signature).text ∧ y.released = false := by
  obtain ⟨x, y, hx, hy, -, htab, -, hkey, hr⟩ := h
  refine ⟨y, hy, htab, hkey, Bool.eq_false_iff.2 fun h' => ?_⟩
  exact absurd ((hheld x hx).symm.trans (hr h')) (by simp)

/-- The key of a lock tells the signature as far as its hash goes. -/
theorem procedure_hash {signature signature' : String}
    (h : (LockKey.procedure signature).text = (LockKey.procedure signature').text) :
    signatureHash signature = signatureHash signature' := by
  have h : "procedure:" ++ signatureHash signature = "procedure:" ++ signatureHash signature' := h
  exact String.append_right_inj "procedure:" |>.1 h

namespace Dial

variable (c : Dial)

/-- What the thread has to do when the call begins. -/
def execution : Execution Unit :=
  (ExceptT.run (Library.dial c.site c.signature c.passed)).bind c.rest

/-- The request of the call, with its number. -/
def request (n : Nat) : Json := Library.request (identText n) c.passed

/-- The tab goes on as it is, one definition listens when the call signals, and the caller waits for
the call as long as it takes. -/
structure Undisturbed (log : List Deed) (m : Machine) : Prop where
  held : ∀ x, m.world.locks.lock? c.calls = some x → x.released = false
  alive : ∀ s, m.world.generation? c.definition.generation.number = some s → s.destroyed = false
  defined : ∀ w, (Deed.statesOf c.thread log)[2]? = some w →
    w.DefinedBy c.calls c.definition c.arguments
  distinct : ∀ i j, i < m.world.issued → j < m.world.issued → identText i = identText j → i = j
  kept : ∀ w, Deed.dropped c.thread w ∉ log

/-- The call has a mailbox on the return lock, and nobody else has it. -/
structure Enrolled (ψ : TaskId → Stance) (v : View) (b : MailboxId) (returns : LockId) : Prop where
  paired : v.Paired c.site.tab c.signature c.calls returns
  issued : b < v.locks.issued
  own : ∀ t, t ≠ c.thread → (ψ t).mailbox? ≠ some b

/-- The call has a number, and nobody has started a body for it. -/
structure Unstarted (ψ : TaskId → Stance) (v : View) (n : Nat) : Prop where
  issued : n < v.issued
  own : ∀ t, t ≠ c.thread → (ψ t).starting? ≠ some n
  none : ∀ t, ¬ v.Runs t n

/-- One task runs the body for the call, and nobody will start another one. -/
structure Started (e : Engine) (ψ : TaskId → Stance) (v : View) (n : Nat) (t : TaskId)
    (s : Context) (returns : LockId) : Prop where
  issued : n < v.issued
  quiet : ∀ u, (ψ u).starting? ≠ some n
  defines : ∃ mutation signature,
    Library.definitionSignature e.environment c.definition = .ok (mutation, signature) ∧
      signatureHash signature = signatureHash c.signature ∧ c.arguments = mutation.arguments
  task : ∃ x, v.tasks t = some x ∧
    x.job = some (.body (c.definition.withContext s) c.arguments (c.request n) returns)
  only : ∀ u, v.Runs u n → u = t

/-- The body has replied: its chain came to its end with `r` before. -/
def Replied (e : Engine) (log : List Deed) (n : Nat) (t : TaskId) (s : Context)
    (r : Except EngineError Signal) : Prop :=
  e.Replied t (c.definition.withContext s) c.arguments (c.request n) (Deed.statesOf t log) r

/-- How far the call has come after steps of its thread in some states. -/
inductive Progress (e : Engine) (log : List Deed) (ψ : TaskId → Stance) (m : Machine) :
    List World → Prop
  | found {x : Lock Reaction} :
      m.threads[c.thread]? = some
        ((ExceptT.run (Library.dialOn c.site c.signature c.calls c.passed)).bind c.rest) →
      m.world.locks.lock? c.calls = some x → x.tab = c.site.tab →
      x.key = (LockKey.procedure c.signature).text → Progress e log ψ m []
  | paired {w₀ : World} {returns : LockId} :
      m.threads[c.thread]? = some
        ((ExceptT.run (Library.ask c.signature c.calls returns c.passed)).bind c.rest) →
      m.world.view.Paired c.site.tab c.signature c.calls returns → Progress e log ψ m [w₀]
  | enrolled {w₀ w₁ : World} {returns : LockId} {b : MailboxId} :
      m.threads[c.thread]? = some
        ((ExceptT.run (Library.inquire c.signature c.calls b (c.request w₁.issued))).bind c.rest) →
      c.Enrolled ψ m.world.view b returns → c.Unstarted ψ m.world.view w₁.issued →
      m.world.locks.Awaits returns (.callId (identText w₁.issued)) b →
      Progress e log ψ m [w₀, w₁]
  | signalled {w₀ w₁ w₂ : World} {returns : LockId} {b : MailboxId} :
      m.threads[c.thread]? = some
        ((e.reactAll (c.request w₁.issued) [.runBody c.definition c.arguments returns]).bind fun _ =>
          (ExceptT.run (Library.heard c.signature b 1)).bind c.rest) →
      c.Enrolled ψ m.world.view b returns → c.Unstarted ψ m.world.view w₁.issued →
      m.world.locks.Awaits returns (.callId (identText w₁.issued)) b →
      Reaction.Coherent e.environment m.world.view c.calls
        (.runBody c.definition c.arguments returns) →
      Progress e log ψ m [w₀, w₁, w₂]
  | waiting {w₀ w₁ w₂ w₃ : World} {returns : LockId} {b : MailboxId} {t : TaskId} {s : Context} :
      m.threads[c.thread]? = some
        ((ExceptT.run (Library.awaitReply c.signature b)).bind c.rest) →
      c.Enrolled ψ m.world.view b returns →
      c.Started e ψ m.world.view w₁.issued t s returns →
      (m.world.locks.Awaits returns (.callId (identText w₁.issued)) b ∧
          ∀ r, ¬ c.Replied e log w₁.issued t s r) ∨
        (∃ r, c.Replied e log w₁.issued t s r ∧
          m.world.locks.mailbox? b = some ⟨b, some (.value (Engine.replyTo (c.request w₁.issued) r))⟩) →
      Progress e log ψ m [w₀, w₁, w₂, w₃]
  | past {w₀ w₁ w₂ w₃ : World} {ws : List World} {returns : LockId} {t : TaskId} {s : Context} :
      c.Started e ψ m.world.view w₁.issued t s returns →
      (ws = [] → m.world.view.isEnded c.thread = true) →
      Progress e log ψ m (w₀ :: w₁ :: w₂ :: w₃ :: ws)
  | gone {ws : List World} :
      m.world.view.isEnded c.thread = true → ws.length < 4 → Progress e log ψ m ws

/-! ## Moves of others -/

variable {c : Dial} {ws : List World}

theorem Undisturbed.before (h : c.Undisturbed (log ++ ds) m')
    (hle : m.world.view ≤ m'.world.view) : c.Undisturbed log m where
  held x hx := by
    obtain ⟨x', hx', -, -, hr⟩ := hle.locks.lock _ x hx
    exact Bool.eq_false_iff.2 fun h' => absurd ((h.held x' hx').symm.trans (hr h')) (by simp)
  alive s hs := by
    obtain ⟨s', hs', -, hd⟩ := hle.generation _ s hs
    exact Bool.eq_false_iff.2 fun h' => absurd ((h.alive s' hs').symm.trans (hd h')) (by simp)
  defined w hw := by
    refine h.defined w ?_
    rw [Deed.statesOf_append, List.getElem?_append_left (List.getElem?_eq_some_iff.1 hw).1]
    exact hw
  distinct i j hi hj :=
    h.distinct i j (Nat.lt_of_lt_of_le hi hle.issued) (Nat.lt_of_lt_of_le hj hle.issued)
  kept w hw := h.kept w (List.mem_append_left _ hw)

theorem Enrolled.move (h : c.Enrolled ψ m.world.view b returns) (hs : m.world.view.Sound e)
    (hp : Passage e log m φ ψ ds v' φ' ψ') : c.Enrolled ψ' v' b returns where
  paired := h.paired.mono (hp.le hs)
  issued := Nat.lt_of_lt_of_le h.issued (hp.le hs).locks.issued
  own t ht hb := by
    rcases (hp.follows t).mailbox b hb with hb | ⟨rfl, -⟩
    · exact h.own t ht hb
    · exact Nat.lt_irrefl _ h.issued

theorem Started.move {s : Context} (h : c.Started e ψ m.world.view n t s returns)
    (hs : m.world.view.Sound e) (hn : Numbered ψ m.world.view)
    (hdistinct : ∀ i j, i < m.world.issued → j < m.world.issued → identText i = identText j → i = j)
    (hp : Passage e log m φ ψ ds v' φ' ψ') : c.Started e ψ' v' n t s returns where
  issued := Nat.lt_of_lt_of_le h.issued (hp.le hs).issued
  quiet u hu := by
    rcases (hp.follows u).starting n hu with hu | ⟨rfl, -⟩
    · exact h.quiet u hu
    · exact Nat.lt_irrefl _ h.issued
  defines := h.defines
  task := by
    obtain ⟨x, hx, hj⟩ := h.task
    obtain ⟨x', hx', hj', -⟩ := (hp.le hs).task t x hx
    exact ⟨x', hx', hj'.trans hj⟩
  only u hu := by
    rcases hp.runs hs hu with hu | ⟨t', p, n', -, hn', htext⟩
    · exact h.only u hu
    · obtain rfl := hdistinct n' n (hn.starting t' n' hn') h.issued htext
      exact absurd hn' (h.quiet t')

theorem Unstarted.move (h : c.Unstarted ψ m.world.view n) (hs : m.world.view.Sound e)
    (hn : Numbered ψ m.world.view)
    (hdistinct : ∀ i j, i < m.world.issued → j < m.world.issued → identText i = identText j → i = j)
    (hp : Passage e log m φ ψ ds v' φ' ψ') (hothers : ∀ p w, Deed.performed c.thread p w ∉ ds) :
    c.Unstarted ψ' v' n where
  issued := Nat.lt_of_lt_of_le h.issued (hp.le hs).issued
  own t ht hstart := by
    rcases (hp.follows t).starting n hstart with hstart | ⟨rfl, -⟩
    · exact h.own t ht hstart
    · exact Nat.lt_irrefl _ h.issued
  none u hu := by
    rcases hp.runs hs hu with hu | ⟨t, p, n', rfl, hn', htext⟩
    · exact h.none u hu
    · obtain rfl := hdistinct n' n (hn.starting t n' hn') h.issued htext
      refine h.own t (fun ht => ?_) hn'
      exact hothers p m.world (ht ▸ List.mem_cons_self)

/-- The mailbox of a call stays as it is while others move, until the body of the call replies. -/
theorem Enrolled.awaits_or_reply (h : c.Enrolled ψ m.world.view b returns)
    (hs : m.world.view.Sound e) (hn : Numbered ψ m.world.view)
    (hp : Passage e log m φ ψ ds v' φ' ψ')
    (hheld : ∀ x, v'.locks.lock? c.calls = some x → x.released = false)
    (hstance : ψ' c.thread = ψ c.thread)
    (hawaits : m.world.locks.Awaits returns (.callId (identText n)) b) :
    v'.locks.Awaits returns (.callId (identText n)) b ∨
      ∃ t p x d arguments passed r, ds = [.performed t p m.world] ∧
        m.world.view.tasks t = some x ∧
        x.job = some (.body d arguments (Library.request (identText n) passed) returns) ∧
        e.replay t (e.bodyChain d arguments (Library.request (identText n) passed))
          (Deed.statesOf t log) = some (.done r) ∧
        v'.locks.mailbox? b = some ⟨b, some (.value
          (Engine.replyTo (Library.request (identText n) passed) r))⟩ := by
  have hsafe : m.world.view.Safe v' b := by
    intro l w hw _
    obtain ⟨rfl, -⟩ := hawaits.only l w hw
    obtain ⟨x, y, hx, hy, -, -, -, hkey, -⟩ := h.paired
    obtain ⟨y', hy', -, -, hr⟩ := (h.paired.mono (hp.le hs)).returns_held hheld
    exact ⟨y, y', hy, hkey ▸ procedureReturn_not_plain c.signature, hy', hr⟩
  have hown : ∀ t, (ψ t).mailbox? = some b → (ψ' t).mailbox? = some b := by
    intro t ht
    by_cases hu : t = c.thread
    · subst hu
      rw [hstance]
      exact ht
    · exact absurd ht (h.own t hu)
  rcases hp.leaves hs hsafe (.inl h.issued) hown with hleaves | ⟨t, p, x, d, arguments, request,
    returns', r, w, hds, hx, hj, hreplay, hlocks, hw, -, haccepts⟩
  · exact .inl (hawaits.leaves hleaves)
  · obtain ⟨rfl, hfilter⟩ := hawaits.only returns' w hw
    obtain ⟨n', passed, rfl, -⟩ := hn.body t x d arguments request returns' hx hj
    rw [hfilter, SignalFilter.accepts_replyTo, decide_eq_true_eq] at haccepts
    rw [haccepts] at hj hreplay hlocks
    refine .inr ⟨t, p, x, d, arguments, passed, r, hds, hx, hj, hreplay, ?_⟩
    rw [hlocks]
    refine hawaits.mailbox?_deliver ?_
    rw [SignalFilter.accepts_replyTo, decide_eq_true rfl]

/-- A move in which the thread of the call does nothing leaves the call as far as it has come. -/
theorem Progress.others (h : c.Progress e log ψ m ws) (hs : m.world.view.Sound e)
    (hn : Numbered ψ m.world.view) (hp : Passage e log m φ ψ ds m'.world.view φ' ψ')
    (hheld : ∀ x, m'.world.locks.lock? c.calls = some x → x.released = false)
    (hdistinct : ∀ i j, i < m.world.issued → j < m.world.issued → identText i = identText j → i = j)
    (hcaller : ∃ x, m.world.view.tasks c.thread = some x)
    (hthread : m'.threads[c.thread]? = m.threads[c.thread]?) (hstance : ψ' c.thread = ψ c.thread)
    (hothers : ∀ p w, Deed.performed c.thread p w ∉ ds) :
    c.Progress e (log ++ ds) ψ' m' ws := by
  have hle := hp.le hs
  cases h with
  | found hthread₀ hx htab hkey =>
    obtain ⟨x', hx', htab', hkey', -⟩ := hle.locks.lock _ _ hx
    exact .found (hthread.trans hthread₀) hx' (htab'.trans htab) (hkey'.trans hkey)
  | paired hthread₀ hpaired => exact .paired (hthread.trans hthread₀) (hpaired.mono hle)
  | enrolled hthread₀ henrolled hunstarted hawaits =>
    have hunstarted' := hunstarted.move hs hn hdistinct hp hothers
    rcases henrolled.awaits_or_reply hs hn hp hheld hstance hawaits with hawaits | ⟨t, -, x, d,
      arguments, passed, -, -, hx, hj, -⟩
    · exact .enrolled (hthread.trans hthread₀) (henrolled.move hs hp) hunstarted' hawaits
    · exact absurd ⟨x, d, arguments, passed, _, hx, hj⟩ (hunstarted.none t)
  | signalled hthread₀ henrolled hunstarted hawaits hcoherent =>
    have hunstarted' := hunstarted.move hs hn hdistinct hp hothers
    rcases henrolled.awaits_or_reply hs hn hp hheld hstance hawaits with hawaits | ⟨t, -, x, d,
      arguments, passed, -, -, hx, hj, -⟩
    · exact .signalled (hthread.trans hthread₀) (henrolled.move hs hp) hunstarted' hawaits
        (hcoherent.mono hle)
    · exact absurd ⟨x, d, arguments, passed, _, hx, hj⟩ (hunstarted.none t)
  | @waiting _ w₁ _ _ returns b t s hthread₀ henrolled hstarted hreply =>
    refine .waiting (hthread.trans hthread₀) (henrolled.move hs hp)
      (hstarted.move hs hn hdistinct hp) ?_
    obtain ⟨x, hx, hj⟩ := hstarted.task
    rcases hreply with ⟨hawaits, hsilent⟩ | ⟨r, hreplied, hmailbox⟩
    · rcases henrolled.awaits_or_reply hs hn hp hheld hstance hawaits with hawaits' | ⟨t', p, x', d,
        arguments, passed, r, rfl, hx', hj', hreplay, hmailbox⟩
      · refine .inl ⟨hawaits', fun r hr => ?_⟩
        rcases hp.replied hx hj hr with hr | hlocks
        · exact hsilent r hr
        · have hfull := hawaits.mailbox?_deliver (v := Engine.replyTo (c.request w₁.issued) r)
            (by unfold request; rw [SignalFilter.accepts_replyTo, decide_eq_true rfl])
          rw [← hlocks, hawaits'.empty] at hfull
          cases hfull
      · obtain rfl := hstarted.only t' ⟨x', d, arguments, passed, _, hx', hj'⟩
        obtain rfl := Option.some.inj (hx.symm.trans hx')
        obtain ⟨rfl, rfl, hrequest, -⟩ := Job.body.inj (Option.some.inj (hj.symm.trans hj'))
        rw [← hrequest] at hreplay hmailbox
        refine .inr ⟨r, ?_, hmailbox⟩
        unfold Replied
        rw [Deed.statesOf_append, Deed.statesOf_performed]
        exact ⟨_, m.world, [], rfl, hreplay⟩
    · refine .inr ⟨r, ?_, ?_⟩
      · unfold Replied
        rw [Deed.statesOf_append]
        exact hreplied.append _
      · have hfull := hs.locks.isPending_of_content hmailbox
        have hsafe : m.world.view.Safe m'.world.view b := fun l w _ hpending =>
          absurd (hfull.symm.trans hpending) (by simp)
        have hown : ∀ t, (ψ t).mailbox? = some b → (ψ' t).mailbox? = some b := by
          intro t ht
          by_cases hu : t = c.thread
          · subst hu
            rw [hstance]
            exact ht
          · exact absurd ht (henrolled.own t hu)
        rcases hp.leaves hs hsafe (.inl henrolled.issued) hown with hleaves | ⟨_, _, _, _, _, _, _,
          _, _, _, _, _, _, _, _, hpending, _⟩
        · exact hleaves.mailbox.trans hmailbox
        · exact absurd (hfull.symm.trans hpending) (by simp)
  | past hstarted hended =>
    exact .past (hstarted.move hs hn hdistinct hp) fun hws => View.isEnded_mono (hended hws) hle hcaller
  | gone hended hlength => exact .gone (View.isEnded_mono hended hle hcaller) hlength

/-! ## Steps of the call -/

/-- A definition that listens to the calls replies on the lock on which the call waits. -/
theorem Enrolled.same_returns {returns' : LockId} (h : c.Enrolled ψ v b returns) (hs : v.Sound e)
    (hheld : ∀ x, v.locks.lock? c.calls = some x → x.released = false)
    (hcoherent : Reaction.Coherent e.environment v c.calls
      (.runBody c.definition c.arguments returns')) : returns' = returns := by
  obtain ⟨signature, mutation, -, -, -, hpaired⟩ := hcoherent
  obtain ⟨y, hy, hytab, hykey, hyr⟩ := h.paired.returns_held hheld
  obtain ⟨y', hy', hytab', hykey', hyr'⟩ := hpaired.returns_held hheld
  obtain ⟨x, -, hx, -, hxtab, -, hxkey, -⟩ := h.paired
  obtain ⟨x', -, hx', -, hxtab', -, hxkey', -⟩ := hpaired
  obtain rfl := Option.some.inj (hx.symm.trans hx')
  have hhash : signatureHash signature = signatureHash c.signature :=
    procedure_hash (hxkey'.symm.trans hxkey)
  refine hs.locks.unique hy' hy hyr' hyr (hytab'.trans (hxtab'.symm.trans (hxtab.trans hytab.symm)))
    ?_
  rw [hykey', hykey]
  exact congrArg ("procedure_return:" ++ ·) hhash

section

variable {p q : Execution Unit} {w : World} {w₀ w₁ w₂ w₃ : World}

/-- It gets the return lock. -/
theorem own_found {x : Lock Reaction} (hs : m.world.view.Sound e)
    (hx : m.world.locks.lock? c.calls = some x) (htab : x.tab = c.site.tab)
    (hkey : x.key = (LockKey.procedure c.signature).text)
    (hstep : e.step c.thread m.world
      ((ExceptT.run (Library.dialOn c.site c.signature c.calls c.passed)).bind c.rest) =
      some (q, w)) :
    c.Progress e log ψ ⟨w, m.threads.insert c.thread q⟩ [m.world] := by
  rw [Engine.step_dialOn] at hstep
  obtain ⟨rfl, rfl⟩ := Prod.mk.inj (Option.some.inj hstep)
  obtain ⟨y, hy, hytab, hykey, hr⟩ := hs.locks.obtain_spec c.site.tab c.site.id
    (LockKey.procedureReturn c.signature).text
  refine .paired (by rw [threads_insert, if_pos rfl]; rfl) ⟨x, y, ?_, hy, htab, hytab, hkey, hykey,
    fun h => absurd (hr.symm.trans h) (by simp)⟩
  exact LockTable.lock?_obtain_of_some hx ..

/-- It gets a number and a mailbox that nobody has. -/
theorem own_paired (hs : m.world.view.Sound e) (hn : Numbered ψ m.world.view)
    (hpaired : m.world.view.Paired c.site.tab c.signature c.calls returns)
    (hheld : ∀ x, m.world.locks.lock? c.calls = some x → x.released = false)
    (hdistinct : ∀ i j, i < m.world.issued + 1 → j < m.world.issued + 1 →
      identText i = identText j → i = j)
    (hstance : ∀ t, t ≠ c.thread → ψ' t = ψ t)
    (hstep : e.step c.thread m.world
      ((ExceptT.run (Library.ask c.signature c.calls returns c.passed)).bind c.rest) =
      some (q, w))
    (hle : m.world.view ≤ w.view) :
    c.Progress e log ψ' ⟨w, m.threads.insert c.thread q⟩ [w₀, m.world] := by
  rw [Engine.step_ask] at hstep
  obtain ⟨rfl, rfl⟩ := Prod.mk.inj (Option.some.inj hstep)
  obtain ⟨y, hy, -, -, hr⟩ := hpaired.returns_held hheld
  refine .enrolled (by rw [threads_insert, if_pos rfl]; rfl) ⟨hpaired.mono hle, ?_, fun t ht hb => ?_⟩
    ⟨Nat.lt_succ_self _, fun t ht hstart => ?_, fun t ht => ?_⟩
    (.register hs.locks hy hr (fun l w hw => ?_) _)
  · change _ < (m.world.locks.register returns _).2.issued
    rw [LockTable.issued_register]
    exact Nat.lt_succ_self _
  · rw [hstance t ht] at hb
    exact Nat.lt_irrefl _ (hn.mailbox t _ hb)
  · rw [hstance t ht] at hstart
    exact Nat.lt_irrefl _ (hn.starting t _ hstart)
  · obtain ⟨x, d, arguments, passed, returns', hx, hj⟩ := ht
    obtain ⟨n, passed', hrequest, hlt⟩ := hn.body t x d arguments _ returns' hx hj
    have heq := hdistinct _ n (Nat.lt_succ_self _) (Nat.lt_succ_of_lt hlt)
      (Library.request_inj hrequest).1
    exact Nat.lt_irrefl _ (heq ▸ hlt)
  · exact Nat.lt_irrefl _ (hn.waiter _ l w hw)

/-- It signals the request, to which one definition reacts. -/
theorem own_enrolled (hs : m.world.view.Sound e) (henrolled : c.Enrolled ψ m.world.view b returns)
    (hunstarted : c.Unstarted ψ m.world.view w₁.issued)
    (hawaits : m.world.locks.Awaits returns (.callId (identText w₁.issued)) b)
    (hheld : ∀ x, m.world.locks.lock? c.calls = some x → x.released = false)
    (hdefined : m.world.DefinedBy c.calls c.definition c.arguments)
    (hstance : ∀ t, t ≠ c.thread → ψ' t = ψ t)
    (hstep : e.step c.thread m.world
      ((ExceptT.run (Library.inquire c.signature c.calls b (c.request w₁.issued))).bind c.rest) =
      some (q, w))
    (hle : m.world.view ≤ w.view) :
    c.Progress e log ψ' ⟨w, m.threads.insert c.thread q⟩ [w₀, w₁, m.world] := by
  rw [Engine.step_inquire] at hstep
  obtain ⟨rfl, rfl⟩ := Prod.mk.inj (Option.some.inj hstep)
  have hserved : (m.world.locks.deliver c.calls (c.request w₁.issued)).1.1 = [] :=
    hs.served_request henrolled.paired _
  obtain ⟨x, id, f, returns', hx, hsubs⟩ := hdefined
  obtain ⟨rfl, hcoherent⟩ : f = .all ∧ Reaction.Coherent e.environment m.world.view c.calls
      (.runBody c.definition c.arguments returns') := by
    simpa [hsubs] using hs.subscribed c.calls x hx
  have hreactions : (m.world.locks.deliver c.calls (c.request w₁.issued)).1.2 =
      [.runBody c.definition c.arguments returns'] := by
    rw [LockTable.deliver_of_some hx, hsubs]
    rfl
  obtain rfl : returns' = returns := henrolled.same_returns hs hheld hcoherent
  have hleaves : m.world.locks.Leaves (m.world.locks.deliver c.calls (c.request w₁.issued)).2 b := by
    refine .deliver fun w hw _ => ?_
    obtain ⟨hcalls, -⟩ := hawaits.only _ w hw
    obtain ⟨y, z, hy, hz, -, -, hykey, hzkey, -⟩ := henrolled.paired
    obtain rfl := Option.some.inj ((hcalls ▸ hy).symm.trans hz)
    exact absurd (hzkey.symm.trans hykey) (procedureReturn_ne_procedure _ _)
  have hview := World.view_deliver m.world c.calls (c.request w₁.issued)
  have hlocks : (m.world.deliver c.calls (c.request w₁.issued)).2.locks =
      (m.world.locks.deliver c.calls (c.request w₁.issued)).2 := congrArg View.locks hview
  refine .signalled (by rw [threads_insert, if_pos rfl, hserved, hreactions]; rfl)
    ⟨henrolled.paired.mono hle, ?_, fun t ht => ?_⟩
    ⟨Nat.lt_of_lt_of_le hunstarted.issued hle.issued, fun t ht => ?_, fun t ht => ?_⟩
    (hlocks ▸ hawaits.leaves hleaves) (hcoherent.mono hle)
  · exact Nat.lt_of_lt_of_le henrolled.issued hle.locks.issued
  · rw [hstance t ht]
    exact henrolled.own t ht
  · rw [hstance t ht]
    exact hunstarted.own t ht
  · refine hunstarted.none t ?_
    change (m.world.deliver c.calls (c.request w₁.issued)).2.view.Runs t w₁.issued at ht
    rw [hview] at ht
    exact ht

/-- It starts the body, and waits. -/
theorem own_signalled (hc : Conducted e log m φ ψ)
    (henrolled : c.Enrolled ψ m.world.view b returns)
    (hunstarted : c.Unstarted ψ m.world.view w₁.issued)
    (hawaits : m.world.locks.Awaits returns (.callId (identText w₁.issued)) b)
    (hcoherent : Reaction.Coherent e.environment m.world.view c.calls
      (.runBody c.definition c.arguments returns))
    (halive : ∀ s, m.world.generation? c.definition.generation.number = some s →
      s.destroyed = false)
    (hp : m.threads[c.thread]? = some p) (hstance : ∀ t, t ≠ c.thread → ψ' t = ψ t)
    (hstep : e.step c.thread m.world
      ((e.reactAll (c.request w₁.issued) [.runBody c.definition c.arguments returns]).bind fun _ =>
        (ExceptT.run (Library.heard c.signature b 1)).bind c.rest) = some (q, w))
    (hle : m.world.view ≤ w.view)
    (hc' : Conducted e (log ++ [.performed c.thread p m.world])
      ⟨w, m.threads.insert c.thread q⟩ φ' ψ') :
    c.Progress e (log ++ [.performed c.thread p m.world]) ψ' ⟨w, m.threads.insert c.thread q⟩
      [w₀, w₁, w₂, m.world] := by
  rw [Engine.step_runBody] at hstep
  obtain ⟨hq, hw⟩ := Prod.mk.inj (Option.some.inj hstep)
  have hq : (ExceptT.run (Library.awaitReply c.signature b)).bind c.rest = q := hq
  have hview := (congrArg World.view hw).symm.trans (World.view_spawn ..)
  obtain ⟨signature, mutation, hdefines, harguments, ⟨g, hg, -⟩, hpaired⟩ := hcoherent
  have hlive : ({ m.world with issued := m.world.issued + 1 } : World).view.isDestroyed
      c.definition.generation.number = false := by
    change ((m.world.view.generation? _).map _).getD true = false
    rw [hg]
    exact halive g hg
  have htasks : ∀ t, w.view.tasks t = if t = m.world.taskCount then
      some ⟨some (.body (c.definition.withContext (c.definition.context.child m.world.issued))
        c.arguments (c.request w₁.issued) returns), false, false⟩ else m.world.view.tasks t := by
    intro t
    rw [hview]
    exact View.tasks_spawn hlive ..
  have hlocks : w.locks = m.world.locks := (congrArg View.locks hview).trans (View.locks_spawn ..)
  have hnew : m.world.view.tasks m.world.taskCount = none := by
    cases hx : m.world.view.tasks m.world.taskCount with
    | none => rfl
    | some x => exact absurd (hc.sound.tasksNumbered _ x hx) (Nat.lt_irrefl _)
  have hresting : m.threads[m.world.taskCount]? = none := by
    cases hx : m.threads[m.world.taskCount]? with
    | none => rfl
    | some p' =>
      obtain ⟨x, hx, -⟩ := (hc.task _).carries p' hx
      exact absurd (hnew.symm.trans hx) (by simp)
  have hother : c.thread ≠ m.world.taskCount := fun h => by
    rw [h] at hp
    exact absurd (hresting.symm.trans hp) (by simp)
  have hsilent : Deed.statesOf m.world.taskCount (log ++ [.performed c.thread p m.world]) = [] := by
    rw [Deed.statesOf_append, Deed.statesOf_performed_of_ne (Ne.symm hother), List.append_nil]
    exact (hc.task _).untouched hresting fun x hx => absurd (hnew.symm.trans hx) (by simp)
  have hquiet : (ψ' c.thread).starting? = none := by
    obtain ⟨x, -, -, -, hcarries⟩ := (hc'.task c.thread).carries q
      (by rw [threads_insert, if_pos rfl])
    rw [← hq] at hcarries
    exact hcarries.of_pause.2
  refine .waiting (t := m.world.taskCount) (s := c.definition.context.child m.world.issued)
    (by rw [threads_insert, if_pos rfl, hq]) ⟨henrolled.paired.mono hle, ?_, fun t ht => ?_⟩
    ⟨Nat.lt_of_lt_of_le hunstarted.issued hle.issued, fun t ht => ?_,
      ⟨mutation, signature, hdefines, ?_, harguments⟩, ⟨_, (htasks _).trans (if_pos rfl), rfl⟩,
      fun t ht => ?_⟩
    (.inl ⟨hlocks ▸ hawaits, fun r hr => ?_⟩)
  · exact Nat.lt_of_lt_of_le henrolled.issued hle.locks.issued
  · rw [hstance t ht]
    exact henrolled.own t ht
  · by_cases hu : t = c.thread
    · subst hu
      exact absurd (hquiet.symm.trans ht) (by simp)
    · exact hunstarted.own t hu (hstance t hu ▸ ht)
  · obtain ⟨x, -, hx, -, -, -, hxkey, -⟩ := henrolled.paired
    obtain ⟨x', -, hx', -, -, -, hxkey', -⟩ := hpaired
    obtain rfl := Option.some.inj (hx.symm.trans hx')
    exact procedure_hash (hxkey'.symm.trans hxkey)
  · obtain ⟨x, d, arguments, passed, returns', hx, hj⟩ := ht
    rw [htasks] at hx
    split at hx
    · next ht => exact ht
    · exact absurd ⟨x, d, arguments, passed, returns', hx, hj⟩ (hunstarted.none t)
  · obtain ⟨pre, w', post, hws, -⟩ := hr
    rw [hsilent] at hws
    exact absurd hws.symm (by simp)

/-- A step of the thread of the call brings the call on. -/
theorem Progress.own (h : c.Progress e log ψ m ws) (hc : Conducted e log m φ ψ)
    (hn : Numbered ψ m.world.view) (hp : m.threads[c.thread]? = some p)
    (hstep : e.step c.thread m.world p = some (q, w))
    (hpass : Passage e log m φ ψ [.performed c.thread p m.world] w.view φ' ψ')
    (hc' : Conducted e (log ++ [.performed c.thread p m.world])
      ⟨w, m.threads.insert c.thread q⟩ φ' ψ')
    (hws : Deed.statesOf c.thread log₂ = ws)
    (hundisturbed : c.Undisturbed (log₂ ++ [.performed c.thread p m.world])
      ⟨w, m.threads.insert c.thread q⟩) :
    c.Progress e (log ++ [.performed c.thread p m.world]) ψ' ⟨w, m.threads.insert c.thread q⟩
      (ws ++ [m.world]) := by
  have hs := hc.sound
  have hle : m.world.view ≤ w.view := hpass.le hs
  have hbefore := hundisturbed.before hle
  have hstance : ∀ t, t ≠ c.thread → ψ' t = ψ t := fun t ht => hpass.stance_of_ne ht
  have hdefined : (ws ++ [m.world])[2]? = some m.world →
      m.world.DefinedBy c.calls c.definition c.arguments := fun h =>
    hundisturbed.defined m.world (by rwa [Deed.statesOf_append, Deed.statesOf_performed, hws])
  cases h with
  | found hthread hx htab hkey =>
    obtain rfl := Option.some.inj (hp.symm.trans hthread)
    exact own_found hs hx htab hkey hstep
  | paired hthread hpaired =>
    obtain rfl := Option.some.inj (hp.symm.trans hthread)
    refine own_paired hs hn hpaired hbefore.held ?_ hstance hstep hle
    have hissued : w.issued = m.world.issued + 1 := by
      rw [Engine.step_ask] at hstep
      obtain ⟨-, rfl⟩ := Prod.mk.inj (Option.some.inj hstep)
      rfl
    exact hissued ▸ hundisturbed.distinct
  | enrolled hthread henrolled hunstarted hawaits =>
    obtain rfl := Option.some.inj (hp.symm.trans hthread)
    exact own_enrolled hs henrolled hunstarted hawaits hbefore.held (hdefined rfl) hstance hstep hle
  | signalled hthread henrolled hunstarted hawaits hcoherent =>
    obtain rfl := Option.some.inj (hp.symm.trans hthread)
    exact own_signalled hc henrolled hunstarted hawaits hcoherent hbefore.alive hp hstance hstep hle
      hc'
  | waiting _ _ hstarted => exact .past (hstarted.move hs hn hbefore.distinct hpass) (by simp)
  | past hstarted => exact .past (hstarted.move hs hn hbefore.distinct hpass) (by simp)
  | gone hended => exact absurd (hended.symm.trans (hc.not_ended hp)) (by simp)

end

/-! ## Every move -/

/-- A call whose task ends has come as far as it will. -/
theorem Progress.ended (h : c.Progress e log ψ m ws) (hs : m.world.view.Sound e)
    (hn : Numbered ψ m.world.view)
    (hdistinct : ∀ i j, i < m.world.issued → j < m.world.issued → identText i = identText j → i = j)
    (hpass : Passage e log m φ ψ ds m'.world.view φ' ψ')
    (hended : m'.world.view.isEnded c.thread = true) : c.Progress e (log ++ ds) ψ' m' ws := by
  cases h with
  | found | paired | enrolled | signalled => exact .gone hended (by simp)
  | waiting _ _ hstarted => exact .past (hstarted.move hs hn hdistinct hpass) fun _ => hended
  | past hstarted => exact .past (hstarted.move hs hn hdistinct hpass) fun _ => hended
  | gone _ hlength => exact .gone hended hlength

/-- Every move takes a call on, or leaves it as far as it has come. -/
theorem Progress.move (h : c.Progress e log ψ m ws) (hc : Conducted e log m φ ψ)
    (hn : Numbered ψ m.world.view) (hcaller : ∃ x, m.world.view.tasks c.thread = some x)
    (hmove : Move e m ds m') (hpass : Passage e log m φ ψ ds m'.world.view φ' ψ')
    (hc' : Conducted e (log ++ ds) m' φ' ψ') (hws : Deed.statesOf c.thread log₂ = ws)
    (hundisturbed : c.Undisturbed (log₂ ++ ds) m') :
    c.Progress e (log ++ ds) ψ' m' (ws ++ Deed.statesOf c.thread ds) := by
  have hs := hc.sound
  have hle := hpass.le hs
  have hdistinct := (hundisturbed.before hle).distinct
  have hstay : (∀ p w, Deed.performed c.thread p w ∉ ds) →
      c.Progress e (log ++ ds) ψ' m' ws →
      c.Progress e (log ++ ds) ψ' m' (ws ++ Deed.statesOf c.thread ds) := by
    intro hds h
    rw [Deed.statesOf_eq_nil hds, List.append_nil]
    exact h
  have hgoing : ∀ p, m.threads[c.thread]? = some p → p ≠ .done () →
      c.Progress e (log ++ ds) ψ' m' (ws ++ Deed.statesOf c.thread ds) := by
    intro p hp hdone
    rcases hmove.of_thread hp hdone with ⟨q, w, hstep, rfl, rfl⟩ | ⟨hds, hthread | hended⟩ | hdropped
    · rw [Deed.statesOf_performed]
      exact h.own hc hn hp hstep hpass hc' hws hundisturbed
    · refine hstay hds (h.others hs hn hpass hundisturbed.held hdistinct hcaller hthread ?_ hds)
      refine hpass.stance_of_still hp hdone ?_ hds fun w hw =>
        hundisturbed.kept w (List.mem_append_right _ hw)
      exact hc'.not_ended (hthread.trans hp)
    · exact hstay hds (h.ended hs hn hdistinct hpass hended)
    · exact absurd (List.mem_append_right _ hdropped) (hundisturbed.kept _)
  cases h with
  | found hthread | paired hthread | enrolled hthread | signalled hthread | waiting hthread =>
    exact hgoing _ hthread nofun
  | @past _ _ _ _ ws _ _ _ hstarted hended =>
    have hended' : ws ++ Deed.statesOf c.thread ds = [] →
        m'.world.view.isEnded c.thread = true := fun hws =>
      View.isEnded_mono (hended (List.append_eq_nil_iff.1 hws).1) hle hcaller
    exact .past (hstarted.move hs hn hdistinct hpass) hended'
  | gone hended hlength =>
    exact hstay (hc.not_performed hmove hended)
      (.gone (View.isEnded_mono hended hle hcaller) hlength)

/-! ## Runs -/

/-- After its first step a call has found the lock of its calls. -/
theorem Progress.start {m₁ m₂ : Machine} {w : World} (hc : Conducted e log m₁ φ ψ)
    (hmove : Move e m₁ [.performed c.thread c.execution w] m₂)
    (hcalls : w.locks.find? c.site.tab (LockKey.procedure c.signature).text = some c.calls)
    (log' : List Deed) (ψ' : TaskId → Stance) : c.Progress e log' ψ' m₂ [] := by
  cases hmove with
  | perform hp hstep =>
    unfold execution at hstep
    rw [Engine.step_dial hcalls] at hstep
    obtain ⟨rfl, rfl⟩ := Prod.mk.inj (Option.some.inj hstep)
    obtain ⟨x, hx, htab, hkey, -⟩ := hc.sound.locks.find?_spec hcalls
    exact .found (by rw [threads_insert, if_pos rfl]) hx htab hkey

/-- How far a call has come in every run in which its tab goes on as it is. -/
theorem Progress.run (he : e.Orderly) {capacity : Nat} {w : World}
    (hrun : Run e (.start capacity) (log₁ ++ .performed c.thread c.execution w :: log₂) m)
    (hcalls : w.locks.find? c.site.tab (LockKey.procedure c.signature).text = some c.calls)
    (hundisturbed : c.Undisturbed log₂ m) :
    ∃ φ ψ, Conducted e (log₁ ++ .performed c.thread c.execution w :: log₂) m φ ψ ∧
      c.Progress e (log₁ ++ .performed c.thread c.execution w :: log₂) ψ m
        (Deed.statesOf c.thread log₂) := by
  obtain ⟨m₁, m₂, hbefore, hmove, hafter⟩ := hrun.split
  obtain ⟨φ₁, ψ₁, hc₁, hn₁⟩ := Conducted.numbered he hbefore
  obtain ⟨x, hx⟩ : ∃ x, m₁.world.view.tasks c.thread = some x := by
    cases hmove with
    | perform hp _ =>
      obtain ⟨x, hx, -⟩ := (hc₁.task _).carries _ hp
      exact ⟨x, hx⟩
  rw [List.append_cons]
  suffices ∃ φ ψ, Conducted e (log₁ ++ [.performed c.thread c.execution w] ++ log₂) m φ ψ ∧
      Numbered ψ m.world.view ∧ (∃ x, m.world.view.tasks c.thread = some x) ∧
      c.Progress e (log₁ ++ [.performed c.thread c.execution w] ++ log₂) ψ m
        (Deed.statesOf c.thread log₂) by
    obtain ⟨φ, ψ, hc, -, -, hprogress⟩ := this
    exact ⟨φ, ψ, hc, hprogress⟩
  -- By induction over the moves after the first step. What is undisturbed later is so before.
  clear hrun
  induction hafter with
  | refl =>
    obtain ⟨φ₂, ψ₂, hp, hc₂⟩ := hc₁.move he hmove
    obtain ⟨y, hy, -⟩ := (hp.le hc₁.sound).task _ x hx
    rw [List.append_nil]
    exact ⟨φ₂, ψ₂, hc₂, hn₁.move hc₁.sound hp, ⟨y, hy⟩, .start hc₁ hmove hcalls ..⟩
  | @move log₂ ds m m' hmiddle hnext ih =>
    obtain ⟨φ₂, ψ₂, hc₂, -⟩ := hc₁.extend he ((Run.single hmove).trans hmiddle)
    obtain ⟨φ₃, ψ₃, hp₃, -⟩ := hc₂.move he hnext
    obtain ⟨φ, ψ, hc, hn, ⟨y, hy⟩, hprogress⟩ := ih (hundisturbed.before (hp₃.le hc₂.sound))
    obtain ⟨φ', ψ', hp, hc'⟩ := hc.move he hnext
    obtain ⟨z, hz, -⟩ := (hp.le hc.sound).task _ y hy
    have hlater := hprogress.move hc hn ⟨y, hy⟩ hnext hp hc' rfl hundisturbed
    rw [← List.append_assoc, Deed.statesOf_append]
    exact ⟨φ', ψ', hc', hn.move hc.sound hp, ⟨z, hz⟩, hlater⟩

/-- Until it waits, a call can always go on. -/
theorem Progress.can_step (h : c.Progress e log ψ m ws) (hc : Conducted e log m φ ψ)
    (hws : ws.length < 4) {p : Execution Unit} (hp : m.threads[c.thread]? = some p) :
    ∃ q w, e.step c.thread m.world p = some (q, w) := by
  cases h with
  | found hthread | paired hthread | enrolled hthread | signalled hthread =>
    obtain rfl := Option.some.inj (hp.symm.trans hthread)
    exact ⟨_, _, rfl⟩
  | waiting | past => exact absurd hws (by simp)
  | gone hended => exact absurd (hended.symm.trans (hc.not_ended hp)) (by simp)

/-- A call that waits goes on as soon as its body has replied, and as the reply says. -/
theorem step_of_reply {p q : Execution Unit} {s : Context}
    (hthread : p = (ExceptT.run (Library.awaitReply c.signature b)).bind c.rest)
    (hreply : (m.world.locks.Awaits returns (.callId (identText n)) b ∧
        ∀ r, ¬ c.Replied e log n t s r) ∨
      (∃ r, c.Replied e log n t s r ∧
        m.world.locks.mailbox? b = some ⟨b, some (.value (Engine.replyTo (c.request n) r))⟩)) :
    (∃ w, e.step c.thread m.world p = some (q, w)) ↔
      ∃ r, c.Replied e log n t s r ∧ q = c.rest (Library.callEnd c.signature r) := by
  subst hthread
  rcases hreply with ⟨hawaits, hsilent⟩ | ⟨r, hreplied, hmailbox⟩
  · rw [Engine.step_awaitReply_of_empty hawaits.empty]
    exact ⟨nofun, fun ⟨r, hr, _⟩ => absurd hr (hsilent r)⟩
  · rw [Engine.step_awaitReply_of_value hmailbox, Library.replySignal_replyTo]
    constructor
    · rintro ⟨w, h⟩
      obtain ⟨rfl, -⟩ := Prod.mk.inj (Option.some.inj h)
      exact ⟨r, hreplied, rfl⟩
    · rintro ⟨r', hr', rfl⟩
      obtain rfl : r = r' := hreplied.unique hr'
      exact ⟨_, rfl⟩

end Dial

/-- In a tab that goes on as it is, a call of a defined signature comes without waiting to the point
where it has started exactly one run of the body, with its own arguments. There it waits for the
reply of that run, which it always gets, and goes on as the chain of that run ended. The states in
which the thread of the call performs its steps are those in which it gets the return lock, draws
its number, signals, and starts the body. -/
theorem Run.reply_of_own_body (he : e.HasCore) {capacity : Nat} {c : Dial} {w : World}
    (hrun : Run e (.start capacity) (log₁ ++ .performed c.thread c.execution w :: log₂) m)
    (hcalls : w.locks.find? c.site.tab (LockKey.procedure c.signature).text = some c.calls)
    (hundisturbed : c.Undisturbed log₂ m)
    (hhashes : ∀ mutation signature,
      Library.definitionSignature e.environment c.definition = .ok (mutation, signature) →
      signatureHash signature = signatureHash c.signature → signature = c.signature) :
    ((Deed.statesOf c.thread log₂).length < 4 → ∀ p, m.threads[c.thread]? = some p →
      ∃ q w', e.step c.thread m.world p = some (q, w')) ∧
    ∀ w₀ w₁ w₂ w₃ ws, Deed.statesOf c.thread log₂ = w₀ :: w₁ :: w₂ :: w₃ :: ws →
      ∃ t x s mutation returns,
        Library.definitionSignature e.environment c.definition = .ok (mutation, c.signature) ∧
        c.arguments = mutation.arguments ∧ m.world.task? t = some x ∧
        x.job = some (.body (c.definition.withContext s) c.arguments (c.request w₁.issued) returns) ∧
        (∀ t', m.world.view.Runs t' w₁.issued → t' = t) ∧
        (ws = [] → ∀ p q, m.threads[c.thread]? = some p →
          ((∃ w', e.step c.thread m.world p = some (q, w')) ↔
            ∃ r, c.Replied e (log₁ ++ .performed c.thread c.execution w :: log₂) w₁.issued t s r ∧
              q = c.rest (Library.callEnd c.signature r))) := by
  obtain ⟨φ, ψ, hc, hprogress⟩ := Dial.Progress.run (Engine.orderly_of_core he) hrun hcalls
    hundisturbed
  refine ⟨fun hlength p hp => hprogress.can_step hc hlength hp, fun w₀ w₁ w₂ w₃ ws hstates => ?_⟩
  have hstarted : ∀ {t s returns}, c.Started e ψ m.world.view w₁.issued t s returns →
      ∃ x mutation,
        Library.definitionSignature e.environment c.definition = .ok (mutation, c.signature) ∧
        c.arguments = mutation.arguments ∧ m.world.task? t = some x ∧
        x.job = some (.body (c.definition.withContext s) c.arguments (c.request w₁.issued) returns) ∧
        ∀ t', m.world.view.Runs t' w₁.issued → t' = t := by
    intro t s returns h
    obtain ⟨mutation, signature, hdefines, hhash, harguments⟩ := h.defines
    obtain rfl := hhashes mutation signature hdefines hhash
    obtain ⟨y, hy, hyj⟩ := h.task
    obtain ⟨x, hx, rfl⟩ := Option.map_eq_some_iff.1 hy
    exact ⟨x, mutation, hdefines, harguments, hx, hyj, h.only⟩
  rw [hstates] at hprogress
  cases hprogress with
  | @waiting _ _ _ _ returns b t s hthread _ h hreply =>
    obtain ⟨x, mutation, hdefines, harguments, hx, hj, honly⟩ := hstarted h
    refine ⟨t, x, s, mutation, returns, hdefines, harguments, hx, hj, honly, fun _ p q hp => ?_⟩
    exact Dial.step_of_reply (Option.some.inj (hp.symm.trans hthread)) hreply
  | @past _ _ _ _ _ returns t s h hended =>
    obtain ⟨x, mutation, hdefines, harguments, hx, hj, honly⟩ := hstarted h
    refine ⟨t, x, s, mutation, returns, hdefines, harguments, hx, hj, honly, fun hws p q hp => ?_⟩
    exact absurd ((hended hws).symm.trans (hc.not_ended hp)) (by simp)
  | gone _ hlength => exact absurd hlength (by simp)

/-! ## Two calls of one procedure -/

namespace Script

/-- A call of the signature p, before its first step. -/
structure Asking where
  site : Site
  passed : Keyed Json
  calls : LockId

/-- The call with which the work of a task begins. -/
def asking? (m : Machine) (t : TaskId) : Option Asking :=
  match m.liveJob? t with
  | some (.root s) =>
    match ExceptT.run (Library.callArguments engine.environment s
        ((s.block.mutation.map (·.argumentIds)).getD [])),
      m.world.locks.find? s.tab (LockKey.procedure "p").text with
    | .done (.ok passed), some calls =>
      if s.block.opcode = ⟨"procedures", "call"⟩ ∧ s.block.signature? = some "p" ∧
        (m.threads[t]?).isNone then some ⟨s, passed, calls⟩ else none
    | _, _ => none
  | _ => none

theorem asking?_spec {m : Machine} {a : Asking} (h : asking? m t = some a) :
    m.world.IsLive t (.root a.site) ∧ m.threads[t]? = none ∧
      a.site.block.opcode = ⟨"procedures", "call"⟩ ∧ a.site.block.signature? = some "p" ∧
      ExceptT.run (Library.callArguments engine.environment a.site
        ((a.site.block.mutation.map (·.argumentIds)).getD [])) = .done (.ok a.passed) ∧
      m.world.locks.find? a.site.tab (LockKey.procedure "p").text = some a.calls := by
  unfold asking? at h
  split at h
  · next s hjob =>
    split at h
    · next passed calls hpassed hcalls =>
      split at h
      · next hs =>
        obtain rfl := Option.some.inj h
        exact ⟨Machine.isLive_of_liveJob? hjob, Option.isNone_iff_eq_none.1 hs.2.2, hs.1, hs.2.1,
          hpassed, hcalls⟩
      · cases h
    · cases h
  · cases h

namespace Asking

variable (a : Asking)

/-- The call as one that the task 1 makes of a definition. -/
def dial (definition : Site) (arguments : List (String × String)) : Dial where
  thread := 1
  site := a.site
  signature := "p"
  passed := a.passed
  calls := a.calls
  definition
  arguments
  rest r := Engine.afterTurn (Engine.afterRoot a.site) (engine.afterCall [] a.site r)

/-- The machine after the first step of the call. -/
def dialed (m : Machine) : Machine where
  world := m.world
  threads := ((m.threads.insert 1 (engine.work (.root a.site))).insert 1
    (a.dial a.site []).execution).insert 1
      ((ExceptT.run (Library.dialOn a.site "p" a.calls a.passed)).bind (a.dial a.site []).rest)

/-- The definition that listens when the call signals. -/
def definition? (log : List Deed) : Option (Site × List (String × String)) :=
  ((Deed.statesOf 1 log)[2]?.bind fun w => w.locks.lock? a.calls).bind fun x =>
    match x.subscriptions with
    | [⟨_, _, .runBody d arguments _⟩] => some (d, arguments)
    | _ => none

/-- Whether the call was passed a text, waits undisturbed, and can go on. -/
def isAnswered (text : String) (log : List Deed) (m : Machine) : Bool :=
  decide ((Keyed.get? "a" a.passed).bind Json.str? = some text) &&
    (match Deed.statesOf 1 log with | [_, _, _, _] => true | _ => false) &&
    (m.threads[(1 : TaskId)]?).any (fun p => (engine.step 1 m.world p).isSome) &&
    log.all (!·.isDrop) && (m.world.locks.lock? a.calls).all (!·.released) &&
    decide (∀ i < m.world.issued, ∀ j < m.world.issued, identText i = identText j → i = j) &&
    (a.definition? log).any fun d =>
      (m.world.generation? d.1.generation.number).all (!·.destroyed) &&
        (Library.definitionSignature engine.environment d.1).toOption.any (·.2 = "p")

variable {a}

/-- The first steps of the task 1 lead to the call. -/
theorem run_dialed {m : Machine} (h : asking? m 1 = some a) (definition : Site)
    (arguments : List (String × String)) :
    Run engine m [.performed 1 (engine.work (.root a.site)) m.world,
      .performed 1 (a.dial definition arguments).execution m.world] (a.dialed m) := by
  obtain ⟨hlive, hresting, hop, hsignature, hpassed, hcalls⟩ := asking?_spec h
  have hbegin : Run engine m [] ⟨m.world, m.threads.insert 1 (engine.work (.root a.site))⟩ :=
    .single (.begin hlive hresting)
  have hask : Run engine ⟨m.world, m.threads.insert 1 (engine.work (.root a.site))⟩
      [.performed 1 (engine.work (.root a.site)) m.world]
      ⟨m.world, (m.threads.insert 1 (engine.work (.root a.site))).insert 1
        (a.dial definition arguments).execution⟩ :=
    .single (.perform Std.ExtTreeMap.getElem?_insert_self
      (Engine.step_work_call (e := engine) rfl hop hsignature hpassed 1 m.world))
  exact hbegin.trans (hask.trans (.single (.perform Std.ExtTreeMap.getElem?_insert_self
    (Engine.step_dial hcalls _))))

theorem definition?_spec {log : List Deed} {d : Site} {arguments : List (String × String)}
    (h : a.definition? log = some (d, arguments)) {w : World}
    (hw : (Deed.statesOf 1 log)[2]? = some w) : w.DefinedBy a.calls d arguments := by
  unfold definition? at h
  rw [hw] at h
  obtain ⟨x, hx, h⟩ := Option.bind_eq_some_iff.1 h
  split at h
  · next id f _ _ returns hsubs =>
    obtain ⟨rfl, rfl⟩ := Prod.mk.inj (Option.some.inj h)
    exact ⟨x, id, f, returns, hx, hsubs⟩
  · cases h

theorem of_isAnswered {text : String} {log : List Deed} {m : Machine}
    (h : a.isAnswered text log m = true) :
    ∃ d arguments mutation, (a.dial d arguments).Undisturbed log m ∧
      Library.definitionSignature engine.environment d = .ok (mutation, "p") ∧
      Keyed.get? "a" a.passed = some (.str text) ∧
      (∃ w₀ w₁ w₂ w₃, Deed.statesOf 1 log = [w₀, w₁, w₂, w₃]) ∧
      ∃ p q w, m.threads[(1 : TaskId)]? = some p ∧ engine.step 1 m.world p = some (q, w) := by
  simp only [isAnswered, Bool.and_eq_true, decide_eq_true_eq] at h
  obtain ⟨⟨⟨⟨⟨⟨htext, hstates⟩, hstep⟩, hkept⟩, hheld⟩, hdistinct⟩, hdefinition⟩ := h
  obtain ⟨⟨d, arguments⟩, hd, h⟩ := (Option.any_eq_true _ _).1 hdefinition
  obtain ⟨halive, hsignature⟩ := Bool.and_eq_true_iff.1 h
  obtain ⟨⟨mutation, signature⟩, hdefines, hp⟩ := (Option.any_eq_true _ _).1 hsignature
  obtain rfl : signature = "p" := of_decide_eq_true hp
  have hdefines : Library.definitionSignature engine.environment d = .ok (mutation, "p") := by
    cases hs : Library.definitionSignature engine.environment d with
    | error err => rw [hs] at hdefines; cases hdefines
    | ok y => rw [hs] at hdefines; rw [Option.some.inj hdefines]
  have hpassed : Keyed.get? "a" a.passed = some (.str text) := by
    obtain ⟨x, hx, htext⟩ := Option.bind_eq_some_iff.1 htext
    cases x with
    | str s => rw [hx, Option.some.inj htext]
    | _ => cases htext
  have hstates : ∃ w₀ w₁ w₂ w₃, Deed.statesOf 1 log = [w₀, w₁, w₂, w₃] := by
    split at hstates
    · next w₀ w₁ w₂ w₃ heq => exact ⟨w₀, w₁, w₂, w₃, heq⟩
    · cases hstates
  obtain ⟨p, hp, hstep⟩ := (Option.any_eq_true _ _).1 hstep
  obtain ⟨⟨q, w⟩, hstep⟩ := Option.isSome_iff_exists.1 hstep
  refine ⟨d, arguments, mutation, ⟨fun y hy => ?_, fun s hs => ?_, fun w hw => ?_,
    fun i j hi hj => hdistinct i hi j hj, fun w hw => ?_⟩, hdefines, hpassed, hstates, p, q, w, hp,
    hstep⟩
  · exact Bool.not_eq_true' _ ▸ (Option.all_eq_true _ _).1 hheld y hy
  · exact Bool.not_eq_true' _ ▸ (Option.all_eq_true _ _).1 halive s hs
  · exact definition?_spec hd hw
  · exact absurd (List.all_eq_true.1 hkept _ hw) (by simp [Deed.isDrop])

end Asking

/-- Both calls of the tab have started their bodies, and the body of the second call ends first. -/
def crossing : List Line :=
  [.perform 1 100, .begin 2, .perform 2 100, .begin 3, .begin 4, .perform 4 100, .perform 3 100]

theorem run_crossing :
    ∃ log m a log' m', Run engine (.start 10) log m ∧ asking? m 1 = some a ∧
      Run engine (a.dialed m) log' m' ∧ a.isAnswered "1" log' m' = true := by
  obtain ⟨log, m, hrun, hf⟩ := Run.of_playAll_any (e := engine) (m := .start 10)
    [.call 0 (.save "main" twoCalls), .perform 0 100]
    (f := fun _ m => (asking? m 1).any fun a =>
      ((a.dialed m).playAll engine crossing).any fun r => a.isAnswered "1" r.1 r.2)
    (by decide +kernel)
  obtain ⟨a, ha, hf⟩ := (Option.any_eq_true _ _).1 hf
  obtain ⟨log', m', hrun', hf⟩ := Run.of_playAll_any crossing (f := a.isAnswered "1") hf
  exact ⟨log, m, a, log', m', hrun, ha, hrun', hf⟩

end Script

/-- Of two calls of a procedure the first one goes on with the reply of its own body. -/
theorem reply_of_two_calls :
    ∃ c : Dial, ∃ log₁ w log₂ m w₀ w₁ w₂ w₃ t x s returns r p w',
      Run Script.engine (.start 10) (log₁ ++ .performed c.thread c.execution w :: log₂) m ∧
      c.Undisturbed log₂ m ∧ Keyed.get? "a" c.passed = some (.str "1") ∧
      Deed.statesOf c.thread log₂ = [w₀, w₁, w₂, w₃] ∧ m.world.task? t = some x ∧
      x.job = some (.body (c.definition.withContext s) c.arguments (c.request w₁.issued) returns) ∧
      c.Replied Script.engine (log₁ ++ .performed c.thread c.execution w :: log₂) w₁.issued t s r ∧
      m.threads[c.thread]? = some p ∧
      Script.engine.step c.thread m.world p =
        some (c.rest (Library.callEnd c.signature r), w') := by
  obtain ⟨log, m₁, a, log₂, m, hbefore, hasking, hafter, hanswered⟩ := Script.run_crossing
  obtain ⟨d, arguments, mutation, hundisturbed, hdefines, hpassed, ⟨w₀, w₁, w₂, w₃, hstates⟩, p, q,
    w', hp, hstep⟩ := Script.Asking.of_isAnswered hanswered
  have hrun := (hbefore.trans (Script.Asking.run_dialed hasking d arguments)).trans hafter
  rw [List.append_assoc, List.cons_append, List.singleton_append, List.append_cons] at hrun
  obtain ⟨-, -, -, -, -, hcalls⟩ := Script.asking?_spec hasking
  obtain ⟨t, x, s, mutation, returns, -, -, hx, hj, -, hgo⟩ :=
    (Run.reply_of_own_body (e := Script.engine) (c := a.dial d arguments) rfl hrun hcalls hundisturbed
      fun _ _ h _ => (Prod.mk.inj (Except.ok.inj (hdefines.symm.trans h))).2.symm).2
      w₀ w₁ w₂ w₃ [] hstates
  obtain ⟨r, hreplied, rfl⟩ := (hgo rfl p q hp).1 ⟨w', hstep⟩
  exact ⟨a.dial d arguments, _, _, log₂, m, w₀, w₁, w₂, w₃, t, x, s, returns, r, p, w', hrun,
    hundisturbed, hpassed, hstates, hx, hj, hreplied, hp, hstep⟩

end BlockEngine
