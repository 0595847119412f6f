import BlockEngine.Proofs.Work

/-!
# Steps of threads

* `Conducts.step`, `Stands.step` : a step of a thread that conducts itself is a change, after which
  the thread conducts itself still.
-/

namespace BlockEngine

variable {α : Type} {e : Engine} {t : TaskId} {Q : Stage → View → α → Prop} {γ : Stage}
  {σ : Stance} {v : View} {w w' : World} {p q : Execution α}

/-- What a step of a thread comes to. -/
def Changes (e : Engine) (t : TaskId) (Q : Stage → View → α → Prop) (γ : Stage) (σ : Stance)
    (v v' : View) (q : Execution α) : Prop :=
  ∃ γ' σ', Change e t γ σ v γ' σ' v' ∧ Stands e t Q γ' σ' v' q

theorem Changes.idle (h : Conducts e t Q γ v q) : Changes e t Q γ .free v v q :=
  ⟨γ, .free, .effect .idle, .free h⟩

/-! ## Single steps -/

namespace Engine

theorem step_pause {c : Pause} {k : c.Reply → Execution α}
    (h : e.step t w (.pause c k) = some (q, w')) :
    ∃ r, w.answer? t c = some r ∧ q = k r ∧ w' = w.settle t c := by
  obtain ⟨r, hr, hq⟩ := Option.map_eq_some_iff.1 h
  obtain ⟨rfl, rfl⟩ := Prod.mk.inj hq
  exact ⟨r, hr, rfl, rfl⟩

theorem step_signal (e : Engine) (t : TaskId) (w : World) (l : LockId) (x : Json)
    (k : Nat → Execution α) :
    e.step t w (.signal l x k) =
      some ((e.reactAll x (w.locks.deliver l x).1.2).bind fun _ =>
        k ((w.locks.deliver l x).1.1.length + (w.locks.deliver l x).1.2.length),
        (w.deliver l x).2) :=
  rfl

theorem step_awaitSignal (e : Engine) (t : TaskId) (w : World) (l : LockId) (ms : Nat)
    (k : Option Delivery → Execution α) :
    e.step t w ((Execution.awaitSignal l ms).bind k) =
      some (.pause (.mail w.locks.issued (some (w.clock + ms))) k,
        (w.withLocks (·.register l .all)).2) := by
  rw [← w.locks.register_fst l .all]
  rfl

theorem step_ask (e : Engine) (t : TaskId) (w : World) (signature : String)
    (calls returns : LockId) (arguments : Keyed Json)
    (k : Except EngineError Signal → Execution α) :
    e.step t w ((ExceptT.run (Library.ask signature calls returns arguments)).bind k) =
      some ((ExceptT.run (Library.inquire signature calls w.locks.issued
          (Library.request (identText w.issued) arguments))).bind k,
        { w with
          issued := w.issued + 1
          locks := (w.locks.register returns (.callId (identText w.issued))).2 }) := by
  rw [← w.locks.register_fst returns (.callId (identText w.issued))]
  rfl

theorem step_inquire (e : Engine) (t : TaskId) (w : World) (signature : String) (calls : LockId)
    (m : MailboxId) (x : Json) (k : Except EngineError Signal → Execution α) :
    e.step t w ((ExceptT.run (Library.inquire signature calls m x)).bind k) =
      some ((e.reactAll x (w.locks.deliver calls x).1.2).bind fun _ =>
        (ExceptT.run (Library.heard signature m ((w.locks.deliver calls x).1.1.length +
          (w.locks.deliver calls x).1.2.length))).bind k,
        (w.deliver calls x).2) :=
  rfl

end Engine

/-- The reactions due after a signal are coherent. -/
theorem View.Sound.coherent_deliver (hs : v.Sound e) {l : LockId} {x : Json} {r : Reaction}
    (hr : r ∈ (v.locks.deliver l x).1.2) : r.Coherent e.environment v l := by
  cases hl : v.locks.lock? l with
  | none =>
    rw [LockTable.deliver_of_none hl] at hr
    cases hr
  | some lock =>
    rw [LockTable.deliver_of_some hl] at hr
    obtain ⟨s, hs', rfl⟩ := List.mem_map.1 hr
    exact (hs.subscribed l lock hl s (List.mem_filter.1 hs').1).2

theorem Conducts.step (he : e.Orderly) (h : Conducts e t Q γ v p)
    (hle : v ≤ w.view) (hs : w.view.Sound e) (hstep : e.step t w p = some (q, w')) :
    Changes e t Q γ .free w.view w'.view q := by
  cases h with
  | done => cases hstep
  | act γ' heff hk =>
    obtain ⟨rfl, rfl⟩ := Prod.mk.inj (Option.some.inj hstep)
    exact ⟨γ' w, .free, .effect (heff w hle hs), .free (hk w hle hs)⟩
  | time hk =>
    obtain ⟨r, -, rfl, rfl⟩ := Engine.step_pause hstep
    rw [World.view_settle]
    exact .idle (hk _ hle)
  | allEnded hk =>
    obtain ⟨r, -, rfl, rfl⟩ := Engine.step_pause hstep
    rw [World.view_settle]
    exact .idle (hk _ hle)
  | ended hh hn hk =>
    obtain ⟨r, hr, rfl, rfl⟩ := Engine.step_pause hstep
    rw [World.view_settle]
    refine ⟨_, .free, .effect (.awaited hh hn ?_), .free (hk _ hle)⟩
    simp only [World.answer?] at hr
    split at hr
    · next hend => rw [World.isEnded_eq] at hend; exact hend
    · cases hr
  | turn hc hh hk =>
    obtain ⟨r, hr, rfl, rfl⟩ := Engine.step_pause hstep
    rw [World.view_settle]
    simp only [World.answer?] at hr
    split at hr
    · next hfree =>
      have hturn : w.turn.holder = none ∨ w.turn.holder = some t := by simpa using hfree
      have heff : Effect e t γ w.view _ _ := .enter (hc.mono hle) hh hturn
      exact ⟨_, .free, .effect heff, .free (hk _ (View.le_trans hle (heff.le hs)))⟩
    · cases hr
  | @signal _ _ tab l x k hl hk =>
    rw [Engine.step_signal] at hstep
    obtain ⟨rfl, rfl⟩ := Prod.mk.inj (Option.some.inj hstep)
    rw [World.view_deliver]
    have hl' := hl.mono hle
    have heff : Effect e t γ w.view γ { w.view with locks := (w.locks.deliver l x).2 } :=
      .signal hl'
    have hle' := heff.le hs
    refine ⟨γ, .free, .effect heff, .free ?_⟩
    refine Conducts.bind (Does.reactAll (fun r hr => ?_) (hl'.mono hle') _) fun γ' v' a h => ?_
    · exact (hs.coherent_deliver hr).mono hle'
    · obtain ⟨rfl, hle'', -⟩ := h
      exact hk _ v' (View.le_trans hle (View.le_trans hle' hle''))
  | evaluate hg hn hk =>
    obtain ⟨rfl, rfl⟩ := Prod.mk.inj (Option.some.inj hstep)
    refine .idle (Conducts.bind (Plays.evaluation he ⟨hg, hn.mono hle⟩) fun γ' v' a h => ?_)
    obtain ⟨rfl, hle', -⟩ := h
    exact hk a v' (View.le_trans hle hle')
  | run hg hn hr hk =>
    obtain ⟨rfl, rfl⟩ := Prod.mk.inj (Option.some.inj hstep)
    refine .idle (Conducts.bind (Plays.turn he hg (hn.mono hle) (hr.mono hle)) fun γ' v' x h => ?_)
    obtain ⟨rfl, hle', hx⟩ := h
    have hle₂ := View.le_trans hle hle'
    rcases x with err | ⟨r'⟩ | s
    · exact hk _ v' hle₂
    · exact .run hg (hn.mono hle₂) (hx _ rfl) fun s v₃ h₃ => hk s v₃ (View.le_trans hle₂ h₃)
    · exact hk _ v' hle₂
  | doze hl hk =>
    rw [Engine.step_awaitSignal] at hstep
    obtain ⟨rfl, rfl⟩ := Prod.mk.inj (Option.some.inj hstep)
    have htalk : Talk e .free w.view _ _ := .doze (hl.mono hle)
    have hle' := View.le_trans hle (htalk.le hs)
    exact ⟨γ, _, .talk htalk, .dozing fun r v' h => hk r v' (View.le_trans hle' h)⟩
  | @ask γ v tab signature calls returns arguments k hp hk =>
    rw [Engine.step_ask] at hstep
    obtain ⟨rfl, rfl⟩ := Prod.mk.inj (Option.some.inj hstep)
    let a : Ask := ⟨tab, signature, calls, returns, w.locks.issued, w.issued, arguments⟩
    have htalk : Talk e .free w.view (.enrolled a) _ := .enroll (hp.mono hle) rfl rfl
    have hle' := htalk.le hs
    exact ⟨γ, _, .talk htalk, .enrolled (hp.mono (View.le_trans hle hle')) fun r v' h =>
      hk r v' (View.le_trans hle (View.le_trans hle' h))⟩

/-! ## Dialogues -/

/-- Nobody waits for a call, so a request serves no mailbox. -/
theorem View.Sound.served_request (hs : v.Sound e) {tab signature : String}
    {calls returns : LockId} (hp : v.Paired tab signature calls returns) (x : Json) :
    (v.locks.deliver calls x).1.1 = [] := by
  obtain ⟨lock, -, hl, -, -, -, hkey, -⟩ := hp
  rw [LockTable.deliver_of_some hl]
  simp [LockTable.woken, hs.unheard calls lock signature hl hkey]

/-- A reaction to a call runs the body of a definition. -/
theorem Reaction.Coherent.runBody_of_paired {env : Environment} {tab signature : String}
    {calls returns : LockId} {r : Reaction} (h : r.Coherent env v calls)
    (hp : v.Paired tab signature calls returns) :
    ∃ d arguments returns', r = .runBody d arguments returns' := by
  rcases h.plain_or_runBody with ⟨tab', x, hx, -, hplain⟩ | hbody
  · obtain ⟨y, -, hy, -, -, -, hkey, -⟩ := hp
    obtain rfl : x = y := Option.some.inj (hx.symm.trans hy)
    exact absurd (hkey ▸ hplain) (procedure_not_plain signature)
  · exact hbody

theorem Engine.step_runBody (e : Engine) (t : TaskId) (w : World) (x : Json) (d : Site)
    (arguments : List (String × String)) (returns : LockId) (rest : List Reaction)
    (k : Unit → Execution α) :
    e.step t w ((e.reactAll x (.runBody d arguments returns :: rest)).bind k) =
      some ((e.reactAll x rest).bind k,
        ({ w with issued := w.issued + 1 }.spawn d.generation.number d.description
          (d.context.child w.issued)
          (.body (d.withContext (d.context.child w.issued)) arguments x returns)).2) :=
  rfl

theorem Engine.step_awaitReply (e : Engine) (t : TaskId) (w : World) (signature : String)
    (m : MailboxId) (k : Except EngineError Signal → Execution α) :
    e.step t w ((ExceptT.run (Library.awaitReply signature m)).bind k) =
      (w.answer? t (.mail m none)).map fun d =>
        (k (Library.outcome signature d), w.settle t (.mail m none)) :=
  rfl

/-- However a call goes on after its reactions, it gives up its mailbox. -/
theorem Engine.step_heard {signature : String} {m : MailboxId} {accepted : Nat}
    {k : Except EngineError Signal → Execution α}
    (h : e.step t w ((ExceptT.run (Library.heard signature m accepted)).bind k) = some (q, w')) :
    ∃ r, q = k r ∧ w'.view = { w.view with locks := w.locks.close m } := by
  unfold Library.heard at h
  split at h
  · obtain ⟨rfl, rfl⟩ := Prod.mk.inj (Option.some.inj h)
    exact ⟨.error (.handler (.procedureNotListening signature)), rfl, rfl⟩
  · rw [step_awaitReply] at h
    obtain ⟨d, -, hd⟩ := Option.map_eq_some_iff.1 h
    obtain ⟨rfl, rfl⟩ := Prod.mk.inj hd
    exact ⟨_, rfl, World.view_settle ..⟩

theorem Stands.step (he : e.Orderly) (h : Stands e t Q γ σ v p)
    (hle : v ≤ w.view) (hs : w.view.Sound e) (hstep : e.step t w p = some (q, w')) :
    Changes e t Q γ σ w.view w'.view q := by
  cases h with
  | free h => exact h.step he hle hs hstep
  | @dozing _ m d k hk =>
    obtain ⟨r, -, rfl, rfl⟩ := Engine.step_pause hstep
    rw [World.view_settle]
    have htalk : Talk e (.dozing m) w.view .free { w.view with locks := w.locks.close m } := .wake
    exact ⟨γ, .free, .talk htalk, .free (hk r _ (View.le_trans hle (htalk.le hs)))⟩
  | @enrolled _ a k hp hk =>
    rw [Engine.step_inquire] at hstep
    obtain ⟨rfl, rfl⟩ := Prod.mk.inj (Option.some.inj hstep)
    rw [World.view_deliver]
    have hp' := hp.mono hle
    have htalk : Talk e (.enrolled a) w.view _ _ := .request hp'
    have hle' := htalk.le hs
    have hserved : (w.locks.deliver a.calls a.request).1.1 = [] := hs.served_request hp' _
    refine ⟨γ, _, .talk htalk, ?_⟩
    rw [hserved, List.length_nil, Nat.zero_add]
    exact .asked (hp'.mono hle') (fun r hr => (hs.coherent_deliver hr).mono hle')
      fun r v' h => hk r v' (View.le_trans hle (View.le_trans hle' h))
  | @asked _ a due left bodies k hp hr hk =>
    cases left with
    | nil =>
      obtain ⟨r, rfl, hw⟩ := Engine.step_heard hstep
      rw [hw]
      have htalk : Talk e (.asked a due [] bodies) w.view .free _ := .conclude
      exact ⟨γ, .free, .talk htalk, .free (hk r _ (View.le_trans hle (htalk.le hs)))⟩
    | cons r rest =>
      have hrc := (hr r List.mem_cons_self).mono hle
      obtain ⟨d, arguments, returns, rfl⟩ := hrc.runBody_of_paired (hp.mono hle)
      rw [Engine.step_runBody] at hstep
      obtain ⟨rfl, rfl⟩ := Prod.mk.inj (Option.some.inj hstep)
      rw [World.view_spawn]
      have htalk : Talk e (.asked a due (.runBody d arguments returns :: rest) bodies) w.view
          (.asked a due rest (if w.view.isDestroyed d.generation.number then bodies
            else bodies ++ [w.taskCount])) _ :=
        .startBody hrc (s := d.description) (fun h => if_pos h)
          fun h => if_neg (by rw [h]; simp)
      have hle' := View.le_trans hle (htalk.le hs)
      exact ⟨γ, _, .talk htalk, .asked (hp.mono hle')
        (fun r' h => (hr r' (List.mem_cons_of_mem _ h)).mono hle')
        fun r v' h => hk r v' (View.le_trans hle' h)⟩

end BlockEngine
