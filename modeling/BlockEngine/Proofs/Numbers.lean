import BlockEngine.Proofs.Mailboxes
import BlockEngine.Proofs.Moves

/-!
# Numbers of calls and mailboxes

* `Stance.Follows`, `Passage.follows` : a thread gets a call or a mailbox only with a number that was
  never drawn before;
* `Passage.body` : a body that a move starts is that of the call its thread makes;
* `Passage.leaves` : a mailbox is left alone but for a reply that its waiter accepts;
* `Numbered` : what calls, mailboxes and bodies there are have numbers drawn before.
-/

namespace BlockEngine

variable {e : Engine} {t u : TaskId} {γ γ' : Stage} {σ σ' : Stance} {v v' : View}
  {φ φ' : TaskId → Stage} {ψ ψ' : TaskId → Stance} {log ds : List Deed} {m m' : Machine}
  {b : MailboxId} {n : Nat}

/-! ## Stances that follow -/

/-- A later stance keeps its call and its mailbox, or has none, or one with a new number. -/
structure Stance.Follows (v v' : View) (σ σ' : Stance) : Prop where
  mailbox : ∀ b, σ'.mailbox? = some b →
    σ.mailbox? = some b ∨ b = v.locks.issued ∧ b < v'.locks.issued
  starting : ∀ n, σ'.starting? = some n → σ.starting? = some n ∨ n = v.issued ∧ n < v'.issued

namespace Stance.Follows

theorem refl (v v' : View) (σ : Stance) : σ.Follows v v' σ := ⟨fun _ => .inl, fun _ => .inl⟩

theorem free (v v' : View) (σ : Stance) : σ.Follows v v' .free := ⟨nofun, nofun⟩

end Stance.Follows

theorem Talk.follows (h : Talk e σ v σ' v') : σ.Follows v v' σ' := by
  cases h with
  | @doze v _ l =>
    refine ⟨fun b hb => .inr ⟨(Option.some.inj hb).symm, ?_⟩, nofun⟩
    obtain rfl := Option.some.inj hb
    change _ < (v.locks.register l .all).2.issued
    rw [LockTable.issued_register]
    exact Nat.lt_succ_self _
  | wake | conclude => exact .free ..
  | @enroll v a _ hmailbox hnumber =>
    refine ⟨fun b hb => .inr ?_, fun n hn => .inr ?_⟩
    · obtain rfl := (Option.some.inj hb).symm.trans hmailbox
      change _ ∧ _ < (v.locks.register a.returns _).2.issued
      rw [LockTable.issued_register]
      exact ⟨rfl, Nat.lt_succ_self _⟩
    · obtain rfl := (Option.some.inj hn).symm.trans hnumber
      exact ⟨rfl, Nat.lt_succ_self _⟩
  | @request _ a =>
    refine ⟨fun _ => .inl, fun n hn => .inl ?_⟩
    cases hleft : (v.locks.deliver a.calls a.request).1.2 with
    | nil =>
      rw [hleft] at hn
      cases hn
    | cons r rest =>
      rw [hleft] at hn
      exact hn
  | @startBody _ _ _ left =>
    refine ⟨fun _ => .inl, fun n hn => .inl ?_⟩
    cases left with
    | nil => cases hn
    | cons r rest => exact hn

theorem Change.follows (h : Change e t γ σ v γ' σ' v') : σ.Follows v v' σ' := by
  cases h with
  | effect => exact .refl ..
  | talk h => exact h.follows

namespace Passage

theorem follows (h : Passage e log m φ ψ ds v' φ' ψ') (u : TaskId) :
    (ψ u).Follows m.world.view v' (ψ' u) := by
  cases h with
  | @change t _ _ _ σ' _ _ _ _ hchange =>
    by_cases hu : u = t
    · subst hu
      rw [setStance_same]
      exact hchange.follows
    · rw [setStance_of_ne hu]
      exact .refl ..
  | store | reply | still => exact .refl ..
  | @depart t =>
    by_cases hu : u = t
    · subst hu
      rw [setStance_same]
      exact .free ..
    · rw [setStance_of_ne hu]
      exact .refl ..

/-- A thread keeps its stance while others perform steps. -/
theorem stance_of_ne {p : Execution Unit} {w : World}
    (h : Passage e log m φ ψ [.performed t p w] v' φ' ψ') (hu : u ≠ t) : ψ' u = ψ u := by
  generalize hds : [Deed.performed t p w] = ds at h
  cases h with
  | change =>
    cases hds
    exact setStance_of_ne hu _
  | store | reply | still => rfl
  | depart hds' =>
    subst hds
    exact absurd List.mem_cons_self (hds' t p w)

/-- A thread that neither acts nor ends keeps its stance. -/
theorem stance_of_still {p : Execution Unit} (h : Passage e log m φ ψ ds v' φ' ψ')
    (hp : m.threads[u]? = some p) (hdone : p ≠ .done ()) (hend : v'.isEnded u = false)
    (hperformed : ∀ q w, Deed.performed u q w ∉ ds) (hdropped : ∀ w, Deed.dropped u w ∉ ds) :
    ψ' u = ψ u := by
  cases h with
  | @change t q =>
    refine setStance_of_ne (fun hu => ?_) _
    subst hu
    exact hperformed q m.world List.mem_cons_self
  | store | reply | still => rfl
  | @depart t _ _ _ _ hway =>
    refine setStance_of_ne (fun hu => ?_) _
    subst hu
    rcases hway p hp with h | h | h
    · exact hdone h
    · exact absurd (hend.symm.trans h) (by simp)
    · exact hdropped _ h

end Passage

/-! ## Bodies -/

/-- A task works on a body for the call with a number. -/
def View.Runs (v : View) (t : TaskId) (n : Nat) : Prop :=
  ∃ x b arguments passed returns, v.tasks t = some x ∧
    x.job = some (.body b arguments (Library.request (identText n) passed) returns)

theorem Library.request_inj {callId callId' : String} {passed passed' : Keyed Json}
    (h : Library.request callId passed = Library.request callId' passed') :
    callId = callId' ∧ passed = passed' := by
  rw [request_eq, request_eq] at h
  simpa [and_comm] using h

theorem Talk.starting (h : Talk e σ v σ' v') (hs : v.Sound e) {x : Standing} {d : Site}
    {arguments : List (String × String)} {request : Json} {returns : LockId}
    (hx : v'.tasks u = some x) (hj : x.job = some (.body d arguments request returns)) :
    (∃ y, v.tasks u = some y ∧ y.job = x.job) ∨
      ∃ n passed, σ.starting? = some n ∧ request = Library.request (identText n) passed := by
  rcases h.adds hs u x hx with ⟨y, hy, hjob, -⟩ | ⟨-, j, hbody, rfl⟩
  · exact .inl ⟨y, hy, hjob.symm⟩
  · obtain ⟨a, due, left, bodies, d', arguments', returns', rfl, -, rfl⟩ := hbody
    obtain ⟨-, -, rfl, -⟩ := Job.body.inj (Option.some.inj hj)
    exact .inr ⟨a.number, a.arguments, rfl, rfl⟩

/-- A body after a move was there before, or it is one that the thread of the move is about to
start. -/
theorem Passage.body (h : Passage e log m φ ψ ds v' φ' ψ') (hs : m.world.view.Sound e)
    {x : Standing} {d : Site} {arguments : List (String × String)} {request : Json}
    {returns : LockId} (hx : v'.tasks u = some x)
    (hj : x.job = some (.body d arguments request returns)) :
    (∃ y, m.world.view.tasks u = some y ∧ y.job = x.job) ∨
      ∃ t p n passed, ds = [.performed t p m.world] ∧ (ψ t).starting? = some n ∧
        request = Library.request (identText n) passed := by
  cases h with
  | @change t p _ _ _ _ _ _ _ hchange =>
    generalize hσ : ψ t = σ at hchange
    cases hchange with
    | effect h =>
      rcases h.adds hs u x hx with ⟨y, hy, hjob, -⟩ | ⟨-, j, hbody, rfl⟩
      · exact .inl ⟨y, hy, hjob.symm⟩
      · obtain rfl := Option.some.inj hj
        cases hbody
    | talk h =>
      refine (h.starting hs hx hj).imp_right fun ⟨n, passed, hn, hrequest⟩ => ?_
      exact ⟨t, p, n, passed, rfl, hσ ▸ hn, hrequest⟩
  | store =>
    rw [View.tasks_modifyGeneration] at hx
    exact .inl ⟨x, hx, rfl⟩
  | reply => exact .inl ⟨x, hx, rfl⟩
  | depart _ _ _ hsettles | still hsettles =>
    obtain ⟨y, hy, hyj⟩ := hsettles.task u x _ hx hj
    exact .inl ⟨y, hy, hyj.trans hj.symm⟩

/-- A task that works on a body for a call did so before, or the thread of the move is about to
start bodies for that call. -/
theorem Passage.runs (h : Passage e log m φ ψ ds v' φ' ψ') (hs : m.world.view.Sound e)
    (hruns : v'.Runs u n) :
    m.world.view.Runs u n ∨ ∃ t p n', ds = [.performed t p m.world] ∧
      (ψ t).starting? = some n' ∧ identText n' = identText n := by
  obtain ⟨x, d, arguments, passed, returns, hx, hj⟩ := hruns
  rcases h.body hs hx hj with ⟨y, hy, hyj⟩ | ⟨t, p, n', passed', hds, hn', hrequest⟩
  · exact .inl ⟨y, d, arguments, passed, returns, hy, hyj.trans hj⟩
  · exact .inr ⟨t, p, n', hds, hn', (Library.request_inj hrequest).1.symm⟩

/-- A body that has replied after a move did so before, or the move is its reply. -/
theorem Passage.replied (h : Passage e log m φ ψ ds v' φ' ψ') {x : Standing} {d : Site}
    {arguments : List (String × String)} {request : Json} {returns : LockId}
    {r : Except EngineError Signal} (hx : m.world.view.tasks t = some x)
    (hj : x.job = some (.body d arguments request returns))
    (hr : e.Replied t d arguments request (Deed.statesOf t (log ++ ds)) r) :
    e.Replied t d arguments request (Deed.statesOf t log) r ∨
      v'.locks = (m.world.locks.deliver returns (Engine.replyTo request r)).2 := by
  rw [Deed.statesOf_append] at hr
  have hperform : ∀ (u : TaskId) (p : Execution Unit) (y : Standing),
      m.world.view.tasks u = some y → Unfinished e u (Deed.statesOf u log) y.job →
      e.Replied t d arguments request
        (Deed.statesOf t log ++ Deed.statesOf t [.performed u p m.world]) r →
      e.Replied t d arguments request (Deed.statesOf t log) r := by
    intro u p y hy hgoing hr
    by_cases hu : t = u
    · subst hu
      obtain rfl := Option.some.inj (hx.symm.trans hy)
      rw [Deed.statesOf_performed] at hr
      exact hr.of_append.resolve_right (hgoing d arguments request returns r hj)
    · rwa [Deed.statesOf_performed_of_ne hu, List.append_nil] at hr
  cases h with
  | change _ hy hgoing | store _ hy _ hgoing => exact .inl (hperform _ _ _ hy hgoing hr)
  | @reply u p y d' arguments' request' returns' r' _ hy hyj _ hreplay =>
    by_cases hu : t = u
    · subst hu
      obtain rfl := Option.some.inj (hx.symm.trans hy)
      obtain ⟨rfl, rfl, rfl, rfl⟩ := Job.body.inj (Option.some.inj (hj.symm.trans hyj))
      rw [Deed.statesOf_performed] at hr
      refine hr.of_append.imp_right fun hend => ?_
      obtain rfl := Execution.done.inj (Option.some.inj (hend.symm.trans hreplay))
      rfl
    · rw [Deed.statesOf_performed_of_ne hu, List.append_nil] at hr
      exact .inl hr
  | depart hds =>
    rw [Deed.statesOf_eq_nil (hds t), List.append_nil] at hr
    exact .inl hr
  | still =>
    change e.Replied t d arguments request (Deed.statesOf t log ++ []) r at hr
    rw [List.append_nil] at hr
    exact .inl hr

/-! ## Mailboxes -/

/-- What waits with a mailbox that is still empty waits for replies, on a lock that goes on. -/
def View.Safe (v v' : View) (b : MailboxId) : Prop :=
  ∀ l w, v.locks.Waits b l w → v.locks.isPending b = true →
    ∃ x x', v.locks.lock? l = some x ∧ ¬ IsPlainKey x.key ∧ v'.locks.lock? l = some x' ∧
      x'.released = false

theorem Effect.leaves (h : Effect e t γ v γ' v') (hs : v.Sound e) (hsafe : v.Safe v' b) :
    v.locks.Leaves v'.locks b := by
  cases h with
  | touch => rw [View.locks_modifyGeneration]; exact .refl ..
  | spawn => rw [View.locks_spawn]; exact .refl ..
  | obtain => exact .obtain ..
  | listen => rw [View.locks_modifyGeneration]; exact .subscribe ..
  | signal hplain =>
    refine .deliver fun w hw hp => ?_
    obtain ⟨y, -, hy, hkey, -⟩ := hsafe _ w hw hp
    obtain ⟨z, hz, -, hplain⟩ := hplain
    obtain rfl := Option.some.inj (hy.symm.trans hz)
    exact absurd hplain hkey
  | cancel => rw [(View.cancelAll_spec ..).2.2.2.1]; exact .refl ..
  | release | bury =>
    refine .release hs.locks fun l w x hw hp hx htab => ?_
    obtain ⟨-, x', -, -, hx', hr⟩ := hsafe l w hw hp
    rw [hs.locks.lock?_release hx, if_pos htab] at hx'
    obtain rfl := Option.some.inj hx'
    cases hr
  | releaseAll =>
    refine .releaseAll hs.locks fun l w hw => ?_
    cases hp : v.locks.isPending b with
    | false => rfl
    | true =>
      obtain ⟨x, x', hx, -, hx', hr⟩ := hsafe l w hw hp
      rw [hs.locks.lock?_releaseAll hx] at hx'
      obtain rfl := Option.some.inj hx'
      cases hr
  | abort => exact .refl ..
  | unlisten =>
    rw [View.locks_modifyGeneration]
    exact .thinned (.unsubscribeAll ..)
  | destroy => rw [View.locks_destroy]; exact .refl ..
  | mark | install =>
    unfold View.modifyTab
    split <;> exact .refl ..
  | _ => exact .refl ..

theorem Talk.leaves (h : Talk e σ v σ' v') (hs : v.Sound e)
    (hb : b < v.locks.issued ∨ v'.locks.issued ≤ b)
    (hown : σ.mailbox? = some b → σ'.mailbox? = some b) : v.locks.Leaves v'.locks b := by
  have hclose : ∀ m, σ.mailbox? = some m → σ' = .free → m ≠ b := by
    rintro m hm rfl rfl
    cases hown hm
  cases h with
  | doze | enroll =>
    refine .register (fun h => ?_) ..
    subst h
    rcases hb with hb | hb
    · exact Nat.lt_irrefl _ hb
    · dsimp only at hb
      rw [LockTable.issued_register] at hb
      exact Nat.lt_irrefl _ hb
  | wake | conclude => exact .close (hclose _ rfl rfl)
  | request hp =>
    refine .deliver fun w hw _ => ?_
    obtain ⟨x, -, hx, -, -, -, hkey, -⟩ := hp
    obtain ⟨y, hy, hw, -⟩ := hw
    obtain rfl := Option.some.inj (hx.symm.trans hy)
    rw [hs.unheard _ _ _ hx hkey] at hw
    exact absurd hw List.not_mem_nil
  | startBody => rw [View.locks_spawn]; exact .refl ..

/-- A move leaves a mailbox alone that its owner keeps, unless it is empty and the move a reply that
its waiter accepts. -/
theorem Passage.leaves (h : Passage e log m φ ψ ds v' φ' ψ') (hs : m.world.view.Sound e)
    (hsafe : m.world.view.Safe v' b)
    (hb : b < m.world.locks.issued ∨ v'.locks.issued ≤ b)
    (hown : ∀ t, (ψ t).mailbox? = some b → (ψ' t).mailbox? = some b) :
    m.world.locks.Leaves v'.locks b ∨
      ∃ t p x d arguments request returns r w, ds = [.performed t p m.world] ∧
        m.world.view.tasks t = some x ∧ x.job = some (.body d arguments request returns) ∧
        e.replay t (e.bodyChain d arguments request) (Deed.statesOf t log) = some (.done r) ∧
        v'.locks = (m.world.locks.deliver returns (Engine.replyTo request r)).2 ∧
        m.world.locks.Waits b returns w ∧ m.world.locks.isPending b = true ∧
        w.filter.accepts (Engine.replyTo request r) = true := by
  cases h with
  | @change t _ _ _ σ' _ _ _ _ hchange =>
    have hown := hown t
    rw [setStance_same] at hown
    generalize ψ t = σ at hchange hown
    cases hchange with
    | effect h => exact .inl (h.leaves hs hsafe)
    | talk h => exact .inl (h.leaves hs hb hown)
  | store => rw [View.locks_modifyGeneration]; exact .inl (.refl ..)
  | @reply t p x d arguments request returns r hp hx hj _ hreplay =>
    by_cases hw : ∃ w, m.world.locks.Waits b returns w ∧ m.world.locks.isPending b = true ∧
        w.filter.accepts (Engine.replyTo request r) = true
    · obtain ⟨w, hw⟩ := hw
      exact .inr ⟨t, p, x, d, arguments, request, returns, r, w, rfl, hx, hj, hreplay, rfl, hw⟩
    · refine .inl (.deliver fun w hwaits hpending => ?_)
      exact Bool.eq_false_iff.2 fun ha => hw ⟨w, hwaits, hpending, ha⟩
  | @depart t _ _ _ _ _ _ _ hlocks =>
    rcases hlocks with hlocks | ⟨b', hb', hlocks⟩
    · rw [hlocks]
      exact .inl (.refl ..)
    · rw [hlocks]
      refine .inl (.close ?_)
      rintro rfl
      have hstill := hown t hb'
      rw [setStance_same] at hstill
      cases hstill
  | still _ hlocks => rw [hlocks]; exact .inl (.refl ..)

/-! ## Numbers in use -/

/-- What calls, mailboxes and bodies there are have numbers drawn before. -/
structure Numbered (ψ : TaskId → Stance) (v : View) : Prop where
  mailbox : ∀ t b, (ψ t).mailbox? = some b → b < v.locks.issued
  starting : ∀ t n, (ψ t).starting? = some n → n < v.issued
  waiter : ∀ b l w, v.locks.Waits b l w → b < v.locks.issued
  body : ∀ t x d arguments request returns, v.tasks t = some x →
    x.job = some (.body d arguments request returns) →
    ∃ n passed, request = Library.request (identText n) passed ∧ n < v.issued

/-- Numbers in use stay below those still to be drawn. -/
theorem Numbered.move (h : Numbered ψ m.world.view) (hs : m.world.view.Sound e)
    (hp : Passage e log m φ ψ ds v' φ' ψ') : Numbered ψ' v' := by
  have hle := hp.le hs
  refine ⟨fun t b hb => ?_, fun t n hn => ?_, fun b l w hw => ?_,
    fun t x d arguments request returns hx hj => ?_⟩
  · rcases (hp.follows t).mailbox b hb with hb | ⟨-, hb⟩
    · exact Nat.lt_of_lt_of_le (h.mailbox t b hb) hle.locks.issued
    · exact hb
  · rcases (hp.follows t).starting n hn with hn | ⟨-, hn⟩
    · exact Nat.lt_of_lt_of_le (h.starting t n hn) hle.issued
    · exact hn
  · refine Nat.lt_of_not_le fun hnew => ?_
    have hunused : ¬ b < m.world.locks.issued := fun hb =>
      Nat.lt_irrefl b (Nat.lt_of_lt_of_le hb (Nat.le_trans hle.locks.issued hnew))
    have hsafe : m.world.view.Safe v' b := fun l w hw _ => absurd (h.waiter b l w hw) hunused
    rcases hp.leaves hs hsafe (.inr hnew) fun t ht => absurd (h.mailbox t b ht) hunused with
      hleaves | ⟨t, p, x, d, arguments, request, returns, r, w, -, -, -, -, -, hw, -⟩
    · exact hunused (h.waiter b l w (hleaves.only l w hw))
    · exact hunused (h.waiter b returns w hw)
  · rcases hp.body hs hx hj with ⟨y, hy, hyj⟩ | ⟨t', p, n, passed, -, hn, rfl⟩
    · obtain ⟨n, passed, hrequest, hn⟩ := h.body t y d arguments request returns hy (hyj.trans hj)
      exact ⟨n, passed, hrequest, Nat.lt_of_lt_of_le hn hle.issued⟩
    · exact ⟨n, passed, rfl, Nat.lt_of_lt_of_le (h.starting t' n hn) hle.issued⟩

/-- At the start nothing has a number. -/
theorem Numbered.start (capacity : Nat) :
    Numbered (fun _ => .free) (World.start capacity).view where
  mailbox := nofun
  starting := nofun
  waiter := by
    rintro b l w ⟨x, hx, -⟩
    cases hx
  body t x d arguments request returns hx hj := by
    rw [(Conducted.tasks_start hx).2] at hj
    cases hj

/-- Every run keeps numbers in use below those still to be drawn. -/
theorem Conducted.numbered (he : e.Orderly) {capacity : Nat} (hrun : Run e (.start capacity) log m) :
    ∃ φ ψ, Conducted e log m φ ψ ∧ Numbered ψ m.world.view := by
  generalize hm₀ : Machine.start capacity = m₀ at hrun
  induction hrun with
  | refl =>
    subst hm₀
    exact ⟨_, _, .start e capacity, .start capacity⟩
  | move _ hmove ih =>
    obtain ⟨φ, ψ, hc, hn⟩ := ih
    obtain ⟨φ', ψ', hp, hc'⟩ := hc.move he hmove
    exact ⟨φ', ψ', hc', hn.move hc.sound hp⟩

end BlockEngine
