import BlockEngine.Proofs.Deliveries
import BlockEngine.Proofs.Moves
import Mathlib.Data.List.Nodup

/-!
# Waits in a run

What the moves of a run do to the locks is a history of lock events: what holds of waiters in every
history holds in every run.

* `Passage.history`, `Run.history` : the events of a move and of a run;
* `Run.tidy` : every waiter of a reachable state has a mailbox of its own;
* `Tidy.awaits`, `LockTable.kept_play`, `Awaits.of_play` : a waiter stays with its lock as long as
  its mailbox is empty; what a mailbox has been served stays in it until it is taken away;
* `LockTable.WaitedIn` : somebody waits on a lock of a tab, and what becomes of that wait.
-/

namespace BlockEngine

/-! ## Histories -/

namespace LockTable

variable {ρ : Type} {t t' : LockTable ρ} {b : MailboxId} {l : LockId} {f : SignalFilter}
  {w : Waiter} {tab : String}

theorem play_unsubscribeAll (t : LockTable ρ) (ss : List (LockId × SubscriptionId)) :
    (t.play (ss.map fun s => .unsubscribe s.1 s.2)).2 = t.unsubscribeAll ss := by
  induction ss generalizing t with
  | nil => rfl
  | cons s ss ih => exact ih _

/-- A mailbox that is not empty keeps what it has until it is taken away. -/
theorem kept_play (ht : t.Tidy) (hs : t.Sound) (h : List (LockEvent ρ)) (hb : b < t.issued)
    (hsettled : t.isPending b = false) :
    (t.play h).2.mailbox? b = t.mailbox? b ∨ (t.play h).2.mailbox? b = none := by
  by_cases hdrop : .drop b ∈ h
  · obtain ⟨h₁, h₂, rfl⟩ := List.append_of_mem hdrop
    let t₁ := (t.play h₁).2
    have ht₁ : (t₁.close b).Tidy := (ht.play hs h₁).step (hs.play h₁) (.drop b)
    have hs₁ : (t₁.close b).Sound := (hs.play h₁).close b
    have hgone : (t₁.close b).mailbox? b = none := by rw [mailbox?_close, if_pos rfl]
    have hpending : (t₁.close b).isPending b = false := by
      rw [Bool.eq_false_iff, Ne, isPending_iff hs₁.distinct, hgone]
      exact nofun
    obtain ⟨hlater, -⟩ := settled_play ht₁ hs₁ h₂ (Nat.lt_of_lt_of_le hb (issued_play t h₁))
      hpending (.inl hgone)
    right
    rw [play_append]
    exact hlater.trans hgone
  · exact .inl (settled_play ht hs h hb hsettled (.inr hdrop)).1

/-- A mailbox that is empty after a history was not taken away in its course. -/
theorem not_drop_of_empty (ht : t.Tidy) (hs : t.Sound) {h : List (LockEvent ρ)} (hb : b < t.issued)
    (hempty : (t.play h).2.mailbox? b = some ⟨b, none⟩) : .drop b ∉ h := by
  intro hdrop
  obtain ⟨h₁, h₂, rfl⟩ := List.append_of_mem hdrop
  let t₁ := (t.play h₁).2
  have hs₁ : (t₁.close b).Sound := (hs.play h₁).close b
  have hgone : (t₁.close b).mailbox? b = none := by rw [mailbox?_close, if_pos rfl]
  have hpending : (t₁.close b).isPending b = false := by
    rw [Bool.eq_false_iff, Ne, isPending_iff hs₁.distinct, hgone]
    exact nofun
  have hlater := kept_play ((ht.play hs h₁).step (hs.play h₁) (.drop b)) hs₁ h₂
    (Nat.lt_of_lt_of_le hb (issued_play t h₁)) hpending
  rw [play_append] at hempty
  have hnone := hlater.elim (·.trans hgone) id
  exact absurd (hnone.symm.trans hempty) (by simp)

/-- The waiter of an empty mailbox is the only one that waits with it. -/
theorem Tidy.awaits (ht : t.Tidy) (hw : t.Waits b l w) (hempty : t.mailbox? b = some ⟨b, none⟩) :
    t.Awaits l w.filter b := by
  have hmine := hw
  obtain ⟨x, hx, hmem, rfl⟩ := hw
  refine ⟨hempty, hmine, fun l' w' hw' => ?_⟩
  obtain rfl := ht.once _ _ _ _ _ hw' hmine
  obtain ⟨y, hy, hmem', he⟩ := hw'
  obtain rfl := Option.some.inj (hx.symm.trans hy)
  exact ⟨rfl, congrArg Waiter.filter (List.inj_on_of_nodup_map (ht.distinct _ x hx) hmem' hmem he)⟩

/-- As long as a mailbox is empty, its waiter waits on. -/
theorem Awaits.of_play (ht : t.Tidy) (hs : t.Sound) (h : t.Awaits l f b) {es : List (LockEvent ρ)}
    (hempty : (t.play es).2.mailbox? b = some ⟨b, none⟩) : (t.play es).2.Awaits l f b := by
  obtain ⟨x, hx, -⟩ := h.waits
  have hdrop := not_drop_of_empty ht hs (hs.mailbox?_lt h.empty) hempty
  obtain ⟨hmailbox, -, hstill⟩ := h.play ht hs hx es hdrop
  refine hstill ?_
  have hcontent := congrArg (Option.bind · Mailbox.content) (hmailbox.symm.trans hempty)
  exact hcontent

/-! ## Waits on the locks of a tab -/

/-- Somebody waits on a lock of a tab, with a mailbox that is empty. -/
def WaitedIn (t : LockTable ρ) (tab : String) (b : MailboxId) : Prop :=
  t.isPending b = true ∧ ∃ l x w, t.lock? l = some x ∧ x.tab = tab ∧ t.Waits b l w

namespace WaitedIn

theorem empty (h : t.WaitedIn tab b) (hs : t.Sound) : t.mailbox? b = some ⟨b, none⟩ := by
  obtain ⟨c, hc, hcontent⟩ := (isPending_iff hs.distinct b).1 h.1
  obtain ⟨-, rfl⟩ := mem_of_mailbox? hc
  rw [hc, ← hcontent]

/-- The wait has ended when the tab has no waiters any more. -/
theorem ended (h : t.WaitedIn tab b) (ht : t.Tidy) (hs : t.Sound) (es : List (LockEvent ρ))
    (hnone : ∀ l x, (t.play es).2.lock? l = some x → x.tab = tab → x.waiters = []) :
    (t.play es).2.isPending b = false := by
  refine Bool.eq_false_iff.2 fun hpending => ?_
  obtain ⟨c, hc, hcontent⟩ := (isPending_iff (hs.play es).distinct b).1 hpending
  obtain ⟨-, rfl⟩ := mem_of_mailbox? hc
  obtain ⟨l, x, w, hx, rfl, hw⟩ := h.2
  have hawaits := (ht.awaits hw (h.empty hs)).of_play ht hs (hc.trans (by rw [← hcontent]))
  obtain ⟨x', hx', hmem, -⟩ := hawaits.waits
  obtain ⟨y, hy, htab, -⟩ := released_play hs hx es
  obtain rfl := Option.some.inj (hx'.symm.trans hy)
  rw [hnone l x' hx' htab] at hmem
  cases hmem

/-- The release of the tab ends the wait. -/
theorem release (h : t.WaitedIn tab b) (ht : t.Tidy) (hs : t.Sound) :
    (t.release tab).2.mailbox? b = some ⟨b, some .released⟩ := by
  obtain ⟨l, x, w, hx, htab, hw⟩ := h.2
  exact (ht.awaits hw (h.empty hs)).step_of_answer hs hx (e := .release tab)
    (LockEvent.answer?_eq_released.2 (decide_eq_true htab.symm))

end WaitedIn
end LockTable

/-! ## The locks of a run -/

variable {e : Engine} {t : TaskId} {γ γ' : Stage} {σ σ' : Stance} {v v' : View}
  {φ φ' : TaskId → Stage} {ψ ψ' : TaskId → Stance} {log log' ds : List Deed} {m m' : Machine}

/-- What a step does to the locks; it obtains locks for the generation that the thread acts for. -/
theorem Effect.history (h : Effect e t γ v γ' v') :
    ∃ es, v'.locks = (v.locks.play es).2 ∧ ∀ tab owner key, .obtain tab owner key ∈ es →
      ∃ g, γ.home = some g ∧ v.Known g ∧ g.tab = tab := by
  cases h with
  | touch | destroy => exact ⟨[], View.locks_modifyGeneration .., nofun⟩
  | spawn => exact ⟨[], View.locks_spawn .., nofun⟩
  | @obtain g owner key hhome hknown =>
    refine ⟨[.obtain g.tab owner key], rfl, fun tab _ _ hmem => ⟨g, hhome, hknown, ?_⟩⟩
    cases List.mem_singleton.1 hmem
    rfl
  | @listen l _ _ _ r => exact ⟨[.subscribe l .all r], View.locks_modifyGeneration .., by simp⟩
  | @signal _ l x => exact ⟨[.signal l x], rfl, by simp⟩
  | cancel => exact ⟨[], (View.cancelAll_spec ..).2.2.2.1, nofun⟩
  | @release _ tab => exact ⟨[.release tab], rfl, by simp⟩
  | @bury _ _ s => exact ⟨[.release s.tab], rfl, by simp⟩
  | releaseAll => exact ⟨[.releaseAll], rfl, by simp⟩
  | @unlisten _ _ _ ss =>
    exact ⟨ss.map fun s => .unsubscribe s.1 s.2, (View.locks_modifyGeneration ..).trans
      (LockTable.play_unsubscribeAll ..).symm, by simp⟩
  | mark | install =>
    refine ⟨[], ?_, nofun⟩
    unfold View.modifyTab
    split <;> rfl
  | _ => exact ⟨[], rfl, nofun⟩

theorem Talk.history (h : Talk e σ v σ' v') :
    ∃ es, v'.locks = (v.locks.play es).2 ∧ ∀ tab owner key, .obtain tab owner key ∉ es := by
  cases h with
  | @doze _ _ l => exact ⟨[.register l .all], rfl, by simp⟩
  | @wake _ b => exact ⟨[.drop b], rfl, by simp⟩
  | @enroll _ a => exact ⟨[.register a.returns (.callId (identText a.number))], rfl, by simp⟩
  | @request _ a => exact ⟨[.signal a.calls a.request], rfl, by simp⟩
  | startBody => exact ⟨[], View.locks_spawn .., by simp⟩
  | @conclude _ a => exact ⟨[.drop a.mailbox], rfl, by simp⟩

/-- What a move does to the locks; only the thread that performs a step obtains any. -/
theorem Passage.history (h : Passage e log m φ ψ ds v' φ' ψ') :
    ∃ es, v'.locks = (m.world.locks.play es).2 ∧ ∀ tab owner key, .obtain tab owner key ∈ es →
      ∃ t p g, ds = [.performed t p m.world] ∧ m.threads[t]? = some p ∧ (φ t).home = some g ∧
        m.world.view.Known g ∧ g.tab = tab := by
  cases h with
  | @change t p _ _ _ _ hp _ _ hchange =>
    generalize ψ t = σ at hchange
    cases hchange with
    | effect h =>
      obtain ⟨es, hes, hobtain⟩ := h.history
      refine ⟨es, hes, fun tab owner key hmem => ?_⟩
      obtain ⟨g, hhome, hknown, htab⟩ := hobtain tab owner key hmem
      exact ⟨t, p, g, rfl, hp, hhome, hknown, htab⟩
    | talk h =>
      obtain ⟨es, hes, hobtain⟩ := h.history
      exact ⟨es, hes, fun tab owner key hmem => absurd hmem (hobtain tab owner key)⟩
  | store => exact ⟨[], View.locks_modifyGeneration .., nofun⟩
  | @reply _ _ _ _ _ request returns r =>
    exact ⟨[.signal returns (Engine.replyTo request r)], rfl, by simp⟩
  | depart _ _ _ _ hlocks =>
    rcases hlocks with h | ⟨b, -, h⟩
    · exact ⟨[], h, nofun⟩
    · exact ⟨[.drop b], h, by simp⟩
  | still _ hlocks => exact ⟨[], hlocks, nofun⟩

/-- What a run does to the locks. -/
theorem Run.history (he : e.Orderly) (hc : Conducted e log m φ ψ) (hrun : Run e m log' m') :
    ∃ es, m'.world.locks = (m.world.locks.play es).2 := by
  induction hrun with
  | refl => exact ⟨[], rfl⟩
  | move hrun hmove ih =>
    obtain ⟨es, hes⟩ := ih
    obtain ⟨φ₁, ψ₁, hc₁, -⟩ := hc.extend he hrun
    obtain ⟨φ₂, ψ₂, hp, -⟩ := hc₁.move he hmove
    obtain ⟨es', hes', -⟩ := hp.history
    refine ⟨es ++ es', ?_⟩
    rw [LockTable.play_append, ← hes]
    exact hes'

/-- Every waiter of a reachable state has a mailbox of its own. -/
theorem Run.tidy (he : e.Orderly) {capacity : Nat} (hrun : Run e (.start capacity) log m) :
    m.world.locks.Tidy := by
  obtain ⟨es, hes⟩ := hrun.history he (Conducted.start e capacity)
  rw [hes]
  exact LockTable.Tidy.empty.play .empty es

end BlockEngine
