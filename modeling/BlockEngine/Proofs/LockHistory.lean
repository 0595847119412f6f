import BlockEngine.Proofs.Mailboxes

/-!
# Histories of locks

The operations on locks as events, what each of them hands to mailboxes, and what holds after any
history that began with no locks.

* `LockEvent`, `LockTable.step`, `LockTable.play` : events, one after the other;
* `LockTable.Tidy` : every waiter has a mailbox of its own;
* `hands_step` : a mailbox is handed what it then holds, and only while it is empty;
* `releasedIn_iff` : a lock is released exactly if an event ended its tab when it was there.
-/

namespace BlockEngine

/-- An operation on the locks of a program. -/
inductive LockEvent (ρ : Type) where
  | obtain (tab owner key : String)
  | register (l : LockId) (f : SignalFilter)
  | signal (l : LockId) (v : Json)
  | subscribe (l : LockId) (f : SignalFilter) (reaction : ρ)
  | unsubscribe (l : LockId) (id : SubscriptionId)
  | release (tab : String)
  | releaseAll
  /-- The owner of a mailbox gives it up. -/
  | drop (m : MailboxId)

namespace LockEvent

variable {ρ : Type}

/-- Whether the locks of a tab end. -/
def ends (tab : String) : LockEvent ρ → Bool
  | .release tab' => tab' = tab
  | .releaseAll => true
  | _ => false

end LockEvent

namespace LockTable

variable {ρ : Type} {t t' t'' : LockTable ρ} {l : LockId} {x : Lock ρ} {f : SignalFilter}
  {m : MailboxId}

/-- What is handed to which mailbox, in order. -/
abbrev Deliveries := List (MailboxId × Delivery)

/-- What a mailbox is handed. -/
def deliveredTo (m : MailboxId) (ds : Deliveries) : List Delivery :=
  (ds.filter (·.1 = m)).map (·.2)

/-- What a mailbox holds. -/
def content? (t : LockTable ρ) (m : MailboxId) : Option Delivery := (t.mailbox? m).bind (·.content)

/-- The table after an event, and what the event hands to mailboxes. A waiter of a released lock
is served with its registration. -/
def step (t : LockTable ρ) : LockEvent ρ → Deliveries × LockTable ρ
  | .obtain tab owner key => ([], (t.obtain tab owner key).2)
  | .register l f =>
    let r := t.register l f
    ((r.2.content? r.1).toList.map (r.1, ·), r.2)
  | .signal l v =>
    let r := t.deliver l v
    (r.1.1.map (·, .value v), r.2)
  | .subscribe l f reaction => ([], (t.subscribe l f reaction).2)
  | .unsubscribe l id => ([], (t.unsubscribe l id).2)
  | .release tab =>
    let r := t.release tab
    (r.1.map (·, .released), r.2)
  | .releaseAll => (t.releaseAll.1.map (·, .released), t.releaseAll.2)
  | .drop m => ([], t.close m)

/-- The table after a history, and everything handed to mailboxes in its course. -/
def play (t : LockTable ρ) : List (LockEvent ρ) → Deliveries × LockTable ρ
  | [] => ([], t)
  | e :: rest =>
    let s := t.step e
    let r := s.2.play rest
    (s.1 ++ r.1, r.2)

/-- The table after a history that began with no locks. -/
def afterAll (h : List (LockEvent ρ)) : LockTable ρ := (empty.play h).2

/-- What a mailbox was handed in the course of a history that began with no locks. -/
def received (h : List (LockEvent ρ)) (m : MailboxId) : List Delivery :=
  deliveredTo m (empty.play h).1

/-- A lock ended in the course of a history: its tab did when the lock was there. -/
def ReleasedIn (h : List (LockEvent ρ)) (l : LockId) : Prop :=
  ∃ pre e post x, h = pre ++ e :: post ∧ (afterAll pre).lock? l = some x ∧ e.ends x.tab = true

theorem deliveredTo_append (m : MailboxId) (ds ds' : Deliveries) :
    deliveredTo m (ds ++ ds') = deliveredTo m ds ++ deliveredTo m ds' := by
  simp [deliveredTo]

theorem play_append (t : LockTable ρ) (h h' : List (LockEvent ρ)) :
    t.play (h ++ h') = ((t.play h).1 ++ ((t.play h).2.play h').1, ((t.play h).2.play h').2) := by
  induction h generalizing t with
  | nil => rfl
  | cons e rest ih =>
    rw [List.cons_append, play, ih]
    simp [play]

theorem afterAll_append (h h' : List (LockEvent ρ)) :
    afterAll (h ++ h') = ((afterAll h).play h').2 := by
  unfold afterAll
  rw [play_append]

theorem received_append (h h' : List (LockEvent ρ)) (m : MailboxId) :
    received (h ++ h') m = received h m ++ deliveredTo m ((afterAll h).play h').1 := by
  unfold received afterAll
  rw [play_append, deliveredTo_append]

/-! ## Waiters have mailboxes of their own -/

/-- Mailboxes have numbers of their own, and so have the waiters of all locks. -/
structure Tidy (t : LockTable ρ) : Prop where
  ids : (t.mailboxes.map Mailbox.id).Nodup
  distinct : ∀ l x, t.lock? l = some x → (x.waiters.map Waiter.mailbox).Nodup
  numbered : ∀ l x, t.lock? l = some x → ∀ w ∈ x.waiters, w.mailbox < t.issued
  once : ∀ b l l' w w', t.Waits b l w → t.Waits b l' w' → l = l'

/-- A change by which waiters only leave. -/
structure Wanes (t t' : LockTable ρ) : Prop where
  issued : t.issued = t'.issued
  waiters : ∀ l x', t'.lock? l = some x' →
    x'.waiters = [] ∨ ∃ x, t.lock? l = some x ∧ x'.waiters.Sublist x.waiters

namespace Wanes

/-- A change of locks by one function that adds no waiter. -/
theorem modify (t : LockTable ρ) (l : LockId) (g : Lock ρ → Lock ρ)
    (hg : ∀ x, t.lock? l = some x → (g x).waiters.Sublist x.waiters) : Wanes t (t.modify l g) where
  issued := rfl
  waiters l' x' hx' := by
    rw [lock?_modify] at hx'
    split at hx'
    · next hl =>
      subst hl
      obtain ⟨x, hx, rfl⟩ := Option.map_eq_some_iff.1 hx'
      exact Or.inr ⟨x, hx, hg x hx⟩
    · exact Or.inr ⟨x', hx', List.Sublist.refl _⟩

theorem obtain (t : LockTable ρ) (tab owner key : String) : Wanes t (t.obtain tab owner key).2 where
  issued := (issued_obtain ..).symm
  waiters l x' hx' := by
    rcases lock?_obtain hx' with hx | rfl
    · exact Or.inr ⟨x', hx, List.Sublist.refl _⟩
    · exact Or.inl rfl

theorem close (t : LockTable ρ) (m : MailboxId) : Wanes t (t.close m) where
  issued := rfl
  waiters _ x' hx' := Or.inr ⟨x', hx', List.Sublist.refl _⟩

theorem deliver (t : LockTable ρ) (l : LockId) (v : Json) : Wanes t (t.deliver l v).2 := by
  cases hl : t.lock? l with
  | none =>
    rw [deliver_of_none hl]
    exact ⟨rfl, fun _ x' hx' => Or.inr ⟨x', hx', List.Sublist.refl _⟩⟩
  | some x =>
    rw [deliver_of_some hl]
    refine ⟨Eq.symm (issued_serveAll ..), fun l' x' hx' => ?_⟩
    simp only [lock?_serveAll] at hx'
    refine (modify t l _ fun y hy => ?_).waiters l' x' hx'
    obtain rfl := Option.some.inj (hl.symm.trans hy)
    exact List.filter_sublist

/-- Where some locks have ended, and nothing else has changed. -/
theorem of_ended (ls : List LockId) (hissued : t.issued = t'.issued)
    (h : ∀ l, t'.lock? l = if l ∈ ls then (t.lock? l).map Lock.ended else t.lock? l) :
    Wanes t t' where
  issued := hissued
  waiters l x' hx' := by
    rw [h] at hx'
    split at hx'
    · obtain ⟨x, -, rfl⟩ := Option.map_eq_some_iff.1 hx'
      exact Or.inl rfl
    · exact Or.inr ⟨x', hx', List.Sublist.refl _⟩

end Wanes

namespace Tidy

theorem empty : (LockTable.empty : LockTable ρ).Tidy where
  ids := by simp [LockTable.empty]
  distinct := by simp [LockTable.empty, lock?]
  numbered := by simp [LockTable.empty, lock?]
  once := by simp [Waits, LockTable.empty, lock?]

theorem wane (h : t.Tidy) (hids : (t'.mailboxes.map Mailbox.id).Nodup) (hwane : Wanes t t') :
    t'.Tidy where
  ids := hids
  distinct l x' hx' := by
    rcases hwane.waiters l x' hx' with hnil | ⟨x, hx, hsub⟩
    · rw [hnil]
      exact List.nodup_nil
    · exact (h.distinct l x hx).sublist (hsub.map _)
  numbered l x' hx' w hw := by
    rw [← hwane.issued]
    rcases hwane.waiters l x' hx' with hnil | ⟨x, hx, hsub⟩
    · rw [hnil] at hw
      cases hw
    · exact h.numbered l x hx w (hsub.mem hw)
  once b l l' w w' hw hw' := by
    have hold : ∀ l w, t'.Waits b l w → t.Waits b l w := by
      rintro l w ⟨x', hx', hmem, hb⟩
      rcases hwane.waiters l x' hx' with hnil | ⟨x, hx, hsub⟩
      · rw [hnil] at hmem
        cases hmem
      · exact ⟨x, hx, hsub.mem hmem, hb⟩
    exact h.once b l l' w w' (hold l w hw) (hold l' w' hw')

/-- A registration adds a waiter whose mailbox no other has. -/
theorem register (h : t.Tidy) (hs : t.Sound) (l : LockId) (f : SignalFilter) :
    (t.register l f).2.Tidy := by
  have hids := (hs.register l f).distinct
  have hnew : ∀ l' w, (t.register l f).2.Waits t.issued l' w → l' = l := by
    rintro l' w ⟨x, hx, hw, hb⟩
    refine Decidable.byContradiction fun hl => ?_
    rw [lock?_register_of_ne hl] at hx
    exact Nat.lt_irrefl _ (hb ▸ h.numbered l' x hx w hw)
  have honce : ∀ b l₁ l₂ w₁ w₂, (t.register l f).2.Waits b l₁ w₁ →
      (t.register l f).2.Waits b l₂ w₂ → l₁ = l₂ := by
    intro b l₁ l₂ w₁ w₂ h₁ h₂
    by_cases hb : b = t.issued
    · subst hb
      exact (hnew l₁ w₁ h₁).trans (hnew l₂ w₂ h₂).symm
    · have honly := (Leaves.register hb l f).only
      exact h.once b l₁ l₂ w₁ w₂ (honly l₁ w₁ h₁) (honly l₂ w₂ h₂)
  cases hl : t.lock? l with
  | none =>
    rw [register_of_none hl] at hids honce ⊢
    exact ⟨hids, h.distinct, fun l' x hx w hw => Nat.lt_succ_of_lt (h.numbered l' x hx w hw),
      honce⟩
  | some x =>
    cases hr : x.released with
    | true =>
      rw [register_of_some hl] at hids honce ⊢
      simp only [hr, if_true] at hids honce ⊢
      exact ⟨hids, h.distinct, fun l' x hx w hw => Nat.lt_succ_of_lt (h.numbered l' x hx w hw),
        honce⟩
    | false =>
      have hold : ∀ w ∈ x.waiters, w.mailbox < t.issued := h.numbered l x hl
      have hissued := issued_register t l f
      rw [register_of_some hl] at hids hissued honce ⊢
      simp only [hr, Bool.false_eq_true, if_false] at hids hissued honce ⊢
      refine ⟨hids, fun l' x' hx' => ?_, fun l' x' hx' w hw => ?_, honce⟩
      · rw [lock?_modify] at hx'
        split at hx'
        · next hll =>
          subst hll
          obtain ⟨y, hy, rfl⟩ := Option.map_eq_some_iff.1 hx'
          obtain rfl : x = y := Option.some.inj (hl.symm.trans hy)
          rw [List.map_append, List.nodup_append]
          refine ⟨(h.distinct l x hl).sublist (List.filter_sublist.map _), by simp, ?_⟩
          intro i hi j hj
          obtain ⟨w, hw, rfl⟩ := List.mem_map.1 hi
          rw [List.map_singleton, List.mem_singleton] at hj
          rw [hj]
          exact Nat.ne_of_lt (hold w (List.mem_filter.1 hw).1)
        · exact h.distinct l' x' hx'
      · rw [hissued]
        rw [lock?_modify] at hx'
        split at hx'
        · next hll =>
          subst hll
          obtain ⟨y, hy, rfl⟩ := Option.map_eq_some_iff.1 hx'
          obtain rfl : x = y := Option.some.inj (hl.symm.trans hy)
          rcases List.mem_append.1 hw with hw | hw
          · exact Nat.lt_succ_of_lt (hold w (List.mem_filter.1 hw).1)
          · rw [List.mem_singleton.1 hw]
            exact Nat.lt_succ_self _
        · exact Nat.lt_succ_of_lt (h.numbered l' x' hx' w hw)

end Tidy

theorem Sound.step (hs : t.Sound) (e : LockEvent ρ) : (t.step e).2.Sound := by
  cases e with
  | obtain tab owner key => exact hs.obtain tab owner key
  | register l f => exact hs.register l f
  | signal l v => exact hs.deliver l v
  | subscribe l f reaction => exact hs.subscribe l f reaction
  | unsubscribe l id => exact hs.unsubscribe l id
  | release tab => exact hs.release tab
  | releaseAll => exact hs.releaseAll
  | drop m => exact hs.close m

/-- Waiters only come by registration. -/
theorem wanes_step (e : LockEvent ρ) (he : ∀ l f, e ≠ .register l f) : Wanes t (t.step e).2 := by
  cases e with
  | obtain tab owner key => exact .obtain t tab owner key
  | register l f => exact absurd rfl (he l f)
  | signal l v => exact .deliver t l v
  | subscribe l f reaction => exact .modify t l _ fun _ _ => List.Sublist.refl _
  | unsubscribe l id => exact .modify t l _ fun _ _ => List.Sublist.refl _
  | release tab => exact .of_ended _ (Eq.symm (issued_releaseLocks ..)) (lock?_releaseLocks _ _)
  | releaseAll => exact .of_ended _ (Eq.symm (issued_releaseLocks ..)) (lock?_releaseLocks _ _)
  | drop m => exact .close t m

theorem Tidy.step (h : t.Tidy) (hs : t.Sound) (e : LockEvent ρ) : (t.step e).2.Tidy := by
  by_cases he : ∃ l f, e = .register l f
  · obtain ⟨l, f, rfl⟩ := he
    exact h.register hs l f
  · exact h.wane (hs.step e).distinct (wanes_step e fun l f hlf => he ⟨l, f, hlf⟩)

theorem issued_step (t : LockTable ρ) (e : LockEvent ρ) : t.issued ≤ (t.step e).2.issued := by
  by_cases he : ∃ l f, e = .register l f
  · obtain ⟨l, f, rfl⟩ := he
    show t.issued ≤ (t.register l f).2.issued
    rw [issued_register]
    exact Nat.le_succ _
  · exact Nat.le_of_eq (wanes_step e fun l f hlf => he ⟨l, f, hlf⟩).issued

theorem Sound.play (hs : t.Sound) (h : List (LockEvent ρ)) : (t.play h).2.Sound := by
  induction h generalizing t with
  | nil => exact hs
  | cons e rest ih => exact ih (hs.step e)

theorem Tidy.play (ht : t.Tidy) (hs : t.Sound) (h : List (LockEvent ρ)) : (t.play h).2.Tidy := by
  induction h generalizing t with
  | nil => exact ht
  | cons e rest ih => exact ih (ht.step hs e) (hs.step e)

theorem issued_play (t : LockTable ρ) (h : List (LockEvent ρ)) : t.issued ≤ (t.play h).2.issued := by
  induction h generalizing t with
  | nil => exact Nat.le_refl _
  | cons e rest ih => exact Nat.le_trans (issued_step t e) (ih _)

/-! ## What is handed to a mailbox is what it then holds -/

theorem isPending_eq (hids : (t.mailboxes.map Mailbox.id).Nodup) (m : MailboxId) :
    t.isPending m = true ↔ ∃ b, t.mailbox? m = some b ∧ t.content? m = none := by
  rw [isPending_iff hids]
  unfold content?
  constructor
  · rintro ⟨b, hb, hc⟩
    exact ⟨b, hb, by rw [hb]; exact hc⟩
  · rintro ⟨b, hb, hc⟩
    rw [hb] at hc
    exact ⟨b, hb, hc⟩

theorem content?_of_pending (hids : (t.mailboxes.map Mailbox.id).Nodup)
    (h : t.isPending m = true) : t.content? m = none :=
  let ⟨_, _, hc⟩ := (isPending_eq hids m).1 h
  hc

theorem deliveredTo_of_nodup (m : MailboxId) {ms : List MailboxId} (h : ms.Nodup) (d : Delivery) :
    deliveredTo m (ms.map (·, d)) = if m ∈ ms then [d] else [] := by
  induction ms with
  | nil => rfl
  | cons m' rest ih =>
    obtain ⟨hnew, hrest⟩ := List.nodup_cons.1 h
    have hcons : deliveredTo m ((m' :: rest).map (·, d)) =
        (if m' = m then [d] else []) ++ deliveredTo m (rest.map (·, d)) := by
      unfold deliveredTo
      by_cases hm : m' = m <;> simp [hm]
    rw [hcons, ih hrest]
    by_cases hm : m' = m
    · subst hm
      simp [hnew]
    · simp [hm, Ne.symm hm]

/-- The mailboxes that the end of one lock serves: they waited, and now see the release. -/
theorem served_releaseLock_spec (ht : t.Tidy) (l : LockId) :
    (t.releaseLock l).1.Nodup ∧ ∀ m,
      (m ∈ (t.releaseLock l).1 →
        t.isPending m = true ∧ (t.releaseLock l).2.content? m = some .released) ∧
      (m ∉ (t.releaseLock l).1 → (t.releaseLock l).2.mailbox? m = t.mailbox? m) := by
  cases hl : t.lock? l with
  | none =>
    rw [releaseLock_of_none hl]
    exact ⟨List.nodup_nil, fun m => ⟨nofun, fun _ => rfl⟩⟩
  | some x =>
    rw [releaseLock_of_some hl]
    refine ⟨(ht.distinct l x hl).sublist (List.filter_sublist.map _), fun m => ⟨?_, ?_⟩⟩
    · intro hm
      have hpending : t.isPending m = true := by
        obtain ⟨w, hw, rfl⟩ := List.mem_map.1 hm
        exact (List.mem_filter.1 hw).2
      obtain ⟨b, hb, -⟩ := (isPending_iff ht.ids m).1 hpending
      refine ⟨hpending, ?_⟩
      unfold content?
      simp only
      rw [mailbox?_serveAll, if_pos hm, mailbox?_modify, hb]
      rfl
    · intro hm
      simp only
      rw [mailbox?_serveAll, if_neg hm, mailbox?_modify]

theorem Tidy.releaseLock (ht : t.Tidy) (l : LockId) : (t.releaseLock l).2.Tidy := by
  refine ht.wane (by rw [ids_releaseLock]; exact ht.ids) (.of_ended [l] ?_ fun l' => ?_)
  · exact Eq.symm (issued_releaseLock ..)
  · rw [lock?_releaseLock]
    by_cases hl : l = l' <;> simp [hl, eq_comm]

/-- The mailboxes that the end of some locks serves. Whom the first lock serves is not served
again. -/
theorem served_releaseLocks_spec (ht : t.Tidy) (ls : List LockId) :
    (t.releaseLocks ls).1.Nodup ∧ ∀ m,
      (m ∈ (t.releaseLocks ls).1 →
        t.isPending m = true ∧ (t.releaseLocks ls).2.content? m = some .released) ∧
      (m ∉ (t.releaseLocks ls).1 → (t.releaseLocks ls).2.mailbox? m = t.mailbox? m) := by
  induction ls generalizing t with
  | nil => exact ⟨List.nodup_nil, fun m => ⟨nofun, fun _ => rfl⟩⟩
  | cons l ls ih =>
    obtain ⟨hnodup, hfirst⟩ := served_releaseLock_spec ht l
    obtain ⟨hnodup', hrest⟩ := ih (ht.releaseLock l)
    have hlist : (t.releaseLocks (l :: ls)).1 =
        (t.releaseLock l).1 ++ ((t.releaseLock l).2.releaseLocks ls).1 := rfl
    have honce : ∀ m ∈ (t.releaseLock l).1, m ∉ ((t.releaseLock l).2.releaseLocks ls).1 := by
      intro m hm hm'
      have hreleased := ((hfirst m).1 hm).2
      rw [content?_of_pending (ht.releaseLock l).ids ((hrest m).1 hm').1] at hreleased
      cases hreleased
    rw [hlist, releaseLocks_cons]
    refine ⟨?_, fun m => ⟨fun hm => ?_, fun hm => ?_⟩⟩
    · rw [List.nodup_append]
      exact ⟨hnodup, hnodup', fun m hm m' hm' he => honce m hm (he ▸ hm')⟩
    · rcases List.mem_append.1 hm with hm | hm
      · refine ⟨((hfirst m).1 hm).1, ?_⟩
        rw [content?, (hrest m).2 (honce m hm)]
        exact ((hfirst m).1 hm).2
      · have hpending := ((hrest m).1 hm).1
        refine ⟨?_, ((hrest m).1 hm).2⟩
        rw [isPending_iff (ht.releaseLock l).ids] at hpending
        rw [isPending_iff ht.ids, ← (hfirst m).2 fun h => honce m h hm]
        exact hpending
    · rw [List.mem_append, not_or] at hm
      exact ((hrest m).2 hm.2).trans ((hfirst m).2 hm.1)

/-- What an event hands to a mailbox: what the mailbox then holds, if it was empty before. -/
def Hands (t t' : LockTable ρ) (m : MailboxId) (ds : Deliveries) : Prop :=
  deliveredTo m ds = if t.content? m = none then (t'.content? m).toList else []

/-- An event without deliveries fills no mailbox. -/
theorem Hands.nothing (h : t'.content? m = t.content? m ∨ t'.content? m = none) :
    Hands t t' m [] := by
  show [] = _
  split
  · next hnone =>
    rcases h with h | h
    · rw [h, hnone]; rfl
    · rw [h]; rfl
  · rfl

/-- Where the mailboxes `ms`, all empty before, are served with `d` and no other changes. -/
theorem Hands.served {ms : List MailboxId} {d : Delivery} (hms : ms.Nodup)
    (hempty : m ∈ ms → t.content? m = none ∧ t'.content? m = some d)
    (hother : m ∉ ms → t'.content? m = t.content? m) : Hands t t' m (ms.map (·, d)) := by
  unfold Hands
  rw [deliveredTo_of_nodup m hms]
  by_cases hm : m ∈ ms
  · obtain ⟨hnone, hsome⟩ := hempty hm
    rw [if_pos hm, if_pos hnone, hsome]
    rfl
  · rw [if_neg hm, hother hm]
    split
    · next hnone => rw [hnone]; rfl
    · rfl

theorem Hands.register (hs : t.Sound) (l : LockId) (f : SignalFilter) (m : MailboxId) :
    Hands t (t.register l f).2 m
      (((t.register l f).2.content? t.issued).toList.map (t.issued, ·)) := by
  unfold Hands deliveredTo
  by_cases hm : m = t.issued
  · have hnone : t.content? m = none := by
      rw [hm, content?, hs.mailbox?_issued]
      rfl
    rw [if_pos hnone, hm]
    cases (t.register l f).2.content? t.issued <;> simp
  · have hold : (t.register l f).2.content? m = t.content? m := by
      rw [content?, mailbox?_register_of_ne hm]
      rfl
    rw [hold]
    have hnil : ∀ d : Option Delivery,
        (d.toList.map (t.issued, ·)).filter (fun d => decide (d.1 = m)) = [] := by
      intro d
      cases d <;> simp [Ne.symm hm]
    rw [hnil]
    split
    · next hnone => rw [hnone]; rfl
    · rfl

theorem Hands.signal (ht : t.Tidy) (l : LockId) (v : Json) (m : MailboxId) :
    Hands t (t.deliver l v).2 m ((t.deliver l v).1.1.map (·, .value v)) := by
  refine .served ?_ (fun hm => ?_) fun hm => ?_
  · cases hl : t.lock? l with
    | none =>
      rw [deliver_of_none hl]
      exact List.nodup_nil
    | some x =>
      rw [deliver_of_some hl]
      exact (ht.distinct l x hl).sublist (List.filter_sublist.map _)
  · have hpending : t.isPending m = true := by
      cases hl : t.lock? l with
      | none =>
        rw [deliver_of_none hl] at hm
        cases hm
      | some x =>
        obtain ⟨w, -, hp, -, rfl⟩ := (mem_served hl v m).1 hm
        exact hp
    obtain ⟨b, hb, -⟩ := (isPending_iff ht.ids m).1 hpending
    refine ⟨content?_of_pending ht.ids hpending, ?_⟩
    rw [content?, mailbox?_deliver, if_pos hm, hb]
    rfl
  · rw [content?, mailbox?_deliver, if_neg hm]
    rfl

theorem Hands.release (ht : t.Tidy) (ls : List LockId) (m : MailboxId) :
    Hands t (t.releaseLocks ls).2 m ((t.releaseLocks ls).1.map (·, .released)) := by
  obtain ⟨hnodup, hserved⟩ := served_releaseLocks_spec ht ls
  refine .served hnodup (fun hm => ?_) fun hm => ?_
  · obtain ⟨hpending, hreleased⟩ := (hserved m).1 hm
    exact ⟨content?_of_pending ht.ids hpending, hreleased⟩
  · rw [content?, (hserved m).2 hm]
    rfl

/-- Every event hands a mailbox what it holds afterwards, and only if it was empty before. -/
theorem hands_step (ht : t.Tidy) (hs : t.Sound) (e : LockEvent ρ) (m : MailboxId) :
    Hands t (t.step e).2 m (t.step e).1 := by
  cases e with
  | obtain tab owner key =>
    refine .nothing (Or.inl ?_)
    show ((t.obtain tab owner key).2.mailboxes.find? _).bind _ = _
    rw [mailboxes_obtain]
    rfl
  | register l f =>
    show Hands t (t.register l f).2 m (((t.register l f).2.content? (t.register l f).1).toList.map
      ((t.register l f).1, ·))
    rw [register_fst]
    exact .register hs l f m
  | signal l v => exact .signal ht l v m
  | subscribe l f reaction => exact .nothing (Or.inl rfl)
  | unsubscribe l id => exact .nothing (Or.inl rfl)
  | release tab =>
    exact Hands.release (t := { t with held := Keyed.erase tab t.held })
      ⟨ht.ids, ht.distinct, ht.numbered, ht.once⟩ _ m
  | releaseAll =>
    exact Hands.release (t := { t with held := [] }) ⟨ht.ids, ht.distinct, ht.numbered, ht.once⟩ _ m
  | drop m' =>
    refine .nothing ?_
    show ((t.close m').mailbox? m).bind _ = _ ∨ ((t.close m').mailbox? m).bind _ = none
    rw [mailbox?_close]
    by_cases hm : m = m'
    · exact Or.inr (by rw [if_pos hm]; rfl)
    · exact Or.inl (by rw [if_neg hm]; rfl)

/-! ## Released locks -/

/-- A lock after an event: it keeps its tab, and an event that ends the tab releases it. -/
theorem released_step (hs : t.Sound) (hl : t.lock? l = some x) (e : LockEvent ρ) :
    ∃ x', (t.step e).2.lock? l = some x' ∧ x'.tab = x.tab ∧
      x'.released = (x.released || e.ends x.tab) := by
  have hkeep : Le t (t.step e).2 → e.ends x.tab = false →
      (∀ x', (t.step e).2.lock? l = some x' → x'.released = x.released) →
      ∃ x', (t.step e).2.lock? l = some x' ∧ x'.tab = x.tab ∧
        x'.released = (x.released || e.ends x.tab) := by
    intro hle hends hsame
    obtain ⟨x', hx', htab, -, -⟩ := hle.lock l x hl
    exact ⟨x', hx', htab, by rw [hends, Bool.or_false, hsame x' hx']⟩
  cases e with
  | obtain tab owner key =>
    refine hkeep (.obtain t tab owner key) rfl fun x' hx' => ?_
    rw [Option.some.inj ((lock?_obtain_of_some hl tab owner key).symm.trans hx')]
  | register l' f =>
    refine hkeep (.register t l' f) rfl fun x' hx' => ?_
    change (t.register l' f).2.lock? l = some x' at hx'
    by_cases he : l = l'
    · subst he
      obtain ⟨ws, hx, -⟩ := lock?_register hl f
      rw [← Option.some.inj (hx.symm.trans hx')]
    · rw [lock?_register_of_ne he, hl] at hx'
      rw [Option.some.inj hx']
  | signal l' v =>
    refine hkeep (.deliver t l' v) rfl fun x' hx' => ?_
    obtain ⟨y, hy, value, ws, rfl, -⟩ := lock?_deliver hx'
    rw [Option.some.inj (hl.symm.trans hy)]
  | subscribe l' f reaction =>
    refine hkeep (.subscribe t l' f reaction) rfl fun x' hx' => ?_
    change (t.subscribe l' f reaction).2.lock? l = some x' at hx'
    by_cases he : l = l'
    · subst he
      rw [lock?_subscribe hl] at hx'
      rw [← Option.some.inj hx']
    · rw [lock?_subscribe_of_ne he, hl] at hx'
      rw [Option.some.inj hx']
  | unsubscribe l' id =>
    refine hkeep (.unsubscribe t l' id) rfl fun x' hx' => ?_
    obtain ⟨y, hy, subs, rfl, -⟩ := lock?_unsubscribe hx'
    rw [Option.some.inj (hl.symm.trans hy)]
  | release tab =>
    refine ⟨_, hs.lock?_release hl tab, ?_⟩
    by_cases htab : x.tab = tab
    · rw [if_pos htab]
      exact ⟨rfl, by simp [Lock.ended, LockEvent.ends, htab]⟩
    · rw [if_neg htab]
      exact ⟨rfl, by simp [LockEvent.ends, Ne.symm htab]⟩
  | releaseAll =>
    exact ⟨_, hs.lock?_releaseAll hl, rfl, by simp [Lock.ended, LockEvent.ends]⟩
  | drop m => exact hkeep (.close t m) rfl fun x' hx' => by rw [Option.some.inj (hl.symm.trans hx')]

/-- A lock after a history: it is released if it was, or if its tab ended. -/
theorem released_play (hs : t.Sound) (hl : t.lock? l = some x) (h : List (LockEvent ρ)) :
    ∃ x', (t.play h).2.lock? l = some x' ∧ x'.tab = x.tab ∧
      x'.released = (x.released || h.any (LockEvent.ends x.tab)) := by
  induction h generalizing t x with
  | nil => exact ⟨x, hl, rfl, by simp⟩
  | cons e rest ih =>
    obtain ⟨x₁, hx₁, htab₁, hr₁⟩ := released_step hs hl e
    obtain ⟨x₂, hx₂, htab₂, hr₂⟩ := ih (hs.step e) hx₁
    refine ⟨x₂, hx₂, htab₂.trans htab₁, ?_⟩
    rw [hr₂, hr₁, htab₁, List.any_cons, Bool.or_assoc]

/-- A lock that is there after an event and was not before has just been obtained. -/
theorem new_step (e : LockEvent ρ) (hnone : t.lock? l = none) {x' : Lock ρ}
    (hl : (t.step e).2.lock? l = some x') :
    ∃ tab owner key, e = .obtain tab owner key ∧ x' = ⟨tab, owner, key, .null, [], [], 0, false⟩ := by
  cases e with
  | obtain tab owner key =>
    rcases lock?_obtain hl with h | rfl
    · exact absurd (hnone.symm.trans h) nofun
    · exact ⟨tab, owner, key, rfl, rfl⟩
  | register l' f =>
    exfalso
    change (t.register l' f).2.lock? l = some x' at hl
    by_cases he : l = l'
    · subst he
      rw [register_of_none hnone] at hl
      exact absurd (hnone.symm.trans hl) nofun
    · rw [lock?_register_of_ne he, hnone] at hl
      cases hl
  | signal l' v =>
    obtain ⟨y, hy, -⟩ := lock?_deliver hl
    exact absurd (hnone.symm.trans hy) nofun
  | subscribe l' f reaction =>
    exfalso
    change (t.modify l' _).lock? l = some x' at hl
    rw [lock?_modify, hnone] at hl
    split at hl <;> cases hl
  | unsubscribe l' id =>
    obtain ⟨y, hy, -⟩ := lock?_unsubscribe hl
    exact absurd (hnone.symm.trans hy) nofun
  | release tab =>
    obtain ⟨y, hy⟩ := lock?_of_release hl
    exact absurd (hnone.symm.trans hy) nofun
  | releaseAll =>
    obtain ⟨y, hy⟩ := lock?_of_releaseAll hl
    exact absurd (hnone.symm.trans hy) nofun
  | drop m => exact absurd (hnone.symm.trans hl) nofun

/-- A lock that is there after a history was there before, or its tab obtained it. -/
theorem new_play (hs : t.Sound) (h : List (LockEvent ρ)) {x' : Lock ρ}
    (hl : (t.play h).2.lock? l = some x') :
    (∃ x, t.lock? l = some x) ∨ ∃ owner key, .obtain x'.tab owner key ∈ h := by
  induction h generalizing t with
  | nil => exact Or.inl ⟨x', hl⟩
  | cons e rest ih =>
    rcases ih (hs.step e) hl with ⟨x₁, hx₁⟩ | ⟨owner, key, hmem⟩
    · cases hx : t.lock? l with
      | some x => exact Or.inl ⟨x, rfl⟩
      | none =>
        obtain ⟨tab, owner, key, rfl, rfl⟩ := new_step e hx hx₁
        obtain ⟨x₂, hx₂, htab, -⟩ := released_play (hs.step _) hx₁ rest
        obtain rfl : x' = x₂ := Option.some.inj (hl.symm.trans hx₂)
        exact Or.inr ⟨owner, key, htab ▸ List.mem_cons_self⟩
    · exact Or.inr ⟨owner, key, List.mem_cons_of_mem _ hmem⟩

/-- A released lock was released from the start, or by an event that ended its tab. -/
theorem released_origin (hs : t.Sound) (h : List (LockEvent ρ)) {x' : Lock ρ}
    (hl : (t.play h).2.lock? l = some x') (hr : x'.released = true) :
    (∃ x, t.lock? l = some x ∧ x.released = true) ∨
      ∃ pre e post x, h = pre ++ e :: post ∧ (t.play pre).2.lock? l = some x ∧
        e.ends x.tab = true := by
  induction h generalizing t with
  | nil => exact Or.inl ⟨x', hl, hr⟩
  | cons e rest ih =>
    rcases ih (hs.step e) hl with ⟨x₁, hx₁, hr₁⟩ | ⟨pre, e', post, x, rfl, hx, hends⟩
    · cases hx : t.lock? l with
      | none =>
        obtain ⟨tab, owner, key, -, rfl⟩ := new_step e hx hx₁
        cases hr₁
      | some x =>
        obtain ⟨x₂, hx₂, -, hr₂⟩ := released_step hs hx e
        obtain rfl := Option.some.inj (hx₁.symm.trans hx₂)
        rw [hr₁] at hr₂
        rcases Bool.or_eq_true_iff.1 hr₂.symm with hold | hends
        · exact Or.inl ⟨x, rfl, hold⟩
        · exact Or.inr ⟨[], e, rest, x, rfl, hx, hends⟩
    · exact Or.inr ⟨e :: pre, e', post, x, rfl, hx, hends⟩

/-- A lock is released after a history exactly if it was in its course. -/
theorem releasedIn_iff (h : List (LockEvent ρ)) (hl : (afterAll h).lock? l = some x) :
    ReleasedIn h l ↔ x.released = true := by
  constructor
  · rintro ⟨pre, e, post, y, rfl, hy, hends⟩
    rw [afterAll_append] at hl
    obtain ⟨x', hx', -, hr⟩ := released_play (Sound.empty.play pre) hy (e :: post)
    obtain rfl := Option.some.inj (hl.symm.trans hx')
    rw [hr, List.any_cons, hends, Bool.true_or, Bool.or_true]
  · intro hr
    rcases released_origin Sound.empty h hl hr with ⟨y, hy, -⟩ | horigin
    · exact absurd hy (by simp [LockTable.empty, lock?])
    · exact horigin

/-- Whether a lock has been released a while after it was looked at. -/
theorem releasedIn_append (h mid : List (LockEvent ρ)) (hl : (afterAll h).lock? l = some x) :
    ReleasedIn (h ++ mid) l ↔ x.released = true ∨ ∃ e ∈ mid, e.ends x.tab = true := by
  obtain ⟨x', hx', -, hr⟩ := released_play (Sound.empty.play h) hl mid
  rw [releasedIn_iff (h ++ mid) (by rw [afterAll_append]; exact hx'), hr, Bool.or_eq_true,
    List.any_eq_true]

end LockTable
end BlockEngine
