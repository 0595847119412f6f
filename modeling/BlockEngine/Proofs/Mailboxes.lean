import BlockEngine.Proofs.Discipline

/-!
# Mailboxes among the operations of others

* `LockTable.Waits` : a lock has a waiter with a mailbox;
* `LockTable.Leaves` : a change leaves a mailbox and its waiters alone; one lemma for each operation;
* `LockTable.Awaits` : an empty mailbox whose one waiter waits for values of a filter on one lock;
* `Awaits.leaves`, `Awaits.mailbox?_deliver` : it stays so until such a value comes, which it then
  has.
-/

namespace BlockEngine.LockTable

variable {ρ : Type} {t t' t'' : LockTable ρ} {b : MailboxId}

/-- The waiter `w` of the lock `l` has the mailbox `b`. -/
def Waits (t : LockTable ρ) (b : MailboxId) (l : LockId) (w : Waiter) : Prop :=
  ∃ x, t.lock? l = some x ∧ w ∈ x.waiters ∧ w.mailbox = b

/-- A change that leaves a mailbox and its waiters alone. A waiter whose mailbox is not empty any
more may go. -/
structure Leaves (t t' : LockTable ρ) (b : MailboxId) : Prop where
  mailbox : t'.mailbox? b = t.mailbox? b
  waiter : ∀ l w, t.Waits b l w → t.isPending b = true → t'.Waits b l w
  only : ∀ l w, t'.Waits b l w → t.Waits b l w

theorem isPending_of_mailbox? (h : t.mailbox? b = some ⟨b, none⟩) : t.isPending b = true := by
  obtain ⟨hb, -⟩ := mem_of_mailbox? h
  exact List.any_eq_true.2 ⟨_, hb, by simp⟩

theorem Sound.isPending_of_content (hs : t.Sound) {d : Delivery}
    (h : t.mailbox? b = some ⟨b, some d⟩) : t.isPending b = false := by
  cases hp : t.isPending b with
  | false => rfl
  | true =>
    obtain ⟨c, hc, hnone⟩ := (isPending_iff hs.distinct b).1 hp
    obtain rfl := Option.some.inj (h.symm.trans hc)
    cases hnone

namespace Leaves

theorem of_lock (hmailbox : t'.mailbox? b = t.mailbox? b)
    (hwaiters : ∀ l, (t'.lock? l).map Lock.waiters = (t.lock? l).map Lock.waiters) :
    Leaves t t' b := by
  have hwaits : ∀ {t t' : LockTable ρ} l w,
      (t'.lock? l).map Lock.waiters = (t.lock? l).map Lock.waiters →
      t.Waits b l w → t'.Waits b l w := by
    rintro t t' l w h ⟨x, hx, hw, hb⟩
    rw [hx] at h
    obtain ⟨x', hx', hw'⟩ := Option.map_eq_some_iff.1 h
    exact ⟨x', hx', hw' ▸ hw, hb⟩
  exact ⟨hmailbox, fun l w h _ => hwaits l w (hwaiters l) h,
    fun l w h => hwaits l w (hwaiters l).symm h⟩

theorem refl (t : LockTable ρ) (b : MailboxId) : Leaves t t b := .of_lock rfl fun _ => rfl

theorem close {m : MailboxId} (h : m ≠ b) : Leaves t (t.close m) b :=
  .of_lock (by rw [mailbox?_close, if_neg (Ne.symm h)]) fun _ => rfl

theorem obtain (tab owner key : String) : Leaves t (t.obtain tab owner key).2 b where
  mailbox := by
    unfold mailbox?
    rw [mailboxes_obtain]
  waiter _ _ h _ :=
    let ⟨x, hx, hw, hb⟩ := h
    ⟨x, lock?_obtain_of_some hx .., hw, hb⟩
  only l w h := by
    obtain ⟨x, hx, hw, hb⟩ := h
    rcases lock?_obtain hx with hx | rfl
    · exact ⟨x, hx, hw, hb⟩
    · exact absurd hw List.not_mem_nil

theorem register (h : b ≠ t.issued) (l : LockId) (f : SignalFilter) :
    Leaves t (t.register l f).2 b where
  mailbox := mailbox?_register_of_ne h l f
  waiter l' w hw hp := by
    obtain ⟨x, hx, hw, rfl⟩ := hw
    by_cases hl : l' = l
    · subst hl
      obtain ⟨ws, hx', -, -, hws, -⟩ := lock?_register hx f
      exact ⟨_, hx', hws w hw hp, rfl⟩
    · exact ⟨x, by rw [lock?_register_of_ne hl, hx], hw, rfl⟩
  only l' w hw := by
    obtain ⟨x, hx, hw, rfl⟩ := hw
    by_cases hl : l' = l
    · subst hl
      cases hy : t.lock? l' with
      | none =>
        rw [register_of_none hy] at hx
        exact absurd (hy.symm.trans hx) (by simp)
      | some y =>
        obtain ⟨ws, hx', -, -, -, hws⟩ := lock?_register hy f
        obtain rfl := Option.some.inj (hx'.symm.trans hx)
        rcases hws w hw with hw | rfl
        · exact ⟨y, hy, hw, rfl⟩
        · exact absurd rfl h
    · rw [lock?_register_of_ne hl] at hx
      exact ⟨x, hx, hw, rfl⟩

theorem subscribe (l : LockId) (f : SignalFilter) (r : ρ) : Leaves t (t.subscribe l f r).2 b := by
  refine .of_lock rfl fun l' => ?_
  by_cases hl : l' = l
  · subst hl
    cases hx : t.lock? l' with
    | none =>
      unfold LockTable.subscribe
      rw [lock?_modify, if_pos rfl, hx]
      rfl
    | some x =>
      rw [lock?_subscribe hx]
      rfl
  · rw [lock?_subscribe_of_ne hl]

theorem thinned (h : t.Thinned t') : Leaves t t' b := by
  refine .of_lock (by unfold mailbox?; rw [h.mailboxes]) fun l => ?_
  rcases h.lock l with hl | ⟨x, subs, hx, hx', -⟩
  · rw [hl]
  · rw [hx, hx']
    rfl

/-- A value that no waiter with the mailbox accepts. -/
theorem deliver {l : LockId} {v : Json}
    (h : ∀ w, t.Waits b l w → t.isPending b = true → w.filter.accepts v = false) :
    Leaves t (t.deliver l v).2 b where
  mailbox := by
    rw [mailbox?_deliver, if_neg]
    intro hserved
    cases hx : t.lock? l with
    | none =>
      rw [deliver_of_none hx] at hserved
      exact absurd hserved List.not_mem_nil
    | some x =>
      obtain ⟨w, hw, hp, ha, rfl⟩ := (mem_served hx v b).1 hserved
      exact absurd ((h w ⟨x, hx, hw, rfl⟩ hp).symm.trans ha) (by simp)
  waiter l' w hw hp := by
    obtain ⟨x, hx, hw, rfl⟩ := hw
    obtain ⟨x', hx', hws⟩ := lock?_deliver_of_some hx l v
    exact ⟨x', hx', hws w hw hp fun hl => h w ⟨x, hl ▸ hx, hw, rfl⟩ hp, rfl⟩
  only l' w hw := by
    obtain ⟨x', hx', hw, hb⟩ := hw
    obtain ⟨x, hx, value, ws, rfl, hws⟩ := lock?_deliver hx'
    exact ⟨x, hx, hws w hw, hb⟩

/-- The end of the locks of a tab where nobody waits with the mailbox. -/
theorem release (hs : t.Sound) {tab : String}
    (h : ∀ l w x, t.Waits b l w → t.isPending b = true → t.lock? l = some x → x.tab ≠ tab) :
    Leaves t (t.release tab).2 b where
  mailbox := by
    rcases mailbox?_releaseLocks (t := { t with held := Keyed.erase tab t.held }) hs.distinct
      (Keyed.values (t.ofTab tab)) b with hm | ⟨hp, -, l, hl, x, hx, w, hw, rfl⟩
    · exact hm
    · have hpending : t.isPending w.mailbox = true := isPending_of_mailbox? hp
      exact absurd ((hs.mem_values_ofTab hx).1 hl).1 (h l w x ⟨x, hx, hw, rfl⟩ hpending hx)
  waiter l w hw hp := by
    have htab := fun x => h l w x hw hp
    obtain ⟨x, hx, hw, hb⟩ := hw
    exact ⟨x, by rw [hs.lock?_release hx, if_neg (htab x hx)], hw, hb⟩
  only l w hw := by
    obtain ⟨x', hx', hw, hb⟩ := hw
    obtain ⟨x, hx⟩ := lock?_of_release hx'
    rw [hs.lock?_release hx] at hx'
    obtain rfl := Option.some.inj hx'
    split at hw
    · exact absurd hw List.not_mem_nil
    · exact ⟨x, hx, hw, hb⟩

/-- The end of all locks where nobody waits with the mailbox. -/
theorem releaseAll (hs : t.Sound) (h : ∀ l w, t.Waits b l w → t.isPending b = false) :
    Leaves t t.releaseAll.2 b where
  mailbox := by
    rcases mailbox?_releaseLocks (t := { t with held := [] }) hs.distinct
      (t.held.flatMap fun p => Keyed.values p.2) b with hm | ⟨hp, -, l, -, x, hx, w, hw, rfl⟩
    · exact hm
    · have hpending : t.isPending w.mailbox = true := isPending_of_mailbox? hp
      exact absurd ((h l w ⟨x, hx, hw, rfl⟩).symm.trans hpending) (by simp)
  waiter l w hw hp := absurd ((h l w hw).symm.trans hp) (by simp)
  only l w hw := by
    obtain ⟨x', hx', hw, hb⟩ := hw
    obtain ⟨x, hx⟩ := lock?_of_releaseAll hx'
    rw [hs.lock?_releaseAll hx] at hx'
    obtain rfl := Option.some.inj hx'
    exact absurd hw List.not_mem_nil

end Leaves

/-! ## A mailbox with one waiter -/

/-- The mailbox is empty, and its one waiter waits for values of the filter `f` on the lock `l`. -/
structure Awaits (t : LockTable ρ) (l : LockId) (f : SignalFilter) (b : MailboxId) : Prop where
  empty : t.mailbox? b = some ⟨b, none⟩
  waits : t.Waits b l ⟨f, b⟩
  only : ∀ l' w, t.Waits b l' w → l' = l ∧ w.filter = f

namespace Awaits

variable {l : LockId} {f : SignalFilter}

theorem leaves (h : t.Awaits l f b) (hleaves : Leaves t t' b) : t'.Awaits l f b where
  empty := hleaves.mailbox.trans h.empty
  waits := hleaves.waiter l _ h.waits (isPending_of_mailbox? h.empty)
  only l' w hw := h.only l' w (hleaves.only l' w hw)

/-- A value of the filter comes into the mailbox. -/
theorem mailbox?_deliver (h : t.Awaits l f b) {v : Json} (hv : f.accepts v = true) :
    (t.deliver l v).2.mailbox? b = some ⟨b, some (.value v)⟩ := by
  obtain ⟨x, hx, hw, -⟩ := h.waits
  rw [LockTable.mailbox?_deliver, if_pos, h.empty]
  · rfl
  · exact (mem_served hx v b).2 ⟨_, hw, isPending_of_mailbox? h.empty, hv, rfl⟩

/-- A registration on a lock that is not released. -/
theorem register (hs : t.Sound) {x : Lock ρ} (hx : t.lock? l = some x) (hr : x.released = false)
    (hnew : ∀ l w, ¬ t.Waits t.issued l w) (f : SignalFilter) :
    (t.register l f).2.Awaits l f t.issued := by
  obtain ⟨ws, hx', -, hmem, -, hws⟩ := lock?_register hx f
  refine ⟨?_, ⟨_, hx', hmem hr, rfl⟩, fun l' w hw => ?_⟩
  · rw [hs.mailbox?_register hx, hr]
    rfl
  · obtain ⟨y, hy, hw, hb⟩ := hw
    by_cases hl : l' = l
    · subst hl
      obtain rfl := Option.some.inj (hx'.symm.trans hy)
      rcases hws w hw with hw | rfl
      · exact absurd ⟨x, hx, hw, hb⟩ (hnew l' w)
      · exact ⟨rfl, rfl⟩
    · rw [lock?_register_of_ne hl] at hy
      exact absurd ⟨y, hy, hw, hb⟩ (hnew l' w)

end Awaits
end BlockEngine.LockTable
