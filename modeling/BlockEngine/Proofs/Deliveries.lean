import BlockEngine.Proofs.LockHistory

/-!
# What waiters receive

* `LockEvent.answer?` : what an event has for a waiter;
* `leaves_step`, `Awaits.step_of_answer` : it comes into the waiter's mailbox, and nothing else does;
* `received_of_kept` : a waiter receives the answer of the first event that has one for it;
* `outcome?_eq_value`, `outcome?_eq_released`, `outcome?_eq_none` : which events these are;
* `stillWaits_iff`, `waiterCount_eq_length` : the waiters counted are those who still wait;
* `received_first_accepted` : what a waiter has received after any history.
-/

namespace BlockEngine

namespace LockEvent

variable {ρ : Type}

/-- What an event has for a waiter of the filter `f` on the lock `l` of a tab. -/
def answer? (l : LockId) (f : SignalFilter) (tab : String) : LockEvent ρ → Option Delivery
  | .signal l' v => if l' = l ∧ f.accepts v = true then some (.value v) else none
  | .release tab' => if tab' = tab then some .released else none
  | .releaseAll => some .released
  | _ => none

theorem answer?_eq_value {l : LockId} {f : SignalFilter} {tab : String} {e : LockEvent ρ}
    {v : Json} : e.answer? l f tab = some (.value v) ↔ e = .signal l v ∧ f.accepts v = true := by
  cases e with
  | signal l' u =>
    simp only [answer?]
    constructor
    · intro h
      split at h
      · next hl =>
        obtain rfl : u = v := by simpa using h
        exact ⟨by rw [hl.1], hl.2⟩
      · cases h
    · rintro ⟨h, hv⟩
      obtain ⟨rfl, rfl⟩ : l' = l ∧ u = v := by simpa using h
      rw [if_pos ⟨rfl, hv⟩]
  | release tab' =>
    simp only [answer?]
    split <;> simp
  | _ => simp [answer?]

theorem answer?_eq_released {l : LockId} {f : SignalFilter} {tab : String} {e : LockEvent ρ} :
    e.answer? l f tab = some .released ↔ e.ends tab = true := by
  cases e with
  | signal l' u =>
    simp only [answer?, ends]
    split <;> simp
  | release tab' => simp [answer?, ends]
  | _ => simp [answer?, ends]

theorem answer?_eq_none {l : LockId} {f : SignalFilter} {tab : String} {e : LockEvent ρ} :
    e.answer? l f tab = none ↔
      (∀ v, e = .signal l v → f.accepts v = false) ∧ e.ends tab = false := by
  constructor
  · intro h
    refine ⟨fun v hv => ?_, ?_⟩
    · cases ha : f.accepts v with
      | false => rfl
      | true => exact absurd (h.symm.trans (answer?_eq_value.2 ⟨hv, ha⟩)) nofun
    · cases he : e.ends tab with
      | false => rfl
      | true => exact absurd (h.symm.trans (answer?_eq_released.2 he)) nofun
  · rintro ⟨hv, he⟩
    cases ha : e.answer? l f tab with
    | none => rfl
    | some d =>
      cases d with
      | value v =>
        obtain ⟨hsignal, haccepts⟩ := answer?_eq_value.1 ha
        exact absurd ((hv v hsignal).symm.trans haccepts) nofun
      | released => exact absurd (he.symm.trans (answer?_eq_released.1 ha)) nofun

end LockEvent

namespace LockTable

variable {ρ : Type} {t t' : LockTable ρ} {l : LockId} {x : Lock ρ} {f : SignalFilter}
  {m : MailboxId}

/-! ## One waiter -/

/-- An event that has no answer for a waiter leaves its mailbox alone. -/
theorem leaves_step (hs : t.Sound) (e : LockEvent ρ) (hdrop : e ≠ .drop m) (hm : m < t.issued)
    (hnone : ∀ l w x, t.Waits m l w → t.isPending m = true → t.lock? l = some x →
      e.answer? l w.filter x.tab = none) : Leaves t (t.step e).2 m := by
  have hends : ∀ l w x, t.Waits m l w → t.isPending m = true → t.lock? l = some x →
      e.ends x.tab = false := fun l w x hw hp hx =>
    (LockEvent.answer?_eq_none.1 (hnone l w x hw hp hx)).2
  cases e with
  | obtain tab owner key => exact .obtain tab owner key
  | register l f => exact .register (Nat.ne_of_lt hm) l f
  | signal l v =>
    refine .deliver fun w hw hp => ?_
    obtain ⟨x, hx, -⟩ := id hw
    exact (LockEvent.answer?_eq_none.1 (hnone l w x hw hp hx)).1 v rfl
  | subscribe l f reaction => exact .subscribe l f reaction
  | unsubscribe l id =>
    refine .of_lock rfl fun l' => ?_
    show ((t.modify l _).lock? l').map _ = _
    rw [lock?_modify]
    split
    · rw [Option.map_map]
      rfl
    · rfl
  | release tab =>
    refine .release hs fun l w x hw hp hx => ?_
    exact Ne.symm (of_decide_eq_false (hends l w x hw hp hx))
  | releaseAll =>
    refine .releaseAll hs fun l w hw => ?_
    obtain ⟨x, hx, -⟩ := id hw
    cases hp : t.isPending m with
    | false => rfl
    | true => exact absurd (hends l w x hw hp hx) nofun
  | drop m' => exact .close fun he => hdrop (he ▸ rfl)

/-- A mailbox that is not waiting any more is left alone by a history that does not drop it. -/
theorem settled_play (ht : t.Tidy) (hs : t.Sound) (h : List (LockEvent ρ)) (hm : m < t.issued)
    (hsettled : t.isPending m = false) (hdrop : t.mailbox? m = none ∨ .drop m ∉ h) :
    (t.play h).2.mailbox? m = t.mailbox? m ∧ deliveredTo m (t.play h).1 = [] := by
  induction h generalizing t with
  | nil => exact ⟨rfl, rfl⟩
  | cons e rest ih =>
    have hstep : (t.step e).2.mailbox? m = t.mailbox? m := by
      by_cases he : e = .drop m
      · subst he
        rcases hdrop with hnone | hdrop
        · show (t.close m).mailbox? m = _
          rw [mailbox?_close, if_pos rfl, hnone]
        · exact absurd List.mem_cons_self hdrop
      · refine (leaves_step hs e he hm fun l w x _ hp => ?_).mailbox
        exact absurd (hsettled.symm.trans hp) nofun
    have hnothing : deliveredTo m (t.step e).1 = [] := by
      rw [hands_step ht hs, content?, content?, hstep]
      split
      · next hnone => rw [hnone]; rfl
      · rfl
    have hsettled' : (t.step e).2.isPending m = false := by
      rw [Bool.eq_false_iff, Ne, isPending_iff (hs.step e).distinct, hstep,
        ← isPending_iff hs.distinct, hsettled]
      exact nofun
    have hdrop' : (t.step e).2.mailbox? m = none ∨ .drop m ∉ rest :=
      hdrop.imp hstep.trans fun h hmem => h (List.mem_cons_of_mem _ hmem)
    obtain ⟨hmailbox, hlater⟩ := ih (ht.step hs e) (hs.step e)
      (Nat.lt_of_lt_of_le hm (issued_step t e)) hsettled' hdrop'
    refine ⟨hmailbox.trans hstep, ?_⟩
    show deliveredTo m ((t.step e).1 ++ ((t.step e).2.play rest).1) = []
    rw [deliveredTo_append, hnothing, hlater]
    rfl

/-- An event that has an answer for a waiter puts it into the mailbox. -/
theorem Awaits.step_of_answer (hs : t.Sound) (h : t.Awaits l f m) (hl : t.lock? l = some x)
    {e : LockEvent ρ} {d : Delivery} (hd : e.answer? l f x.tab = some d) :
    (t.step e).2.mailbox? m = some ⟨m, some d⟩ := by
  obtain ⟨y, hy, hw, -⟩ := h.waits
  obtain rfl : x = y := Option.some.inj (hl.symm.trans hy)
  -- the end of locks among which is the one waited on
  have hended : ∀ (t₀ : LockTable ρ) ls, (t₀.mailboxes.map Mailbox.id).Nodup →
      t₀.mailbox? m = t.mailbox? m → t₀.lock? l = some x → l ∈ ls →
      (t₀.releaseLocks ls).2.mailbox? m = some ⟨m, some .released⟩ := by
    intro t₀ ls hids hmailbox hlock hmem
    have hserved := served_releaseLocks hids hmem hlock hw
    rcases mailbox?_releaseLocks hids ls m with hsame | ⟨-, hreleased, -⟩
    · exact absurd ((hsame.trans hmailbox).trans h.empty) hserved
    · exact hreleased
  have hlive : x.released = false := by
    cases hr : x.released with
    | false => rfl
    | true =>
      rw [(hs.ended l x hl hr).1] at hw
      cases hw
  cases d with
  | value v =>
    obtain ⟨rfl, hv⟩ := LockEvent.answer?_eq_value.1 hd
    exact h.mailbox?_deliver hv
  | released =>
    have hends := LockEvent.answer?_eq_released.1 hd
    have hheld := (hs.mem_values_ofTab hl).2 ⟨rfl, hlive⟩
    cases e with
    | release tab =>
      obtain rfl : tab = x.tab := of_decide_eq_true hends
      exact hended { t with held := Keyed.erase x.tab t.held } _ hs.distinct rfl hl hheld
    | releaseAll =>
      refine hended { t with held := [] } _ hs.distinct rfl hl ?_
      obtain ⟨q, hq, rfl⟩ := List.mem_map.1 hheld
      obtain ⟨p, hp, -, hq'⟩ := mem_ofTab hq
      exact List.mem_flatMap.2 ⟨p, hp, List.mem_map.2 ⟨q, hq', rfl⟩⟩
    | _ => cases hends

/-- A waiter receives the answer of the first event that has one for it, and waits on until then. -/
theorem Awaits.play (ht : t.Tidy) (hs : t.Sound) (h : t.Awaits l f m) (hl : t.lock? l = some x)
    (es : List (LockEvent ρ)) (hdrop : .drop m ∉ es) :
    (t.play es).2.mailbox? m = some ⟨m, es.findSome? (LockEvent.answer? l f x.tab)⟩ ∧
      deliveredTo m (t.play es).1 = (es.findSome? (LockEvent.answer? l f x.tab)).toList ∧
      (es.findSome? (LockEvent.answer? l f x.tab) = none → (t.play es).2.Awaits l f m) := by
  induction es generalizing t x with
  | nil => exact ⟨h.empty, rfl, fun _ => h⟩
  | cons e rest ih =>
    have hne : e ≠ .drop m := fun he => hdrop (he ▸ List.mem_cons_self)
    have hrest : .drop m ∉ rest := fun hm => hdrop (List.mem_cons_of_mem _ hm)
    have hissued : m < t.issued := hs.mailbox?_lt h.empty
    have hempty : t.content? m = none := by
      unfold content?
      rw [h.empty]
      rfl
    have hfirst : deliveredTo m (t.step e).1 = ((t.step e).2.content? m).toList :=
      (hands_step ht hs e m).trans (if_pos hempty)
    show ((t.step e).2.play rest).2.mailbox? m = _ ∧
      deliveredTo m ((t.step e).1 ++ ((t.step e).2.play rest).1) = _ ∧ _
    rw [deliveredTo_append, hfirst, List.findSome?_cons]
    cases hd : e.answer? l f x.tab with
    | none =>
      have hleaves : Leaves t (t.step e).2 m := by
        refine leaves_step hs e hne hissued fun l' w y hw _ hy => ?_
        obtain ⟨rfl, hf⟩ := h.only l' w hw
        obtain rfl : x = y := Option.some.inj (hl.symm.trans hy)
        rw [hf]
        exact hd
      have hawaits := h.leaves hleaves
      obtain ⟨x', hx', htab, -⟩ := released_step hs hl e
      have hnone : (t.step e).2.content? m = none := by
        unfold content?
        rw [hawaits.empty]
        rfl
      rw [hnone, ← htab]
      exact ih (ht.step hs e) (hs.step e) hawaits hx' hrest
    | some d =>
      have hserved := h.step_of_answer hs hl hd
      have hcontent : (t.step e).2.content? m = some d := by
        unfold content?
        rw [hserved]
        rfl
      obtain ⟨hkept, hnothing⟩ := settled_play (ht.step hs e) (hs.step e) rest
        (Nat.lt_of_lt_of_le hissued (issued_step t e)) ((hs.step e).isPending_of_content hserved)
        (Or.inr hrest)
      rw [hcontent, hnothing]
      exact ⟨hkept.trans hserved, rfl, nofun⟩

/-- Nothing is handed to a mailbox before its number is drawn. -/
theorem deliveredTo_of_not_issued (ht : t.Tidy) (hs : t.Sound) (h : List (LockEvent ρ))
    (hm : (t.play h).2.issued ≤ m) : deliveredTo m (t.play h).1 = [] := by
  induction h generalizing t with
  | nil => rfl
  | cons e rest ih =>
    have hlater : deliveredTo m ((t.step e).2.play rest).1 = [] :=
      ih (ht.step hs e) (hs.step e) hm
    have hstep : (t.step e).2.issued ≤ m := Nat.le_trans (issued_play _ rest) hm
    have hnone : ∀ t' : LockTable ρ, t'.Sound → t'.issued ≤ m → t'.content? m = none := by
      intro t' hs' hle
      cases hb : t'.mailbox? m with
      | none => rw [content?, hb]; rfl
      | some b => exact absurd (hs'.mailbox?_lt hb) (Nat.not_lt.2 hle)
    show deliveredTo m ((t.step e).1 ++ ((t.step e).2.play rest).1) = []
    rw [deliveredTo_append, hlater, hands_step ht hs e m, hnone _ (hs.step e) hstep]
    split <;> rfl

/-- What a waiter that registers on the lock `x` receives in the course of what comes after: on a
released lock it is served at once, on any other by the first event that has an answer for it. -/
def outcome? (l : LockId) (x : Lock ρ) (f : SignalFilter) (after : List (LockEvent ρ)) :
    Option Delivery :=
  if x.released = true then some .released else after.findSome? (LockEvent.answer? l f x.tab)

/-- A waiter after a history in whose course it registered and was not dropped. -/
theorem received_of_kept (before after : List (LockEvent ρ)) (f : SignalFilter)
    (hl : (afterAll before).lock? l = some x)
    (hdrop : .drop (afterAll before).issued ∉ after) :
    let m := (afterAll before).issued
    let h := before ++ .register l f :: after
    (afterAll h).mailbox? m = some ⟨m, outcome? l x f after⟩ ∧
      received h m = (outcome? l x f after).toList ∧
      (outcome? l x f after = none → (afterAll h).Awaits l f m) := by
  intro m h
  have hs : (afterAll before).Sound := Sound.empty.play before
  have ht : (afterAll before).Tidy := Tidy.empty.play Sound.empty before
  have hs' := hs.register l f
  have ht' := ht.register hs l f
  have hmailbox := hs.mailbox?_register hl f
  have hissued : m < ((afterAll before).register l f).2.issued := by
    rw [issued_register]
    exact Nat.lt_succ_self _
  have hearlier : received before m = [] :=
    deliveredTo_of_not_issued Tidy.empty Sound.empty before (Nat.le_refl _)
  have hfirst : deliveredTo m ((afterAll before).step (.register l f)).1 =
      (((afterAll before).register l f).2.content? m).toList := by
    have hempty : (afterAll before).content? m = none := by
      rw [content?, hs.mailbox?_issued]
      rfl
    exact (hands_step ht hs (.register l f) m).trans (if_pos hempty)
  have hreceived : received h m = (((afterAll before).register l f).2.content? m).toList ++
      deliveredTo m (((afterAll before).register l f).2.play after).1 := by
    rw [received_append, hearlier, ← hfirst]
    exact deliveredTo_append m _ _
  have htable : afterAll h = (((afterAll before).register l f).2.play after).2 :=
    afterAll_append before (.register l f :: after)
  rw [htable, hreceived, content?, hmailbox]
  cases hr : x.released with
  | true =>
    rw [hr, if_pos rfl] at hmailbox
    obtain ⟨hkept, hnothing⟩ := settled_play ht' hs' after hissued
      (hs'.isPending_of_content hmailbox) (Or.inr hdrop)
    have houtcome : outcome? l x f after = some .released := if_pos hr
    rw [hkept, hmailbox, hnothing, houtcome]
    exact ⟨rfl, rfl, fun hnone => absurd hnone (Option.some_ne_none _)⟩
  | false =>
    have hnew : ∀ l' w, ¬ (afterAll before).Waits (afterAll before).issued l' w := by
      rintro l' w ⟨y, hy, hw, hmw⟩
      exact Nat.lt_irrefl _ (hmw ▸ ht.numbered l' y hy w hw)
    have hawaits := Awaits.register hs hl hr hnew f
    obtain ⟨y, hy, htab, -⟩ := released_step hs hl (.register l f)
    obtain ⟨hend, hlater, hstill⟩ := hawaits.play ht' hs' hy after hdrop
    have houtcome : outcome? l x f after = after.findSome? (LockEvent.answer? l f y.tab) := by
      rw [htab]
      exact if_neg (by rw [hr]; exact Bool.false_ne_true)
    rw [houtcome]
    exact ⟨hend, hlater, hstill⟩

/-! ## The waiters that still wait -/

/-- A waiter of a lock that registered in the course of a history, was not dropped later and has
received nothing. -/
def StillWaits (h : List (LockEvent ρ)) (l : LockId) (m : MailboxId) : Prop :=
  ∃ before f after x, h = before ++ .register l f :: after ∧
    (afterAll before).lock? l = some x ∧ m = (afterAll before).issued ∧ .drop m ∉ after ∧
    received h m = []

/-- A waiter of a lock was there from the start, or it registered. -/
theorem waits_origin (t : LockTable ρ) (h : List (LockEvent ρ)) {w : Waiter}
    (hw : (t.play h).2.Waits w.mailbox l w) :
    t.Waits w.mailbox l w ∨ ∃ pre f post x, h = pre ++ .register l f :: post ∧
      (t.play pre).2.lock? l = some x ∧ w.mailbox = (t.play pre).2.issued := by
  induction h generalizing t with
  | nil => exact Or.inl hw
  | cons e rest ih =>
    rcases ih (t.step e).2 hw with hstep | ⟨pre, f, post, x, rfl, hx, hm⟩
    · by_cases he : ∃ l' f, e = .register l' f
      · obtain ⟨l', f, rfl⟩ := he
        by_cases hm : w.mailbox = t.issued
        · obtain ⟨x', hx', hmem, -⟩ := hstep
          change (t.register l' f).2.lock? l = some x' at hx'
          by_cases hl : l = l'
          · subst hl
            cases hx : t.lock? l with
            | none =>
              rw [register_of_none hx] at hx'
              exact absurd (hx.symm.trans hx') nofun
            | some x => exact Or.inr ⟨[], f, rest, x, rfl, hx, hm⟩
          · rw [lock?_register_of_ne hl] at hx'
            exact Or.inl ⟨x', hx', hmem, rfl⟩
        · exact Or.inl ((Leaves.register hm l' f).only l w hstep)
      · obtain ⟨x', hx', hmem, -⟩ := hstep
        rcases (wanes_step e fun l' f hlf => he ⟨l', f, hlf⟩).waiters l x' hx' with
          hnil | ⟨x, hx, hsub⟩
        · rw [hnil] at hmem
          cases hmem
        · exact Or.inl ⟨x, hx, hsub.mem hmem, rfl⟩
    · exact Or.inr ⟨e :: pre, f, post, x, rfl, hx, hm⟩

/-- A waiter that still waits was not dropped. -/
theorem not_dropped_of_pending (ht : t.Tidy) (hs : t.Sound) (h : List (LockEvent ρ))
    (hm : m < t.issued) (hp : (t.play h).2.isPending m = true) : .drop m ∉ h := by
  intro hdrop
  obtain ⟨pre, post, rfl⟩ := List.append_of_mem hdrop
  have ht₁ := (ht.play hs pre).step (hs.play pre) (.drop m)
  have hs₁ := (hs.play pre).step (.drop m)
  have hgone : (((t.play pre).2.step (.drop m)).2).mailbox? m = none := by
    show ((t.play pre).2.close m).mailbox? m = none
    rw [mailbox?_close, if_pos rfl]
  have hsettled : (((t.play pre).2.step (.drop m)).2).isPending m = false := by
    rw [Bool.eq_false_iff, Ne, isPending_iff hs₁.distinct, hgone]
    rintro ⟨b, hb, -⟩
    cases hb
  have hissued : m < (((t.play pre).2.step (.drop m)).2).issued :=
    Nat.lt_of_lt_of_le hm (Nat.le_trans (issued_play t pre) (issued_step _ _))
  have hend := (settled_play ht₁ hs₁ post hissued hsettled (Or.inl hgone)).1
  rw [play_append] at hp
  obtain ⟨b, hb, -⟩ := (isPending_iff (hs₁.play post).distinct m).1 hp
  exact absurd (hb.symm.trans (hend.trans hgone)) nofun

/-- Who still waits on a lock is a waiter of it whose mailbox is empty. -/
theorem stillWaits_iff (h : List (LockEvent ρ)) (l : LockId) (m : MailboxId) :
    StillWaits h l m ↔ (∃ w, (afterAll h).Waits m l w) ∧ (afterAll h).isPending m = true := by
  constructor
  · rintro ⟨before, f, after, x, rfl, hl, rfl, hdrop, hnothing⟩
    obtain ⟨-, hreceived, hstill⟩ := received_of_kept before after f hl hdrop
    have hawaits := hstill (Option.toList_eq_nil_iff.1 (hreceived.symm.trans hnothing))
    exact ⟨⟨_, hawaits.waits⟩, isPending_of_mailbox? hawaits.empty⟩
  · rintro ⟨⟨w, hw⟩, hp⟩
    obtain ⟨-, -, -, rfl⟩ := id hw
    rcases waits_origin empty h hw with ⟨y, hy, -⟩ | ⟨before, f, after, x, rfl, hl, hm⟩
    · exact absurd hy (by simp [LockTable.empty, lock?])
    · have hs : (afterAll before).Sound := Sound.empty.play before
      have ht : (afterAll before).Tidy := Tidy.empty.play Sound.empty before
      rw [afterAll_append] at hp
      rw [hm] at hp ⊢
      have hdrop : .drop (afterAll before).issued ∉ after := by
        refine not_dropped_of_pending (ht.step hs (.register l f)) (hs.step (.register l f)) after
          ?_ hp
        show _ < ((afterAll before).register l f).2.issued
        rw [issued_register]
        exact Nat.lt_succ_self _
      obtain ⟨hmailbox, hreceived, -⟩ := received_of_kept before after f hl hdrop
      refine ⟨before, f, after, x, rfl, hl, rfl, hdrop, ?_⟩
      rw [afterAll_append] at hmailbox
      obtain ⟨b, hb, hnone⟩ := (isPending_iff ((hs.play _).distinct) _).1 hp
      obtain rfl := Option.some.inj (hmailbox.symm.trans hb)
      exact hreceived.trans (Option.toList_eq_nil_iff.2 hnone)

/-- The count of waiters is that of those who still wait. -/
theorem waiterCount_eq_length (h : List (LockEvent ρ)) (l : LockId) :
    ∃ ms : List MailboxId, ms.Nodup ∧ (∀ m, m ∈ ms ↔ StillWaits h l m) ∧
      (afterAll h).waiterCount l = ms.length := by
  have ht : (afterAll h).Tidy := Tidy.empty.play Sound.empty h
  cases hl : (afterAll h).lock? l with
  | none =>
    refine ⟨[], List.nodup_nil, fun m => ⟨nofun, fun hm => ?_⟩, by rw [waiterCount, hl]; rfl⟩
    obtain ⟨⟨w, x, hx, -⟩, -⟩ := (stillWaits_iff h l m).1 hm
    exact absurd (hl.symm.trans hx) nofun
  | some x =>
    refine ⟨(x.waiters.filter ((afterAll h).isPending ·.mailbox)).map (·.mailbox),
      (ht.distinct l x hl).sublist (List.filter_sublist.map _), fun m => ?_, ?_⟩
    · rw [stillWaits_iff]
      constructor
      · intro hm
        obtain ⟨w, hw, rfl⟩ := List.mem_map.1 hm
        obtain ⟨hw, hp⟩ := List.mem_filter.1 hw
        exact ⟨⟨w, x, hl, hw, rfl⟩, hp⟩
      · rintro ⟨⟨w, y, hy, hw, rfl⟩, hp⟩
        obtain rfl := Option.some.inj (hl.symm.trans hy)
        exact List.mem_map.2 ⟨w, List.mem_filter.2 ⟨hw, hp⟩, rfl⟩
    · rw [waiterCount, hl, List.length_map]
      rfl

/-! ## Whole histories -/

/-- No signal of the lock so far had a value that the filter accepts. -/
def NoneAccepted (l : LockId) (f : SignalFilter) (mid : List (LockEvent ρ)) : Prop :=
  ∀ v, .signal l v ∈ mid → f.accepts v = false

theorem forall_answer?_eq_none {mid : List (LockEvent ρ)} {tab : String} :
    (∀ e ∈ mid, e.answer? l f tab = none) ↔
      NoneAccepted l f mid ∧ ∀ e ∈ mid, e.ends tab = false := by
  constructor
  · intro h
    refine ⟨fun v hv => (LockEvent.answer?_eq_none.1 (h _ hv)).1 v rfl, fun e he => ?_⟩
    exact (LockEvent.answer?_eq_none.1 (h e he)).2
  · rintro ⟨haccepted, hends⟩ e he
    refine LockEvent.answer?_eq_none.2 ⟨fun v hv => ?_, hends e he⟩
    exact haccepted v (hv ▸ he)

/-- Whether the lock of a waiter is released a while after the registration. -/
theorem not_releasedIn_register (before mid : List (LockEvent ρ)) (f : SignalFilter)
    (hl : (afterAll before).lock? l = some x) :
    ¬ ReleasedIn (before ++ .register l f :: mid) l ↔
      x.released = false ∧ ∀ e ∈ mid, e.ends x.tab = false := by
  rw [releasedIn_append before _ hl, not_or, Bool.not_eq_true]
  simp [LockEvent.ends]

variable (before after : List (LockEvent ρ))

/-- A waiter receives a value exactly if it is the first one accepted, and before a release. -/
theorem outcome?_eq_value (hl : (afterAll before).lock? l = some x) (v : Json) :
    outcome? l x f after = some (.value v) ↔
      ∃ mid rest, after = mid ++ .signal l v :: rest ∧ f.accepts v = true ∧
        NoneAccepted l f mid ∧ ¬ ReleasedIn (before ++ .register l f :: mid) l := by
  unfold outcome?
  constructor
  · intro h
    split at h
    · cases h
    · next hr =>
      obtain ⟨mid, e, rest, rfl, he, hmid⟩ := List.findSome?_eq_some_iff.1 h
      obtain ⟨rfl, hv⟩ := LockEvent.answer?_eq_value.1 he
      obtain ⟨hnone, hends⟩ := forall_answer?_eq_none.1 hmid
      refine ⟨mid, rest, rfl, hv, hnone, ?_⟩
      exact (not_releasedIn_register before mid f hl).2 ⟨Bool.not_eq_true _ ▸ hr, hends⟩
  · rintro ⟨mid, rest, rfl, hv, hnone, hreleased⟩
    obtain ⟨hr, hends⟩ := (not_releasedIn_register before mid f hl).1 hreleased
    rw [if_neg (by rw [hr]; exact nofun)]
    refine List.findSome?_eq_some_iff.2 ⟨mid, _, rest, rfl, ?_, ?_⟩
    · exact LockEvent.answer?_eq_value.2 ⟨rfl, hv⟩
    · exact forall_answer?_eq_none.2 ⟨hnone, hends⟩

/-- A waiter waits on exactly if no value was accepted and the lock was not released. -/
theorem outcome?_eq_none (hl : (afterAll before).lock? l = some x) :
    outcome? l x f after = none ↔
      NoneAccepted l f after ∧ ¬ ReleasedIn (before ++ .register l f :: after) l := by
  rw [not_releasedIn_register before after f hl]
  unfold outcome?
  constructor
  · intro h
    split at h
    · cases h
    · next hr =>
      obtain ⟨hnone, hends⟩ := forall_answer?_eq_none.1 (List.findSome?_eq_none_iff.1 h)
      exact ⟨hnone, Bool.not_eq_true _ ▸ hr, hends⟩
  · rintro ⟨hnone, hr, hends⟩
    rw [if_neg (by rw [hr]; exact nofun)]
    exact List.findSome?_eq_none_iff.2 (forall_answer?_eq_none.2 ⟨hnone, hends⟩)

/-- A waiter sees a release exactly if the lock was released before a value was accepted. -/
theorem outcome?_eq_released (hl : (afterAll before).lock? l = some x) :
    outcome? l x f after = some .released ↔
      ∃ mid rest, after = mid ++ rest ∧ NoneAccepted l f mid ∧
        ReleasedIn (before ++ .register l f :: mid) l := by
  constructor
  · intro h
    unfold outcome? at h
    split at h
    · next hr =>
      refine ⟨[], after, rfl, nofun, ?_⟩
      exact (releasedIn_append before _ hl).2 (Or.inl hr)
    · obtain ⟨mid, e, rest, rfl, he, hmid⟩ := List.findSome?_eq_some_iff.1 h
      have hends := LockEvent.answer?_eq_released.1 he
      refine ⟨mid ++ [e], rest, by simp, fun v hv => ?_, ?_⟩
      · rcases List.mem_append.1 hv with hv | hv
        · exact (forall_answer?_eq_none.1 hmid).1 v hv
        · rw [← List.mem_singleton.1 hv] at hends
          cases hends
      · exact (releasedIn_append before _ hl).2 (Or.inr ⟨e, by simp, hends⟩)
  · rintro ⟨mid, rest, rfl, hnone, hreleased⟩
    unfold outcome?
    split
    · rfl
    · next hr =>
      rw [List.findSome?_append]
      have hmid : mid.findSome? (LockEvent.answer? l f x.tab) = some .released := by
        cases hfound : mid.findSome? (LockEvent.answer? l f x.tab) with
        | none =>
          obtain ⟨-, hends⟩ := forall_answer?_eq_none.1 (List.findSome?_eq_none_iff.1 hfound)
          refine absurd hreleased ((not_releasedIn_register before mid f hl).2 ⟨?_, hends⟩)
          exact Bool.not_eq_true _ ▸ hr
        | some d =>
          cases d with
          | released => rfl
          | value v =>
            obtain ⟨e, he, hv⟩ := List.exists_of_findSome?_eq_some hfound
            obtain ⟨rfl, haccepts⟩ := LockEvent.answer?_eq_value.1 hv
            exact absurd ((hnone v he).symm.trans haccepts) nofun
      rw [hmid]
      rfl

/-- Of the accepted values before a release there is a first one. -/
theorem exists_outcome?_eq_value (hl : (afterAll before).lock? l = some x) :
    (∃ v, outcome? l x f after = some (.value v)) ↔
      ∃ mid v rest, after = mid ++ .signal l v :: rest ∧ f.accepts v = true ∧
        ¬ ReleasedIn (before ++ .register l f :: mid) l := by
  constructor
  · rintro ⟨v, h⟩
    obtain ⟨mid, rest, hafter, hv, -, hreleased⟩ := (outcome?_eq_value before after hl v).1 h
    exact ⟨mid, v, rest, hafter, hv, hreleased⟩
  · rintro ⟨mid, v, rest, rfl, hv, hreleased⟩
    obtain ⟨hr, hends⟩ := (not_releasedIn_register before mid f hl).1 hreleased
    rw [outcome?, if_neg (by rw [hr]; exact nofun), List.findSome?_append]
    cases hfound : mid.findSome? (LockEvent.answer? l f x.tab) with
    | none =>
      rw [List.findSome?_cons, LockEvent.answer?_eq_value.2 ⟨rfl, hv⟩]
      exact ⟨v, rfl⟩
    | some d =>
      cases d with
      | value u => exact ⟨u, rfl⟩
      | released =>
        obtain ⟨e, he, hreleased⟩ := List.exists_of_findSome?_eq_some hfound
        exact absurd ((hends e he).symm.trans (LockEvent.answer?_eq_released.1 hreleased)) nofun

/-- A waiter that was not dropped has received a value exactly if one that it accepts was signalled
before a release, then the first such value and nothing else; it has received a release exactly if
the lock was released before, the time before its registration included; otherwise its mailbox is
empty. The count of waiters is that of those not dropped who have received nothing. -/
theorem received_first_accepted (f : SignalFilter) (hl : (afterAll before).lock? l = some x)
    (hdrop : .drop (afterAll before).issued ∉ after) :
    let m := (afterAll before).issued
    let h := before ++ .register l f :: after
    ((∃ v, .value v ∈ received h m) ↔
      ∃ mid v rest, after = mid ++ .signal l v :: rest ∧ f.accepts v = true ∧
        ¬ ReleasedIn (before ++ .register l f :: mid) l) ∧
    (∀ v, received h m = [.value v] ↔
      ∃ mid rest, after = mid ++ .signal l v :: rest ∧ f.accepts v = true ∧
        NoneAccepted l f mid ∧ ¬ ReleasedIn (before ++ .register l f :: mid) l) ∧
    (received h m = [.released] ↔
      ∃ mid rest, after = mid ++ rest ∧ NoneAccepted l f mid ∧
        ReleasedIn (before ++ .register l f :: mid) l) ∧
    (received h m = [] ↔ NoneAccepted l f after ∧ ¬ ReleasedIn h l) ∧
    (received h m).length ≤ 1 ∧
    (afterAll h).mailbox? m = some ⟨m, (received h m).head?⟩ ∧
    ∃ ms : List MailboxId, ms.Nodup ∧ (∀ m', m' ∈ ms ↔ StillWaits h l m') ∧
      (afterAll h).waiterCount l = ms.length := by
  intro m h
  obtain ⟨hmailbox, hreceived, -⟩ := received_of_kept before after f hl hdrop
  have hlist : ∀ d, received h m = [d] ↔ outcome? l x f after = some d := by
    intro d
    rw [hreceived]
    cases outcome? l x f after <;> simp
  refine ⟨?_, fun v => ?_, ?_, ?_, ?_, ?_, waiterCount_eq_length h l⟩
  · rw [← exists_outcome?_eq_value before after hl, hreceived]
    simp
  · rw [hlist, outcome?_eq_value before after hl]
  · rw [hlist, outcome?_eq_released before after hl]
  · rw [← outcome?_eq_none before after hl, hreceived, Option.toList_eq_nil_iff]
  · rw [hreceived]
    cases outcome? l x f after <;> simp
  · rw [hmailbox, hreceived]
    cases outcome? l x f after <;> rfl

/-- Of the values null, true and false, signalled before a release, a waiter for values that are not
null has received the second, while another waiter of the lock was served by the first. -/
theorem received_of_second_signal :
    let before : List (LockEvent Unit) := [.obtain "main" "b" "k", .register 0 .all]
    let f : SignalFilter := .test fun v => !v.isNull
    let after : List (LockEvent Unit) :=
      [.signal 0 .null, .signal 0 (.bool true), .signal 0 (.bool false), .release "main"]
    (∃ x, (afterAll before).lock? 0 = some x) ∧ (afterAll before).issued = 1 ∧ .drop 1 ∉ after ∧
      received (before ++ .register 0 f :: after) 1 = [.value (.bool true)] := by
  intro before f after
  have hdrop : .drop 1 ∉ after := by simp [after]
  refine ⟨⟨_, rfl⟩, rfl, hdrop, ?_⟩
  refine ((received_first_accepted before after f rfl hdrop).2.1 (.bool true)).2
    ⟨[.signal 0 .null], _, rfl, rfl, fun v hv => ?_, ?_⟩
  · obtain rfl : v = .null := by simpa using hv
    rfl
  · refine (not_releasedIn_register before _ f rfl).2 ⟨rfl, fun e he => ?_⟩
    rw [List.mem_singleton.1 he]
    rfl

end LockTable
end BlockEngine
