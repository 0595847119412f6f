import BlockEngine.Proofs.Deliveries
import BlockEngine.Proofs.LockMap
import Mathlib.Data.List.Induction

/-!
# Signals that serve everybody

What a signal does for those who take part in a lock, after any history.

* `LockTable.Waiting`, `LockTable.Subscribed` : who takes part in a lock, read off the history;
* `LockTable.Ranked` : a lock has its waiters and its subscriptions in the order they came;
* `waiting_iff`, `subscribed_iff` : its lists hold those who take part;
* `Engine.Reacts` : reactions that have run one after the other;
* `LockTable.serves_all` : a signal serves those who accept it, each once and in order.
-/

namespace BlockEngine

variable {ρ : Type} {l : LockId} {x : Lock ρ} {f : SignalFilter} {m : MailboxId}

namespace LockEvent

/-- Whether an event takes part in a lock of a tab, signals it or ends it. -/
def touches (l : LockId) (tab : String) : LockEvent ρ → Bool
  | .register l' _ | .signal l' _ | .subscribe l' _ _ | .unsubscribe l' _ => l' = l
  | .release tab' => tab' = tab
  | .releaseAll => true
  | .obtain .. | .drop _ => false

/-- Whether an event subscribes to a lock. -/
def subscribes (l : LockId) : LockEvent ρ → Bool
  | .subscribe l' .. => l' = l
  | _ => false

/-- The subscriptions of a lock after an event. -/
def subscriptions (l : LockId) (x : Lock ρ) : LockEvent ρ → List (Subscription ρ)
  | .subscribe l' f r =>
    if l' = l ∧ x.released = false then x.subscriptions ++ [⟨x.issued + 1, f, r⟩]
    else x.subscriptions
  | .unsubscribe l' id =>
    if l' = l then x.subscriptions.filter (·.id ≠ id) else x.subscriptions
  | e => if e.ends x.tab then [] else x.subscriptions

theorem subscriptions_of_not_touches {e : LockEvent ρ} (h : e.touches l x.tab = false) :
    e.subscriptions l x = x.subscriptions := by
  cases e with
  | subscribe | unsubscribe =>
    have hl := of_decide_eq_false h
    simp [subscriptions, hl]
  | release tab =>
    have htab := of_decide_eq_false h
    simp [subscriptions, ends, htab]
  | releaseAll => cases h
  | _ => simp [subscriptions, ends]

/-- Who is subscribed after an event: those who were and have not left, and a new one. -/
theorem mem_subscriptions {e : LockEvent ρ} {s : Subscription ρ} :
    s ∈ e.subscriptions l x ↔
      (s ∈ x.subscriptions ∧ e ≠ .unsubscribe l s.id ∧ e.ends x.tab = false) ∨
        e = .subscribe l s.filter s.reaction ∧ s.id = x.issued + 1 ∧ x.released = false := by
  cases e with
  | subscribe l' f r =>
    simp only [subscriptions, ends]
    by_cases hl : l' = l ∧ x.released = false
    · obtain ⟨rfl, hr⟩ := hl
      rw [if_pos ⟨rfl, hr⟩, List.mem_append, List.mem_singleton]
      refine or_congr (by simp) ⟨?_, ?_⟩
      · rintro rfl
        exact ⟨rfl, rfl, hr⟩
      · obtain ⟨id, f', r'⟩ := s
        rintro ⟨h, rfl, -⟩
        obtain ⟨-, rfl, rfl⟩ := LockEvent.subscribe.inj h
        rfl
    · rw [if_neg hl]
      refine ⟨fun hs => .inl ⟨hs, by simp, trivial⟩, ?_⟩
      rintro (⟨hs, -⟩ | ⟨h, -, hr⟩)
      · exact hs
      · exact absurd ⟨(LockEvent.subscribe.inj h).1, hr⟩ hl
  | unsubscribe l' id =>
    simp only [subscriptions, ends]
    by_cases hl : l' = l
    · subst hl
      rw [if_pos rfl, List.mem_filter]
      simp [@eq_comm _ id s.id]
    · rw [if_neg hl]
      simp [hl]
  | release tab =>
    simp only [subscriptions, ends]
    by_cases htab : tab = x.tab <;> simp [htab]
  | releaseAll => simp [subscriptions, ends]
  | _ => simp [subscriptions, ends]

end LockEvent

namespace LockTable

variable {t : LockTable ρ} {h : List (LockEvent ρ)} {s : Subscription ρ}

/-! ## Who takes part -/

/-- A waiter for values of a filter: it registered on a lock in the course of a history, where it was
given a mailbox, was not dropped later and has received nothing. -/
def Waiting (h : List (LockEvent ρ)) (l : LockId) (f : SignalFilter) (m : MailboxId) : Prop :=
  ∃ before after x, h = before ++ .register l f :: after ∧ (afterAll before).lock? l = some x ∧
    m = (afterAll before).issued ∧ .drop m ∉ after ∧ received h m = []

/-- A subscription to a lock: it was made in the course of a history, where it was given its id, was
not taken back later, and the lock has not been released. -/
def Subscribed (h : List (LockEvent ρ)) (l : LockId) (s : Subscription ρ) : Prop :=
  ∃ before after x, h = before ++ .subscribe l s.filter s.reaction :: after ∧
    (afterAll before).lock? l = some x ∧
    s.id = ((afterAll before).subscribe l s.filter s.reaction).1 ∧
    .unsubscribe l s.id ∉ after ∧ ¬ ReleasedIn h l

/-- Who waits on a lock is a waiter in its list whose mailbox is empty. -/
theorem waiting_iff (h : List (LockEvent ρ)) (l : LockId) (f : SignalFilter) (m : MailboxId) :
    Waiting h l f m ↔
      (afterAll h).Waits m l ⟨f, m⟩ ∧ (afterAll h).isPending m = true := by
  have hawaits : ∀ f, Waiting h l f m → (afterAll h).Awaits l f m := by
    rintro f ⟨before, after, x, rfl, hl, rfl, hdrop, hnothing⟩
    obtain ⟨-, hreceived, hstill⟩ := received_of_kept before after f hl hdrop
    exact hstill (Option.toList_eq_nil_iff.1 (hreceived.symm.trans hnothing))
  refine ⟨fun hw => ⟨(hawaits f hw).waits, isPending_of_mailbox? (hawaits f hw).empty⟩, ?_⟩
  rintro ⟨hw, hp⟩
  obtain ⟨before, f', after, x, hh, hl, hm, hdrop, hnothing⟩ :=
    (stillWaits_iff h l m).2 ⟨⟨_, hw⟩, hp⟩
  have hwaiting : Waiting h l f' m := ⟨before, after, x, hh, hl, hm, hdrop, hnothing⟩
  obtain ⟨-, rfl⟩ := (hawaits f' hwaiting).only l _ hw
  exact hwaiting

/-- A lock after an event: what becomes of its subscriptions, and of the count of all ever made. -/
theorem subscriptions_step (hs : t.Sound) (hl : t.lock? l = some x) (e : LockEvent ρ) :
    ∃ x', (t.step e).2.lock? l = some x' ∧ x'.tab = x.tab ∧
      x'.released = (x.released || e.ends x.tab) ∧ x'.subscriptions = e.subscriptions l x ∧
      x'.issued = x.issued + if e.subscribes l then 1 else 0 := by
  obtain ⟨x', hx', htab, hreleased⟩ := released_step hs hl e
  refine ⟨x', hx', htab, hreleased, ?_⟩
  cases e with
  | obtain tab owner key =>
    obtain rfl := Option.some.inj ((lock?_obtain_of_some hl tab owner key).symm.trans hx')
    exact ⟨rfl, rfl⟩
  | register l' f =>
    change (t.register l' f).2.lock? l = some x' at hx'
    by_cases he : l = l'
    · subst he
      obtain ⟨ws, hx, -⟩ := lock?_register hl f
      obtain rfl := Option.some.inj (hx.symm.trans hx')
      exact ⟨rfl, rfl⟩
    · rw [lock?_register_of_ne he, hl] at hx'
      obtain rfl := Option.some.inj hx'
      exact ⟨rfl, rfl⟩
  | signal l' v =>
    obtain ⟨y, hy, value, ws, rfl, -⟩ := lock?_deliver hx'
    obtain rfl := Option.some.inj (hl.symm.trans hy)
    exact ⟨rfl, rfl⟩
  | subscribe l' f r =>
    change (t.subscribe l' f r).2.lock? l = some x' at hx'
    by_cases he : l = l'
    · subst he
      rw [lock?_subscribe hl] at hx'
      obtain rfl := Option.some.inj hx'
      cases hr : x.released <;> simp [LockEvent.subscriptions, LockEvent.subscribes, hr]
    · rw [lock?_subscribe_of_ne he, hl] at hx'
      obtain rfl := Option.some.inj hx'
      simp [LockEvent.subscriptions, LockEvent.subscribes, Ne.symm he]
  | unsubscribe l' id =>
    change (t.modify l' _).lock? l = some x' at hx'
    rw [lock?_modify, hl] at hx'
    by_cases he : l' = l
    · rw [if_pos he] at hx'
      obtain rfl := Option.some.inj hx'
      simp [LockEvent.subscriptions, LockEvent.subscribes, he]
    · rw [if_neg he] at hx'
      obtain rfl := Option.some.inj hx'
      simp [LockEvent.subscriptions, LockEvent.subscribes, he]
  | release tab =>
    obtain rfl := Option.some.inj ((hs.lock?_release hl tab).symm.trans hx')
    by_cases htab' : x.tab = tab
    · simp [LockEvent.subscriptions, LockEvent.subscribes, LockEvent.ends, Lock.ended, htab']
    · simp [LockEvent.subscriptions, LockEvent.subscribes, LockEvent.ends, htab', Ne.symm htab']
  | releaseAll =>
    obtain rfl := Option.some.inj ((hs.lock?_releaseAll hl).symm.trans hx')
    exact ⟨rfl, rfl⟩
  | drop m =>
    obtain rfl := Option.some.inj (hl.symm.trans hx')
    exact ⟨rfl, rfl⟩

/-- A place in a list with one more end: the end, or one before it. -/
theorem split_concat {α : Type} {as bs cs : List α} {a b : α} (h : as ++ [a] = bs ++ b :: cs) :
    (bs = as ∧ b = a ∧ cs = []) ∨ ∃ ds, cs = ds ++ [a] ∧ as = bs ++ b :: ds := by
  rcases List.eq_nil_or_concat cs with rfl | ⟨ds, d, rfl⟩
  · obtain ⟨rfl, he⟩ := List.append_inj' h rfl
    exact .inl ⟨rfl, (List.singleton_inj.1 he).symm, rfl⟩
  · have h' : as ++ [a] = (bs ++ b :: ds) ++ [d] := by simpa using h
    obtain ⟨rfl, he⟩ := List.append_inj' h' rfl
    obtain rfl := List.singleton_inj.1 he
    exact .inr ⟨ds, by simp, rfl⟩

/-- Who is subscribed one event later. -/
theorem subscribed_concat (hl : (afterAll h).lock? l = some x) (e : LockEvent ρ) :
    Subscribed (h ++ [e]) l s ↔
      (Subscribed h l s ∧ e ≠ .unsubscribe l s.id ∧ e.ends x.tab = false) ∨
        e = .subscribe l s.filter s.reaction ∧ s.id = x.issued + 1 ∧ x.released = false := by
  have hreleased : ReleasedIn (h ++ [e]) l ↔ x.released = true ∨ e.ends x.tab = true := by
    simpa using releasedIn_append h [e] hl
  have hnumber : ((afterAll h).subscribe l s.filter s.reaction).1 = x.issued + 1 := by
    unfold subscribe
    rw [hl]
    rfl
  constructor
  · rintro ⟨before, after, y, hh, hy, hid, hunsubscribed, hr⟩
    rw [hreleased, not_or, Bool.not_eq_true, Bool.not_eq_true] at hr
    rcases split_concat hh with ⟨rfl, rfl, rfl⟩ | ⟨after, rfl, rfl⟩
    · exact .inr ⟨rfl, hid.trans hnumber, hr.1⟩
    · have hne := fun he => hunsubscribed (List.mem_append_right after (List.mem_singleton.2 he))
      have hnot := fun hmem => hunsubscribed (List.mem_append_left [e] hmem)
      refine .inl ⟨⟨before, after, y, rfl, hy, hid, hnot, ?_⟩, fun he => hne he.symm,
        hr.2⟩
      rw [releasedIn_iff _ hl, hr.1]
      exact Bool.false_ne_true
  · rintro (⟨⟨before, after, y, rfl, hy, hid, hunsubscribed, hr⟩, he, hends⟩ | ⟨rfl, hid, hr⟩)
    · refine ⟨before, after ++ [e], y, by simp, hy, hid, ?_, ?_⟩
      · simpa using ⟨hunsubscribed, Ne.symm he⟩
      · rw [hreleased, hends, ← releasedIn_iff _ hl]
        simpa using hr
    · refine ⟨h, [], x, rfl, hl, hid.trans hnumber.symm, List.not_mem_nil, ?_⟩
      rw [hreleased, hr]
      simp [LockEvent.ends]

/-- Who takes part in a lock takes part after it was made. -/
theorem Subscribed.lock? (hsub : Subscribed h l s) : ∃ x, (afterAll h).lock? l = some x := by
  obtain ⟨before, after, x, rfl, hx, -⟩ := hsub
  obtain ⟨x', hx', -⟩ := released_play (sound_afterAll before) hx
    (.subscribe l s.filter s.reaction :: after)
  exact ⟨x', by rw [afterAll_append]; exact hx'⟩

/-- The subscriptions of a lock are those made, not taken back and not ended by a release. -/
theorem subscribed_iff (hl : (afterAll h).lock? l = some x) :
    Subscribed h l s ↔ s ∈ x.subscriptions := by
  induction h using List.reverseRecOn generalizing x with
  | nil => cases hl
  | append_singleton h e ih =>
    have hstep := hl
    rw [afterAll_concat] at hstep
    cases hy : (afterAll h).lock? l with
    | some y =>
      obtain ⟨x', hx', -, -, hsubs, -⟩ := subscriptions_step (sound_afterAll h) hy e
      obtain rfl := Option.some.inj (hx'.symm.trans hstep)
      rw [subscribed_concat hy, hsubs, LockEvent.mem_subscriptions, ih hy]
    | none =>
      obtain ⟨tab, owner, key, rfl, rfl⟩ := new_step e hy hstep
      refine ⟨fun hsub => ?_, nofun⟩
      obtain ⟨before, after, z, hh, hz, hid, hunsubscribed, hr⟩ := hsub
      rcases split_concat hh with ⟨-, he, -⟩ | ⟨after, rfl, rfl⟩
      · cases he
      · obtain ⟨z', hz', -⟩ := released_play (sound_afterAll before) hz
          (.subscribe l s.filter s.reaction :: after)
        rw [afterAll_append] at hy
        exact nomatch hz'.symm.trans hy

/-! ## In the order they came -/

/-- Locks have their waiters and their subscriptions in the order they came. -/
structure Ranked (t : LockTable ρ) : Prop where
  waiters : ∀ l x, t.lock? l = some x → x.waiters.Pairwise (·.mailbox < ·.mailbox)
  subscriptions : ∀ l x, t.lock? l = some x → x.subscriptions.Pairwise (·.id < ·.id)
  counted : ∀ l x, t.lock? l = some x → ∀ s ∈ x.subscriptions, s.id ≤ x.issued

theorem Ranked.empty : (LockTable.empty : LockTable ρ).Ranked where
  waiters _ _ h := nomatch h
  subscriptions _ _ h := nomatch h
  counted _ _ h := nomatch h

/-- A new waiter comes behind those that are there. -/
theorem waiters_register (ht : t.Tidy) (hl : t.lock? l = some x)
    (hx : x.waiters.Pairwise (·.mailbox < ·.mailbox)) (l' : LockId) (f : SignalFilter) {x' : Lock ρ}
    (hl' : (t.register l' f).2.lock? l = some x') :
    x'.waiters.Pairwise (·.mailbox < ·.mailbox) := by
  by_cases he : l = l'
  · subst he
    rw [register_of_some hl] at hl'
    cases hr : x.released with
    | true =>
      simp only [hr, if_true] at hl'
      obtain rfl := Option.some.inj (hl.symm.trans hl')
      exact hx
    | false =>
      simp only [hr, Bool.false_eq_true, if_false] at hl'
      rw [lock?_modify, if_pos rfl] at hl'
      obtain ⟨y, hy, rfl⟩ := Option.map_eq_some_iff.1 hl'
      obtain rfl : x = y := Option.some.inj (hl.symm.trans hy)
      refine List.pairwise_append.2 ⟨hx.sublist List.filter_sublist, List.pairwise_singleton _ _, ?_⟩
      intro w hw w' hw'
      obtain rfl := List.mem_singleton.1 hw'
      exact ht.numbered l x hl w (List.mem_filter.1 hw).1
  · rw [lock?_register_of_ne he] at hl'
    obtain rfl := Option.some.inj (hl.symm.trans hl')
    exact hx

/-- So does a new subscription. -/
theorem subscriptions_ranked (e : LockEvent ρ) (hx : x.subscriptions.Pairwise (·.id < ·.id))
    (hcounted : ∀ s ∈ x.subscriptions, s.id ≤ x.issued) :
    (e.subscriptions l x).Pairwise (·.id < ·.id) := by
  unfold LockEvent.subscriptions
  split
  · split
    · refine List.pairwise_append.2 ⟨hx, List.pairwise_singleton _ _, fun s hs s' hs' => ?_⟩
      obtain rfl := List.mem_singleton.1 hs'
      exact Nat.lt_succ_of_le (hcounted s hs)
    · exact hx
  · split
    · exact hx.sublist List.filter_sublist
    · exact hx
  · split
    · exact .nil
    · exact hx

theorem Ranked.step (hr : t.Ranked) (ht : t.Tidy) (hs : t.Sound) (e : LockEvent ρ) :
    (t.step e).2.Ranked := by
  have hnew : ∀ l x', t.lock? l = none → (t.step e).2.lock? l = some x' →
      x'.waiters = [] ∧ x'.subscriptions = [] := by
    intro l x' hnone hl
    obtain ⟨tab, owner, key, -, rfl⟩ := new_step e hnone hl
    exact ⟨rfl, rfl⟩
  refine ⟨fun l x' hl => ?_, fun l x' hl => ?_, fun l x' hl => ?_⟩
  · cases hx : t.lock? l with
    | none => rw [(hnew l x' hx hl).1]; exact .nil
    | some x =>
      by_cases he : ∃ l' f, e = .register l' f
      · obtain ⟨l', f, rfl⟩ := he
        exact waiters_register ht hx (hr.waiters l x hx) l' f hl
      · rcases (wanes_step e fun l f h => he ⟨l, f, h⟩).waiters l x' hl with
          hnil | ⟨y, hy, hsub⟩
        · rw [hnil]; exact .nil
        · exact (hr.waiters l y hy).sublist hsub
  · cases hx : t.lock? l with
    | none => rw [(hnew l x' hx hl).2]; exact .nil
    | some x =>
      obtain ⟨y, hy, -, -, hsubs, -⟩ := subscriptions_step hs hx e
      obtain rfl := Option.some.inj (hy.symm.trans hl)
      rw [hsubs]
      exact subscriptions_ranked e (hr.subscriptions l x hx) (hr.counted l x hx)
  · cases hx : t.lock? l with
    | none => rw [(hnew l x' hx hl).2]; exact nofun
    | some x =>
      obtain ⟨y, hy, -, -, hsubs, hissued⟩ := subscriptions_step hs hx e
      obtain rfl := Option.some.inj (hy.symm.trans hl)
      intro s hmem
      rw [hsubs] at hmem
      rw [hissued]
      rcases LockEvent.mem_subscriptions.1 hmem with ⟨hold, -⟩ | ⟨rfl, hid, -⟩
      · exact Nat.le_add_right_of_le (hr.counted l x hx s hold)
      · rw [hid]
        simp [LockEvent.subscribes]

theorem Ranked.play (hr : t.Ranked) (ht : t.Tidy) (hs : t.Sound) (h : List (LockEvent ρ)) :
    (t.play h).2.Ranked := by
  induction h generalizing t with
  | nil => exact hr
  | cons e rest ih => exact ih (hr.step ht hs e) (ht.step hs e) (hs.step e)

theorem ranked_afterAll (h : List (LockEvent ρ)) : (afterAll h).Ranked :=
  Ranked.empty.play .empty .empty h

/-- The count of subscriptions ever made only grows. -/
theorem issued_le (hs : t.Sound) (hl : t.lock? l = some x) (h : List (LockEvent ρ)) :
    ∃ x', (t.play h).2.lock? l = some x' ∧ x.issued ≤ x'.issued := by
  induction h generalizing t x with
  | nil => exact ⟨x, hl, Nat.le_refl _⟩
  | cons e rest ih =>
    obtain ⟨x₁, hx₁, -, -, -, hissued⟩ := subscriptions_step hs hl e
    obtain ⟨x₂, hx₂, hle⟩ := ih (hs.step e) hx₁
    exact ⟨x₂, hx₂, Nat.le_trans (by omega) hle⟩

/-- A later subscription has a greater id. -/
theorem subscribe_lt (hl : (afterAll h).lock? l = some x) (f f' : SignalFilter) (r r' : ρ)
    (mid : List (LockEvent ρ)) :
    ((afterAll h).subscribe l f r).1 <
      ((afterAll (h ++ .subscribe l f r :: mid)).subscribe l f' r').1 := by
  obtain ⟨x₁, hx₁, -, -, -, hissued⟩ :=
    subscriptions_step (sound_afterAll h) hl (.subscribe l f r)
  obtain ⟨x₂, hx₂, hle⟩ := issued_le ((sound_afterAll h).step _) hx₁ mid
  have hx₂' : (afterAll (h ++ .subscribe l f r :: mid)).lock? l = some x₂ := by
    rw [afterAll_append]
    exact hx₂
  simp only [LockEvent.subscribes, decide_true, if_true] at hissued
  unfold subscribe
  rw [hl, hx₂']
  change x.issued + 1 < x₂.issued + 1
  omega

/-! ## What a signal leaves alone -/

/-- An event that does not touch a lock leaves it as it is. -/
theorem lock?_step_of_not_touches (hs : t.Sound) (hl : t.lock? l = some x) {e : LockEvent ρ}
    (he : e.touches l x.tab = false) : (t.step e).2.lock? l = some x := by
  cases e with
  | obtain tab owner key => exact lock?_obtain_of_some hl tab owner key
  | register l' f => exact (lock?_register_of_ne (Ne.symm (of_decide_eq_false he)) f).trans hl
  | signal l' v => exact (lock?_deliver_of_ne (Ne.symm (of_decide_eq_false he)) v).trans hl
  | subscribe l' f r =>
    exact (lock?_subscribe_of_ne (Ne.symm (of_decide_eq_false he)) f r).trans hl
  | unsubscribe l' id =>
    exact (lock?_unsubscribe_of_ne (Ne.symm (of_decide_eq_false he)) id).trans hl
  | release tab =>
    exact (hs.lock?_release hl tab).trans (congrArg some (if_neg (Ne.symm (of_decide_eq_false he))))
  | releaseAll => cases he
  | drop m => exact hl

theorem lock?_play_of_not_touches (hs : t.Sound) (hl : t.lock? l = some x) {es : List (LockEvent ρ)}
    (he : ∀ e ∈ es, e.touches l x.tab = false) : (t.play es).2.lock? l = some x := by
  induction es generalizing t with
  | nil => exact hl
  | cons e rest ih =>
    exact ih (hs.step e) (lock?_step_of_not_touches hs hl (he e List.mem_cons_self))
      fun e' he' => he e' (List.mem_cons_of_mem _ he')

/-- An event that does not touch a lock has nothing for those who wait on it. -/
theorem answer?_of_not_touches {tab : String} {e : LockEvent ρ} (he : e.touches l tab = false)
    (f : SignalFilter) : e.answer? l f tab = none := by
  cases e with
  | signal l' v => exact if_neg fun h => of_decide_eq_false he h.1
  | release tab' => exact if_neg (of_decide_eq_false he)
  | releaseAll => cases he
  | _ => rfl

/-- Who waits on a lock registered, was not dropped, and nothing that came later was for it. -/
theorem waiting_iff_outcome : Waiting h l f m ↔
    ∃ before after x, h = before ++ .register l f :: after ∧ (afterAll before).lock? l = some x ∧
      m = (afterAll before).issued ∧ .drop m ∉ after ∧ outcome? l x f after = none := by
  constructor
  · rintro ⟨before, after, x, rfl, hl, rfl, hdrop, hnothing⟩
    obtain ⟨-, hreceived, -⟩ := received_of_kept before after f hl hdrop
    exact ⟨before, after, x, rfl, hl, rfl, hdrop,
      Option.toList_eq_nil_iff.1 (hreceived.symm.trans hnothing)⟩
  · rintro ⟨before, after, x, rfl, hl, rfl, hdrop, hnone⟩
    obtain ⟨-, hreceived, -⟩ := received_of_kept before after f hl hdrop
    exact ⟨before, after, x, rfl, hl, rfl, hdrop, hreceived.trans (Option.toList_eq_nil_iff.2 hnone)⟩

theorem outcome?_append {y : Lock ρ} {after later : List (LockEvent ρ)} :
    outcome? l y f (after ++ later) = none ↔
      outcome? l y f after = none ∧ ∀ e ∈ later, e.answer? l f y.tab = none := by
  unfold outcome?
  split
  · simp
  · simp only [List.findSome?_eq_none_iff, List.mem_append]
    exact ⟨fun h => ⟨fun e he => h e (.inl he), fun e he => h e (.inr he)⟩,
      fun ⟨h, h'⟩ e he => he.elim (h e) (h' e)⟩

/-- Who still waits after a while in which nobody registered on the lock. -/
theorem waiting_append (hl : (afterAll h).lock? l = some x) {later : List (LockEvent ρ)}
    (hregister : ∀ f, .register l f ∉ later) (hdrop : ∀ f m, Waiting h l f m → .drop m ∉ later) :
    Waiting (h ++ later) l f m ↔
      Waiting h l f m ∧ ∀ e ∈ later, e.answer? l f x.tab = none := by
  have htab : ∀ {before after : List (LockEvent ρ)} {y : Lock ρ}, h = before ++ after →
      (afterAll before).lock? l = some y → y.tab = x.tab := by
    rintro before after y rfl hy
    obtain ⟨x', hx', htab, -⟩ := released_play (sound_afterAll before) hy after
    rw [afterAll_append] at hl
    obtain rfl := Option.some.inj (hl.symm.trans hx')
    exact htab.symm
  constructor
  · intro hw
    obtain ⟨before, after, y, hh, hy, hm, hnot, hnone⟩ := waiting_iff_outcome.1 hw
    rcases List.append_eq_append_iff.1 hh with ⟨mid, rfl, hlater⟩ | ⟨mid, rfl, hafter⟩
    · exact absurd (hlater ▸ List.mem_append_right mid List.mem_cons_self) (hregister f)
    · rcases mid with _ | ⟨e, mid⟩
      · have hmem : .register l f ∈ [] ++ later := hafter ▸ List.mem_cons_self
        exact absurd hmem (hregister f)
      · obtain ⟨rfl, rfl⟩ := List.cons.inj hafter
        obtain ⟨hnone, hlater⟩ := outcome?_append.1 hnone
        refine ⟨waiting_iff_outcome.2 ⟨before, mid, y, rfl, hy, hm,
          fun hmem => hnot (List.mem_append_left _ hmem), hnone⟩, ?_⟩
        rwa [htab rfl hy] at hlater
  · rintro ⟨hw, hlater⟩
    have hnot := hdrop f m hw
    obtain ⟨before, after, y, rfl, hy, hm, hkept, hnone⟩ := waiting_iff_outcome.1 hw
    refine waiting_iff_outcome.2 ⟨before, after ++ later, y, by simp, hy, hm, ?_, ?_⟩
    · simpa using ⟨hkept, hnot⟩
    · exact outcome?_append.2 ⟨hnone, by rwa [htab rfl hy]⟩

/-- What a signal hands to a mailbox. -/
theorem received_signal (h : List (LockEvent ρ)) (l : LockId) (v : Json) (m : MailboxId) :
    received (h ++ [.signal l v]) m =
      received h m ++ if m ∈ ((afterAll h).deliver l v).1.1 then [.value v] else [] := by
  have hnodup : ((afterAll h).deliver l v).1.1.Nodup := by
    cases hl : (afterAll h).lock? l with
    | none => rw [deliver_of_none hl]; exact .nil
    | some x =>
      rw [deliver_of_some hl]
      exact ((tidy_afterAll h).distinct l x hl).sublist (List.filter_sublist.map _)
  rw [received_append]
  congr 1
  change deliveredTo m (((afterAll h).deliver l v).1.1.map (·, .value v) ++ []) = _
  rw [List.append_nil]
  exact deliveredTo_of_nodup m hnodup _

end LockTable

/-! ## Signals -/

namespace Engine

/-- Reactions to a value have run one after the other, each to its end. -/
inductive Reacts (e : Engine) (u : TaskId) (v : Json) : List Reaction → List World → Prop
  | nil : Reacts e u v [] []
  | cons {r : Reaction} {rs : List Reaction} {ws ws' : List World} :
      e.replay u (e.react v r) ws = some (.done ()) → Reacts e u v rs ws' →
      Reacts e u v (r :: rs) (ws ++ ws')

theorem replay_reactAll {e : Engine} {u : TaskId} {v : Json} (rs : List Reaction)
    (ws : List World) :
    e.replay u (e.reactAll v rs) ws = some (.done ()) ↔ e.Reacts u v rs ws := by
  induction rs generalizing ws with
  | nil =>
    refine replay_done_iff.trans ⟨?_, ?_⟩
    · rintro ⟨rfl, -⟩
      exact .nil
    · rintro ⟨⟩
      exact ⟨rfl, rfl⟩
  | cons r rs ih =>
    change e.replay u ((e.react v r).bind fun _ => e.reactAll v rs) ws = _ ↔ _
    refine replay_bind_iff.trans ⟨?_, ?_⟩
    · rintro ⟨ws₁, ws₂, ⟨⟩, rfl, hfirst, hrest⟩
      exact .cons hfirst ((ih ws₂).1 hrest)
    · rintro (_ | ⟨hfirst, hrest⟩)
      exact ⟨_, _, (), rfl, hfirst, (ih _).2 hrest⟩

end Engine

namespace LockTable

variable {h : List (LockEvent Reaction)} {x : Lock Reaction} {s : Subscription Reaction}

/-- What a signal of a lock with a value does after a history, where `ms` are the mailboxes of the
waiters and `ss` the subscriptions that accept the value. -/
structure SignalServes (e : Engine) (u : TaskId) (h : List (LockEvent Reaction)) (l : LockId)
    (tab : String) (v : Json) (ms : List MailboxId) (ss : List (Subscription Reaction)) : Prop where
  /-- The waiters are all who wait and accept, in the order in which they registered. -/
  waiters : ms.Pairwise (· < ·) ∧ ∀ m, m ∈ ms ↔ ∃ f, Waiting h l f m ∧ f.accepts v = true
  /-- The subscriptions are all current ones that accept, in the order in which they were made. -/
  subscribers : ss.Pairwise (·.id < ·.id) ∧
    ∀ s, s ∈ ss ↔ Subscribed h l s ∧ s.filter.accepts v = true
  /-- In its first step it stores the value, serves the waiters and wakes them in order; the reactions
  of the subscriptions are still to run then, and after them comes the answer. -/
  first : ∀ w : World, w.locks = afterAll h → ∀ {β : Type} (k : Nat → Execution β),
    e.step u w (.signal l v k) = some
      ((e.reactAll v (ss.map (·.reaction))).bind fun _ => k (ms.length + ss.length),
        World.wakeReaders { w with locks := afterAll (h ++ [.signal l v]) } ms)
  /-- All of it: that step, the reactions in order, each once and to its end, and the answer. -/
  whole : ∀ w : World, w.locks = afterAll h → ∀ ws n,
    e.replay u (Execution.signalLock l v) (w :: ws) = some (.done n) ↔
      n = ms.length + ss.length ∧ e.Reacts u v (ss.map (·.reaction)) ws
  /-- The waiters receive the value, and nobody else anything. -/
  received : ∀ m, received (h ++ [.signal l v]) m =
    received h m ++ if m ∈ ms then [.value v] else []
  /-- The lock has the value, all waiters that did not accept it and all subscriptions, and keeps them
  while others do not touch it. -/
  kept : ∀ es : List (LockEvent Reaction), (∀ ev ∈ es, ev.touches l tab = false) →
    (∀ f m, Waiting h l f m → .drop m ∉ es) →
      let h' := h ++ .signal l v :: es
      (∃ x', (afterAll h').lock? l = some x' ∧ x'.value = v) ∧
        (∀ f m, Waiting h' l f m ↔ Waiting h l f m ∧ f.accepts v = false) ∧
        ∀ s, Subscribed h' l s ↔ Subscribed h l s

/-- A lock after a signal. -/
theorem lock?_deliver_self {t : LockTable ρ} {x : Lock ρ} (hl : t.lock? l = some x) (v : Json) :
    ∃ ws, (t.deliver l v).2.lock? l = some { x with value := v, waiters := ws } := by
  rw [deliver_of_some hl]
  simp only [lock?_serveAll, lock?_modify, if_pos, hl]
  exact ⟨_, rfl⟩

theorem kept_by_signal (hl : (afterAll h).lock? l = some x) (v : Json)
    {es : List (LockEvent Reaction)} (hes : ∀ ev ∈ es, ev.touches l x.tab = false)
    (hdrop : ∀ f m, Waiting h l f m → .drop m ∉ es) :
    let h' := h ++ .signal l v :: es
    (∃ x', (afterAll h').lock? l = some x' ∧ x'.value = v) ∧
      (∀ f m, Waiting h' l f m ↔ Waiting h l f m ∧ f.accepts v = false) ∧
      ∀ s, Subscribed h' l s ↔ Subscribed h l s := by
  obtain ⟨waiters, hsignal⟩ := lock?_deliver_self hl v
  have hafter := lock?_play_of_not_touches ((sound_afterAll h).step (.signal l v)) hsignal hes
  have hlock : (afterAll (h ++ .signal l v :: es)).lock? l = some { x with value := v, waiters } := by
    rw [afterAll_append]
    exact hafter
  refine ⟨⟨_, hlock, rfl⟩, fun f m => ?_, fun s => ?_⟩
  · rw [waiting_append hl]
    · refine and_congr_right fun _ => ⟨fun hnone => ?_, fun hv ev hev => ?_⟩
      · exact (LockEvent.answer?_eq_none.1 (hnone _ List.mem_cons_self)).1 v rfl
      · rcases List.mem_cons.1 hev with rfl | hev
        · exact if_neg fun hacc => Bool.false_ne_true (hv.symm.trans hacc.2)
        · exact answer?_of_not_touches (hes ev hev) f
    · intro f hmem
      rcases List.mem_cons.1 hmem with he | hmem
      · cases he
      · exact absurd (hes _ hmem) (by simp [LockEvent.touches])
    · intro f m hw hmem
      rcases List.mem_cons.1 hmem with he | hmem
      · cases he
      · exact hdrop f m hw hmem
  · rw [subscribed_iff hlock, subscribed_iff hl]

/-- A signal of a lock serves everybody who takes part in it and accepts the value. -/
theorem signal_serves (e : Engine) (u : TaskId) (hl : (afterAll h).lock? l = some x) (v : Json) :
    ∃ ms ss, SignalServes e u h l x.tab v ms ss := by
  have hranked := ranked_afterAll h
  have hdeliver : ((afterAll h).deliver l v).1 =
      ((afterAll h).woken x v, (x.subscriptions.filter (·.filter.accepts v)).map (·.reaction)) := by
    rw [deliver_of_some hl]
  have hworld : ∀ w : World, w.locks = afterAll h → w.deliver l v =
      ((((afterAll h).woken x v).length,
        (x.subscriptions.filter (·.filter.accepts v)).map (·.reaction)),
        World.wakeReaders { w with locks := afterAll (h ++ [.signal l v]) }
          ((afterAll h).woken x v)) := by
    intro w hw
    change (((w.locks.deliver l v).1.1.length, (w.locks.deliver l v).1.2),
      World.wakeReaders { w with locks := (w.locks.deliver l v).2 } (w.locks.deliver l v).1.1) = _
    rw [hw, hdeliver, afterAll_concat]
    rfl
  refine ⟨(afterAll h).woken x v, x.subscriptions.filter (·.filter.accepts v), ⟨?_, fun m => ?_⟩,
    ⟨(hranked.subscriptions l x hl).sublist List.filter_sublist, fun s => ?_⟩, fun w hw β k => ?_,
    fun w hw ws n => ?_, fun m => ?_, fun es hes hdrop => kept_by_signal hl v hes hdrop⟩
  · exact List.pairwise_map.2 ((hranked.waiters l x hl).sublist List.filter_sublist)
  · have hwoken : ((afterAll h).deliver l v).1.1 = (afterAll h).woken x v := congrArg Prod.fst hdeliver
    rw [← hwoken, mem_served hl]
    constructor
    · rintro ⟨⟨f, m⟩, hw, hp, hv, rfl⟩
      exact ⟨f, (waiting_iff h l f m).2 ⟨⟨x, hl, hw, rfl⟩, hp⟩, hv⟩
    · rintro ⟨f, hwaiting, hv⟩
      obtain ⟨⟨y, hy, hw, -⟩, hp⟩ := (waiting_iff h l f m).1 hwaiting
      obtain rfl := Option.some.inj (hl.symm.trans hy)
      exact ⟨⟨f, m⟩, hw, hp, hv, rfl⟩
  · rw [List.mem_filter, subscribed_iff hl]
  · change some ((e.reactAll v (w.deliver l v).1.2).bind fun _ =>
      k ((w.deliver l v).1.1 + (w.deliver l v).1.2.length), (w.deliver l v).2) = _
    rw [hworld w hw, List.length_map]
  · refine Engine.replay_signal_iff.trans ⟨?_, ?_⟩
    · rintro ⟨w', ws₁, ws₂, hws, hreactions, hrest⟩
      obtain ⟨rfl, rfl⟩ := List.cons.inj hws
      obtain ⟨rfl, hn⟩ := Engine.replay_done_iff.1 hrest
      rw [hworld w hw, List.length_map] at hn
      rw [hw, hdeliver] at hreactions
      rw [List.append_nil]
      exact ⟨hn.symm, (Engine.replay_reactAll _ _).1 hreactions⟩
    · rintro ⟨rfl, hreacts⟩
      refine ⟨w, ws, [], by rw [List.append_nil], ?_, ?_⟩
      · rw [hw, hdeliver]
        exact (Engine.replay_reactAll _ _).2 hreacts
      · rw [hworld w hw, List.length_map]
        rfl
  · rw [received_signal, hdeliver]

/-- After every history of a lock a signal serves everybody who takes part in it and accepts the value,
each once and in order, and nobody else. No id of a subscription is given twice, one can be taken back
exactly while it is current, and after a release no reaction runs on any later signal. -/
theorem serves_all (e : Engine) (u : TaskId) (hl : (afterAll h).lock? l = some x) :
    (∀ v, ∃ ms ss, SignalServes e u h l x.tab v ms ss) ∧
      (∀ f r mid f' r', ((afterAll h).subscribe l f r).1 <
        ((afterAll (h ++ .subscribe l f r :: mid)).subscribe l f' r').1) ∧
      (∀ id, ((afterAll h).unsubscribe l id).1 = true ↔ ∃ s, Subscribed h l s ∧ s.id = id) ∧
      ∀ later, ReleasedIn h l → ∀ v (w : World), w.locks = afterAll (h ++ later) →
        (w.deliver l v).1.2 = [] := by
  refine ⟨signal_serves e u hl, fun f r mid f' r' => subscribe_lt hl f f' r r' mid, fun id => ?_,
    fun later hreleased v w hw => ?_⟩
  · unfold unsubscribe
    rw [hl]
    change x.subscriptions.any (·.id = id) = true ↔ _
    rw [List.any_eq_true]
    simp only [decide_eq_true_eq, subscribed_iff hl]
  · obtain ⟨y, hy, htab, hend⟩ := released_play (sound_afterAll h) hl later
    rw [(releasedIn_iff h hl).1 hreleased, Bool.true_or] at hend
    rw [← afterAll_append] at hy
    have hnobody := (deliver_of_released (sound_afterAll _) hy hend v).1
    change (w.locks.deliver l v).1.2 = []
    rw [hw, hnobody]

/-- Of three waiters one was dropped and one does not accept, and of two subscriptions one was taken
back: the signal serves one of each. -/
theorem serves_all_one_of_each :
    let e : Engine := ⟨.empty, ⟨100, 20, 256⟩, none, "main"⟩
    let h : List (LockEvent Reaction) :=
      [.obtain "a" "first" "k", .register 0 .all, .register 0 (.callId "1"), .register 0 .all,
        .subscribe 0 .all (.host "x" .nothing), .subscribe 0 .all (.host "y" .nothing), .drop 0,
        .unsubscribe 0 1]
    ∃ x, (afterAll h).lock? 0 = some x ∧
      (∃ ms ss, SignalServes e 1 h 0 x.tab (.str "v") ms ss) ∧
      ((afterAll h).deliver 0 (.str "v")).1.1 = [2] ∧
      ((afterAll h).deliver 0 (.str "v")).1.2.length = 1 := by
  intro e h
  exact ⟨_, rfl, (serves_all e 1 (h := h) rfl).1 (.str "v"), rfl, rfl⟩

end LockTable
end BlockEngine
