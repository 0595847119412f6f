import BlockEngine.Proofs.LockHistory
import BlockEngine.Proofs.Interleaving

/-!
# The lock table as a map

Histories of the lock table hold the requests of everybody, those that reactions make included. What
a table answers to a request is what a map from tabs and keys to locks would answer.

* `LockTable.find?_step` : each event as a change of the map;
* `LockTable.ofTab_step`, `lock?_step` : an event leaves the locks of a tab it is not about;
* `LockMap`, `LockTable.asMap_step` : the table as a map, and each event as one of the map;
* `LockTable.obtain_play` : a request answers the same lock until its tab ends;
* `LockTable.deliver_of_released` : a signal of a released lock reaches nobody;
* `Engine.Signals` : a list of locks is signalled, each once, with the reactions to each;
* `Engine.replay_signalKey`, `Engine.replay_signalAllTabs` : which locks are signalled by a key;
* `LockTable.isolated` : what holds after every history.
-/

namespace BlockEngine

variable {ρ : Type}

/-! ## Events and tabs -/

namespace LockEvent

/-- Whether an event asks for the lock of a tab and a key. -/
def requests (tab key : String) : LockEvent ρ → Bool
  | .obtain tab' _ key' => tab' = tab && key' = key
  | _ => false

/-- The event is about a tab: it asks for a lock of the tab, acts on one, ends them all, or gives up
a wait on one. -/
def Concerns (t : LockTable ρ) (tab : String) : LockEvent ρ → Prop
  | .obtain tab' .. | .release tab' => tab' = tab
  | .register l _ | .signal l _ | .subscribe l .. | .unsubscribe l _ =>
    ∃ x, t.lock? l = some x ∧ x.tab = tab
  | .releaseAll => True
  | .drop m => ∃ l x w, t.lock? l = some x ∧ x.tab = tab ∧ w ∈ x.waiters ∧ w.mailbox = m

end LockEvent

namespace LockTable

variable {t t' : LockTable ρ} {l l' : LockId} {x : Lock ρ}

/-! ## What tabs hold -/

@[simp] theorem held_deliver (t : LockTable ρ) (l : LockId) (v : Json) :
    (t.deliver l v).2.held = t.held := by
  cases hl : t.lock? l with
  | none => rw [deliver_of_none hl]
  | some x =>
    rw [deliver_of_some hl]
    exact held_serveAll ..

@[simp] theorem held_register (t : LockTable ρ) (l : LockId) (f : SignalFilter) :
    (t.register l f).2.held = t.held := by
  cases hl : t.lock? l with
  | none => rw [register_of_none hl]
  | some x =>
    rw [register_of_some hl]
    simp only
    split <;> rfl

theorem ofTab_releaseAll (t : LockTable ρ) (tab : String) : t.releaseAll.2.ofTab tab = [] := by
  unfold releaseAll ofTab
  rw [held_releaseLocks]
  rfl

theorem ofTab_of_held (h : t'.held = t.held) (tab : String) : t'.ofTab tab = t.ofTab tab := by
  unfold ofTab
  rw [h]

theorem find?_of_held (h : t'.held = t.held) (tab key : String) :
    t'.find? tab key = t.find? tab key := congrArg (Keyed.get? key) (ofTab_of_held h tab)

/-- An event as a change of the map from tabs and keys to locks: a request adds what is missing, a
release takes a tab away, and nothing else changes it. -/
theorem find?_step (t : LockTable ρ) (e : LockEvent ρ) (tab key : String) :
    (t.step e).2.find? tab key =
      match e with
      | .obtain tab' owner key' =>
        if tab = tab' ∧ key = key' then some (t.obtain tab' owner key').1 else t.find? tab key
      | .release tab' => if tab = tab' then none else t.find? tab key
      | .releaseAll => none
      | _ => t.find? tab key := by
  cases e with
  | obtain tab' owner key' => exact find?_obtain ..
  | register l f => exact find?_of_held (held_register t l f) tab key
  | signal l v => exact find?_of_held (held_deliver t l v) tab key
  | subscribe | unsubscribe | drop => exact find?_of_held rfl tab key
  | release tab' =>
    refine (congrArg (Keyed.get? key) (ofTab_release t tab' tab)).trans ?_
    simp only
    split <;> rfl
  | releaseAll => exact congrArg (Keyed.get? key) (ofTab_releaseAll t tab)

/-- What was not asked for since is not there. -/
theorem find?_play_none {tab key : String} (h : t.find? tab key = none) {es : List (LockEvent ρ)}
    (hes : ∀ e ∈ es, e.requests tab key = false) : (t.play es).2.find? tab key = none := by
  induction es generalizing t with
  | nil => exact h
  | cons e es ih =>
    refine ih ?_ fun e' he' => hes e' (List.mem_cons_of_mem _ he')
    have he := hes e List.mem_cons_self
    rw [find?_step]
    cases e with
    | obtain tab' owner key' =>
      have hne : ¬ (tab = tab' ∧ key = key') := fun ⟨htab, hkey⟩ => by
        simp [LockEvent.requests, htab, hkey] at he
      simpa only [if_neg hne] using h
    | release tab' =>
      simp only
      split
      · rfl
      · exact h
    | releaseAll => rfl
    | _ => exact h

theorem find?_step_of_ends {tab : String} {e : LockEvent ρ} (he : e.ends tab = true)
    (t : LockTable ρ) (key : String) : (t.step e).2.find? tab key = none := by
  rw [find?_step]
  cases e with
  | release tab' =>
    have htab : tab' = tab := of_decide_eq_true he
    simp only [htab, if_true]
  | releaseAll => rfl
  | _ => cases he

/-! ## Locks of other tabs -/

theorem lock?_deliver_of_ne (h : l' ≠ l) (v : Json) :
    (t.deliver l v).2.lock? l' = t.lock? l' := by
  cases hl : t.lock? l with
  | none => rw [deliver_of_none hl]
  | some x =>
    rw [deliver_of_some hl]
    simp only [lock?_serveAll, lock?_modify]
    rw [if_neg (Ne.symm h)]

theorem lock?_unsubscribe_of_ne (h : l' ≠ l) (id : SubscriptionId) :
    (t.unsubscribe l id).2.lock? l' = t.lock? l' := by
  unfold unsubscribe
  rw [lock?_modify, if_neg (Ne.symm h)]

/-- An event leaves what a tab holds that it is not about. -/
theorem ofTab_step {tab : String} {e : LockEvent ρ} (he : ¬ e.Concerns t tab) :
    (t.step e).2.ofTab tab = t.ofTab tab := by
  cases e with
  | obtain tab' owner key =>
    change (t.obtain tab' owner key).2.ofTab tab = _
    cases hf : t.find? tab' key with
    | some l => rw [obtain_of_some hf]
    | none =>
      rw [obtain_of_none hf]
      unfold ofTab
      rw [Keyed.get?_insert, if_neg fun h => he h.symm]
  | register l f => exact ofTab_of_held (held_register t l f) tab
  | signal l v => exact ofTab_of_held (held_deliver t l v) tab
  | subscribe | unsubscribe | drop => exact ofTab_of_held rfl tab
  | release tab' => exact (ofTab_release t tab' tab).trans (if_neg fun h => he h.symm)
  | releaseAll => exact absurd trivial he

/-- An event leaves the locks of a tab it is not about. -/
theorem lock?_step (hs : t.Sound) {tab : String} {e : LockEvent ρ} (he : ¬ e.Concerns t tab)
    (hl : t.lock? l = some x) (htab : x.tab = tab) : (t.step e).2.lock? l = some x := by
  -- A lock that the event acts on is of another tab.
  have hne {l' : LockId} (h : ¬ ∃ y, t.lock? l' = some y ∧ y.tab = tab) : l ≠ l' := by
    rintro rfl
    exact h ⟨x, hl, htab⟩
  cases e with
  | obtain tab' owner key => exact lock?_obtain_of_some hl tab' owner key
  | register l' f => exact (lock?_register_of_ne (hne he) f).trans hl
  | signal l' v => exact (lock?_deliver_of_ne (hne he) v).trans hl
  | subscribe l' f reaction => exact (lock?_subscribe_of_ne (hne he) f reaction).trans hl
  | unsubscribe l' id => exact (lock?_unsubscribe_of_ne (hne he) id).trans hl
  | release tab' =>
    refine (hs.lock?_release hl tab').trans ?_
    rw [if_neg fun h => he (h.symm.trans htab)]
  | releaseAll => exact absurd trivial he
  | drop m => exact hl

/-! ## The identity of a lock -/

/-- A lock keeps its tab, its owner and its key. -/
theorem identity_step (hs : t.Sound) (hl : t.lock? l = some x) (e : LockEvent ρ) :
    ∃ x', (t.step e).2.lock? l = some x' ∧ x'.tab = x.tab ∧ x'.owner = x.owner ∧
      x'.key = x.key := by
  cases e with
  | obtain tab owner key => exact ⟨x, lock?_obtain_of_some hl tab owner key, rfl, rfl, rfl⟩
  | register l' f =>
    by_cases hll : l = l'
    · subst hll
      obtain ⟨ws, hx, -⟩ := lock?_register hl f
      exact ⟨_, hx, rfl, rfl, rfl⟩
    · exact ⟨x, (lock?_register_of_ne hll f).trans hl, rfl, rfl, rfl⟩
  | signal l' v =>
    obtain ⟨x', hx', -⟩ := lock?_deliver_of_some hl l' v
    obtain ⟨y, hy, value, ws, rfl, -⟩ := lock?_deliver hx'
    obtain rfl := Option.some.inj (hl.symm.trans hy)
    exact ⟨_, hx', rfl, rfl, rfl⟩
  | subscribe l' f reaction =>
    by_cases hll : l = l'
    · subst hll
      exact ⟨_, lock?_subscribe hl f reaction, rfl, rfl, rfl⟩
    · exact ⟨x, (lock?_subscribe_of_ne hll f reaction).trans hl, rfl, rfl, rfl⟩
  | unsubscribe l' id =>
    obtain ⟨x', hx', -⟩ := (Le.unsubscribe t l' id).lock l x hl
    obtain ⟨y, hy, subs, rfl, -⟩ := lock?_unsubscribe hx'
    obtain rfl := Option.some.inj (hl.symm.trans hy)
    exact ⟨_, hx', rfl, rfl, rfl⟩
  | release tab =>
    refine ⟨_, hs.lock?_release hl tab, ?_⟩
    split <;> exact ⟨rfl, rfl, rfl⟩
  | releaseAll => exact ⟨_, hs.lock?_releaseAll hl, rfl, rfl, rfl⟩
  | drop m => exact ⟨x, hl, rfl, rfl, rfl⟩

theorem identity_play (hs : t.Sound) (hl : t.lock? l = some x) (es : List (LockEvent ρ)) :
    ∃ x', (t.play es).2.lock? l = some x' ∧ x'.tab = x.tab ∧ x'.owner = x.owner ∧
      x'.key = x.key := by
  induction es generalizing t x with
  | nil => exact ⟨x, hl, rfl, rfl, rfl⟩
  | cons e es ih =>
    obtain ⟨x₁, hx₁, htab₁, howner₁, hkey₁⟩ := identity_step hs hl e
    obtain ⟨x₂, hx₂, htab₂, howner₂, hkey₂⟩ := ih (hs.step e) hx₁
    exact ⟨x₂, hx₂, htab₂.trans htab₁, howner₂.trans howner₁, hkey₂.trans hkey₁⟩

/-- A lock is found under its key until its tab ends. -/
theorem find?_play (hs : t.Sound) (hl : t.lock? l = some x) (hx : x.released = false)
    {es : List (LockEvent ρ)} (hes : ∀ e ∈ es, e.ends x.tab = false) :
    (t.play es).2.find? x.tab x.key = some l := by
  obtain ⟨x₁, hx₁, htab, howner, hkey⟩ := identity_play hs hl es
  obtain ⟨x₂, hx₂, -, hreleased⟩ := released_play hs hl es
  obtain rfl := Option.some.inj (hx₁.symm.trans hx₂)
  rw [← htab, ← hkey]
  refine (hs.play es).holds l x₁ hx₁ ?_
  rw [hreleased, hx, Bool.false_or, List.any_eq_false]
  exact fun e he => by simp [hes e he]

end LockTable

/-! ## The map -/

/-- A map from tabs and keys to locks, and the lock of the next new entry. -/
@[ext]
structure LockMap where
  find : String → String → Option LockId
  next : LockId

namespace LockMap

/-- The map without entries. -/
def empty : LockMap := ⟨fun _ _ => none, 0⟩

/-- The lock of a tab and a key, with a new entry if there is none. -/
def request (m : LockMap) (tab key : String) : LockId × LockMap :=
  match m.find tab key with
  | some l => (l, m)
  | none =>
    (m.next, {
      find := fun tab' key' => if tab' = tab ∧ key' = key then some m.next else m.find tab' key'
      next := m.next + 1 })

/-- The map after an event: requests add entries, releases remove all entries of a tab. -/
def step (m : LockMap) : LockEvent ρ → LockMap
  | .obtain tab _ key => (m.request tab key).2
  | .release tab => { m with find := fun tab' key => if tab' = tab then none else m.find tab' key }
  | .releaseAll => { m with find := fun _ _ => none }
  | _ => m

/-- The map after a history that began without entries. -/
def after (h : List (LockEvent ρ)) : LockMap := h.foldl step empty

end LockMap

namespace LockTable

variable {t t' : LockTable ρ} {l l' : LockId} {x : Lock ρ} {tab key : String}

/-- A table as a map. -/
def asMap (t : LockTable ρ) : LockMap := ⟨t.find?, t.locks.length⟩

theorem request_asMap (t : LockTable ρ) (tab owner key : String) :
    t.asMap.request tab key = ((t.obtain tab owner key).1, (t.obtain tab owner key).2.asMap) := by
  have hfind := t.find?_obtain tab owner key
  unfold LockMap.request asMap
  cases hf : t.find? tab key with
  | some l => simp only [hf, obtain_of_some hf]
  | none =>
    rw [obtain_of_none hf] at hfind ⊢
    simp only [hf, List.length_append, List.length_singleton]
    congr 2
    funext tab' key'
    exact (hfind tab' key').symm

/-- Only requests make locks. -/
theorem length_locks_step (hs : t.Sound) {e : LockEvent ρ}
    (he : ∀ tab owner key, e ≠ .obtain tab owner key) :
    (t.step e).2.locks.length = t.locks.length := by
  have hiff (l : LockId) : l < (t.step e).2.locks.length ↔ l < t.locks.length := by
    constructor
    · intro hl
      refine Decidable.byContradiction fun hnone => ?_
      obtain ⟨tab, owner, key, rfl, -⟩ := new_step e
        (List.getElem?_eq_none (Nat.le_of_not_lt hnone)) (List.getElem?_eq_getElem hl)
      exact he tab owner key rfl
    · intro hl
      obtain ⟨x, hx, -⟩ := released_step hs (List.getElem?_eq_getElem hl) e
      exact lock?_lt hx
  exact Nat.le_antisymm (Nat.le_of_not_lt fun h => Nat.lt_irrefl _ ((hiff _).1 h))
    (Nat.le_of_not_lt fun h => Nat.lt_irrefl _ ((hiff _).2 h))

/-- Every event is one of the map. -/
theorem asMap_step (hs : t.Sound) (e : LockEvent ρ) : (t.step e).2.asMap = t.asMap.step e := by
  by_cases he : ∃ tab owner key, e = .obtain tab owner key
  · obtain ⟨tab, owner, key, rfl⟩ := he
    exact (congrArg Prod.snd (t.request_asMap tab owner key)).symm
  · have hlength := length_locks_step hs fun tab owner key h => he ⟨tab, owner, key, h⟩
    have hnext : (t.asMap.step e).next = t.locks.length := by
      cases e with
      | obtain tab owner key => exact absurd ⟨tab, owner, key, rfl⟩ he
      | _ => rfl
    refine LockMap.ext ?_ (hlength.trans hnext.symm)
    funext tab key
    refine (find?_step t e tab key).trans ?_
    cases e with
    | obtain tab' owner key' => exact absurd ⟨tab', owner, key', rfl⟩ he
    | _ => rfl

theorem asMap_play (hs : t.Sound) (h : List (LockEvent ρ)) :
    (t.play h).2.asMap = h.foldl LockMap.step t.asMap := by
  induction h generalizing t with
  | nil => rfl
  | cons e h ih =>
    rw [List.foldl_cons, ← asMap_step hs e]
    exact ih (hs.step e)

/-- The table after a history is the map after it. -/
theorem asMap_afterAll (h : List (LockEvent ρ)) : (afterAll h).asMap = LockMap.after h :=
  asMap_play .empty h

theorem sound_afterAll (h : List (LockEvent ρ)) : (afterAll h).Sound := Sound.empty.play h

theorem tidy_afterAll (h : List (LockEvent ρ)) : (afterAll h).Tidy := Tidy.empty.play .empty h

theorem afterAll_concat (h : List (LockEvent ρ)) (e : LockEvent ρ) :
    afterAll (h ++ [e]) = ((afterAll h).step e).2 := by
  rw [afterAll_append]
  rfl

/-! ## Requests -/

/-- Nobody has asked for the lock of a key since the tab was last released, if it ever was. -/
def Unrequested (tab key : String) (h : List (LockEvent ρ)) : Prop :=
  ∃ before since, h = before ++ since ∧
    (before = [] ∨ ∃ earlier e, before = earlier ++ [e] ∧ e.ends tab = true) ∧
    ∀ e ∈ since, e.requests tab key = false

theorem Unrequested.find? {h : List (LockEvent ρ)} (hh : Unrequested tab key h) :
    (afterAll h).find? tab key = none := by
  obtain ⟨before, since, rfl, hbefore, hsince⟩ := hh
  rw [afterAll_append]
  refine find?_play_none ?_ hsince
  rcases hbefore with rfl | ⟨earlier, e, rfl, he⟩
  · rfl
  · rw [afterAll_concat]
    exact find?_step_of_ends he _ key

/-- The lock that a request answers when nobody asked before: it is new. -/
theorem obtain_of_unrequested {h : List (LockEvent ρ)} (hh : Unrequested tab key h)
    (owner : String) : (afterAll h).lock? ((afterAll h).obtain tab owner key).1 = none ∧
      (afterAll (h ++ [.obtain tab owner key])).lock? ((afterAll h).obtain tab owner key).1 =
        some ⟨tab, owner, key, .null, [], [], 0, false⟩ := by
  rw [afterAll_concat]
  show _ ∧ ((afterAll h).obtain tab owner key).2.lock? _ = _
  rw [obtain_of_none hh.find?, lock?_append, if_pos rfl]
  exact ⟨List.getElem?_eq_none (Nat.le_refl _), rfl⟩

/-- Until the tab is released, every request answers the lock that the first one did, which keeps
its owner. -/
theorem obtain_play (hs : t.Sound) (tab owner key : String) :
    ∃ x, (t.obtain tab owner key).2.lock? (t.obtain tab owner key).1 = some x ∧
      ∀ mid : List (LockEvent ρ), (∀ e ∈ mid, e.ends tab = false) →
        let later := ((t.obtain tab owner key).2.play mid).2
        (∀ owner', later.obtain tab owner' key = ((t.obtain tab owner key).1, later)) ∧
        ∃ x', later.lock? (t.obtain tab owner key).1 = some x' ∧ x'.tab = tab ∧ x'.key = key ∧
          x'.owner = x.owner ∧ x'.released = false := by
  obtain ⟨x, hx, rfl, rfl, hreleased⟩ := hs.obtain_spec tab owner key
  refine ⟨x, hx, fun mid hmid => ?_⟩
  have hs' := hs.obtain x.tab owner x.key
  obtain ⟨x', hx', htab, howner, hkey⟩ := identity_play hs' hx mid
  have hfind := find?_play hs' hx hreleased hmid
  obtain ⟨y, hy, -, -, hreleased'⟩ := (hs'.play mid).find?_spec hfind
  obtain rfl := Option.some.inj (hx'.symm.trans hy)
  exact ⟨fun owner' => obtain_of_some hfind owner', x', hx', htab, hkey, howner, hreleased'⟩

/-! ## Released locks -/

/-- A signal of a released lock reaches nobody: no waiter, no reaction and no other lock. -/
theorem deliver_of_released (hs : t.Sound) (hl : t.lock? l = some x) (hx : x.released = true)
    (v : Json) : (t.deliver l v).1 = ([], []) ∧ (t.deliver l v).2.mailboxes = t.mailboxes := by
  obtain ⟨hwaiters, hsubscriptions⟩ := hs.ended l x hl hx
  rw [deliver_of_some hl]
  simp [woken, hwaiters, hsubscriptions, modify]

/-- A lock that ended in the course of a history is still there, released. -/
theorem ReleasedIn.lock? {h : List (LockEvent ρ)} (hl : ReleasedIn h l) :
    ∃ x, (afterAll h).lock? l = some x ∧ x.released = true := by
  have hreleased := hl
  obtain ⟨pre, e, post, x, rfl, hx, -⟩ := hl
  obtain ⟨x', hx', -⟩ := released_play (sound_afterAll pre) hx (e :: post)
  rw [← afterAll_append] at hx'
  exact ⟨x', hx', (releasedIn_iff _ hx').1 hreleased⟩

/-! ## Other tabs -/

/-- An event leaves the mailboxes of those who wait on the locks of a tab it is not about. -/
theorem mailbox?_step (ht : t.Tidy) (hs : t.Sound) {e : LockEvent ρ} (he : ¬ e.Concerns t tab)
    (hl : t.lock? l = some x) (htab : x.tab = tab) {w : Waiter} (hw : w ∈ x.waiters) :
    (t.step e).2.mailbox? w.mailbox = t.mailbox? w.mailbox := by
  have hwaits : t.Waits w.mailbox l w := ⟨x, hl, hw, rfl⟩
  cases e with
  | obtain tab' owner key => exact (Leaves.obtain tab' owner key).mailbox
  | register l' f =>
    exact (Leaves.register (Nat.ne_of_lt (ht.numbered l x hl w hw)) l' f).mailbox
  | signal l' v =>
    refine (mailbox?_deliver t l' v w.mailbox).trans (if_neg fun hmem => he ?_)
    cases hl' : t.lock? l' with
    | none =>
      rw [deliver_of_none hl'] at hmem
      cases hmem
    | some y =>
      obtain ⟨w', hw', -, -, hbox⟩ := (mem_served hl' v w.mailbox).1 hmem
      obtain rfl := ht.once _ _ _ _ _ ⟨y, hl', hw', hbox⟩ hwaits
      exact ⟨x, hl, htab⟩
  | subscribe | unsubscribe => rfl
  | release tab' =>
    refine (mailbox?_releaseLocks (t := { t with held := Keyed.erase tab' t.held }) ht.ids _
      w.mailbox).resolve_right ?_
    rintro ⟨-, -, l', hmem, y, hy, w', hw', hbox⟩
    obtain rfl := ht.once _ _ _ _ _ ⟨y, hy, hw', hbox⟩ hwaits
    exact he (((hs.mem_values_ofTab hl).1 hmem).1.symm.trans htab)
  | releaseAll => exact absurd trivial he
  | drop m =>
    refine (mailbox?_close t m w.mailbox).trans (if_neg ?_)
    rintro rfl
    exact he ⟨l, x, w, hl, htab, hw, rfl⟩

end LockTable

/-! ## Calls that signal -/

namespace Engine

variable {α β : Type} {e : Engine} {u : TaskId} {v : Json} {tab key : String}

/-- A signal is delivered in one step; what comes after it waits for the end of all reactions. -/
theorem replay_signal_iff {l : LockId} {k : Nat → Execution β} {ws : List World} {b : β} :
    e.replay u (.signal l v k) ws = some (.done b) ↔
      ∃ w ws₁ ws₂, ws = w :: (ws₁ ++ ws₂) ∧
        e.replay u (e.reactAll v (w.locks.deliver l v).1.2) ws₁ = some (.done ()) ∧
        e.replay u (k ((w.deliver l v).1.1 + (w.deliver l v).1.2.length)) ws₂ =
          some (.done b) := by
  constructor
  · intro h
    cases ws with
    | nil => cases h
    | cons w ws =>
      obtain ⟨ws₁, ws₂, ⟨⟩, rfl, hreactions, hrest⟩ := replay_bind_iff.1 h
      exact ⟨w, ws₁, ws₂, rfl, hreactions, hrest⟩
  · rintro ⟨w, ws₁, ws₂, rfl, hreactions, hrest⟩
    exact replay_bind_iff.2 ⟨ws₁, ws₂, (), rfl, hreactions, hrest⟩

/-- Locks are signalled with a value, one after the other and each once: in a state the value is
delivered to the lock, then the reactions of its subscriptions run, each to its end. -/
inductive Signals (e : Engine) (u : TaskId) (v : Json) : List LockId → List World → Prop
  | nil : Signals e u v [] []
  | cons {l : LockId} {ls : List LockId} {w : World} {ws ws' : List World} :
      e.replay u (e.reactAll v (w.locks.deliver l v).1.2) ws = some (.done ()) →
      Signals e u v ls ws' → Signals e u v (l :: ls) (w :: (ws ++ ws'))

theorem signals_nil_iff {ws : List World} : e.Signals u v [] ws ↔ ws = [] :=
  ⟨fun h => by cases h; rfl, by rintro rfl; exact .nil⟩

theorem replay_signalLocks (ls : List LockId) (ws : List World) :
    e.replay u (Execution.signalLocks v ls) ws = some (.done ()) ↔ e.Signals u v ls ws := by
  induction ls generalizing ws with
  | nil => exact replay_done_iff.trans ((and_iff_left rfl).trans signals_nil_iff.symm)
  | cons l ls ih =>
    refine replay_signal_iff.trans ⟨?_, ?_⟩
    · rintro ⟨w, ws₁, ws₂, rfl, hreactions, hrest⟩
      exact .cons hreactions ((ih ws₂).1 hrest)
    · rintro (_ | ⟨hreactions, hrest⟩)
      exact ⟨_, _, _, rfl, hreactions, (ih _).2 hrest⟩

/-- A call signals the lock that the tab held under the key when it looked, or answers that there
was none. -/
theorem replay_signalKey {w : World} {ws : List World} {b : Bool} :
    e.replay u (Execution.signalKey tab key v) (w :: ws) = some (.done b) ↔
      b = (w.locks.find? tab key).isSome ∧
        e.Signals u v (w.locks.find? tab key).toList ws := by
  show e.replay u (match w.locks.find? tab key with
    | some l => Execution.signal l v fun _ => .done true
    | none => .done false) ws = _ ↔ _
  cases w.locks.find? tab key with
  | none =>
    refine replay_done_iff.trans (and_comm.trans (and_congr ?_ signals_nil_iff.symm))
    exact eq_comm
  | some l =>
    refine replay_signal_iff.trans ⟨?_, ?_⟩
    · rintro ⟨w', ws₁, ws₂, rfl, hreactions, hrest⟩
      obtain ⟨rfl, rfl⟩ := replay_done_iff.1 hrest
      exact ⟨rfl, .cons hreactions .nil⟩
    · rintro ⟨rfl, _ | ⟨hreactions, hrest⟩⟩
      obtain rfl := signals_nil_iff.1 hrest
      exact ⟨_, _, [], rfl, hreactions, rfl⟩

/-- A call signals the locks that all tabs held under the key when it looked, and answers their
number. -/
theorem replay_signalAllTabs {w : World} {ws : List World} {n : Nat} :
    e.replay u (Execution.signalAllTabs key v) (w :: ws) = some (.done n) ↔
      n = (w.locks.acrossTabs key).length ∧ e.Signals u v (w.locks.acrossTabs key) ws := by
  show e.replay u ((Execution.signalLocks v (w.locks.acrossTabs key)).bind fun _ =>
    .done (w.locks.acrossTabs key).length) ws = _ ↔ _
  refine replay_bind_iff.trans ⟨?_, ?_⟩
  · rintro ⟨ws₁, ws₂, ⟨⟩, rfl, hsignals, hrest⟩
    obtain ⟨rfl, rfl⟩ := replay_done_iff.1 hrest
    rw [List.append_nil]
    exact ⟨rfl, (replay_signalLocks _ _).1 hsignals⟩
  · rintro ⟨rfl, hsignals⟩
    exact ⟨ws, [], (), (List.append_nil ws).symm, (replay_signalLocks _ _).2 hsignals, rfl⟩

end Engine

/-! ## The theorem -/

/-- The lock table after the history `h`, with calls of the task `u` of the engine `e` on it. -/
structure LockTable.Isolated (e : Engine) (u : TaskId) (h : List (LockEvent Reaction)) : Prop where
  /-- The table is a map from tabs and keys to locks. -/
  map : (afterAll h).asMap = LockMap.after h
  /-- A request answers what the map does. -/
  answer : ∀ tab owner key,
    ((afterAll h).obtain tab owner key).1 = ((LockMap.after h).request tab key).1
  /-- The first request after a release answers a new lock, with nothing in it. -/
  fresh : ∀ tab owner key, Unrequested tab key h →
    (afterAll h).lock? ((afterAll h).obtain tab owner key).1 = none ∧
      (afterAll (h ++ [.obtain tab owner key])).lock? ((afterAll h).obtain tab owner key).1 =
        some ⟨tab, owner, key, .null, [], [], 0, false⟩
  /-- Until the next release, every request answers this lock, which keeps its first owner. -/
  same : ∀ tab owner key, ∃ x,
    (afterAll (h ++ [.obtain tab owner key])).lock? ((afterAll h).obtain tab owner key).1 =
      some x ∧
    ∀ mid, (∀ ev ∈ mid, ev.ends tab = false) →
      let later := afterAll (h ++ .obtain tab owner key :: mid)
      (∀ owner', later.obtain tab owner' key = (((afterAll h).obtain tab owner key).1, later)) ∧
      ∃ x', later.lock? ((afterAll h).obtain tab owner key).1 = some x' ∧ x'.tab = tab ∧
        x'.key = key ∧ x'.owner = x.owner ∧ x'.released = false
  /-- A released lock is not found any more, and a signal of it reaches nobody. -/
  stale : ∀ l, ReleasedIn h l →
    (∀ tab key, (afterAll h).find? tab key ≠ some l) ∧
    ∀ v, ((afterAll h).deliver l v).1 = ([], []) ∧
      ((afterAll h).deliver l v).2.mailboxes = (afterAll h).mailboxes ∧
      ∀ l', l' ≠ l → ((afterAll h).deliver l v).2.lock? l' = (afterAll h).lock? l'
  /-- A lock that is found is the one of its tab and key, and not released. -/
  found : ∀ tab key l, (afterAll h).find? tab key = some l →
    ∃ x, (afterAll h).lock? l = some x ∧ x.tab = tab ∧ x.key = key ∧ x.released = false
  /-- A signal by a tab and a key signals the lock found, or answers that there is none. -/
  signalled : ∀ w : World, w.locks = afterAll h → ∀ tab key v ws b,
    e.replay u (Execution.signalKey tab key v) (w :: ws) = some (.done b) ↔
      b = ((afterAll h).find? tab key).isSome ∧
        e.Signals u v ((afterAll h).find? tab key).toList ws
  /-- The locks under a key are those that some tab finds, each once. -/
  across : ∀ key, ((afterAll h).acrossTabs key).Nodup ∧
    ∀ l, l ∈ (afterAll h).acrossTabs key ↔ ∃ tab, (afterAll h).find? tab key = some l
  /-- A signal of a key in all tabs signals these locks and answers their number. -/
  signalledAll : ∀ w : World, w.locks = afterAll h → ∀ key v ws n,
    e.replay u (Execution.signalAllTabs key v) (w :: ws) = some (.done n) ↔
      n = ((afterAll h).acrossTabs key).length ∧
        e.Signals u v ((afterAll h).acrossTabs key) ws
  /-- An event that is not about a tab leaves the keys and locks of the tab and their waiters. -/
  frame : ∀ ev tab, ¬ ev.Concerns (afterAll h) tab →
    (afterAll (h ++ [ev])).ofTab tab = (afterAll h).ofTab tab ∧
    ∀ l x, (afterAll h).lock? l = some x → x.tab = tab →
      (afterAll (h ++ [ev])).lock? l = some x ∧
      ∀ w ∈ x.waiters, (afterAll (h ++ [ev])).mailbox? w.mailbox = (afterAll h).mailbox? w.mailbox

/-- After every history the lock table is a map, and isolates the tabs from each other. -/
theorem LockTable.isolated (e : Engine) (u : TaskId) (h : List (LockEvent Reaction)) :
    Isolated e u h where
  map := asMap_afterAll h
  answer tab owner key := by rw [← asMap_afterAll, request_asMap _ tab owner key]
  fresh _ owner _ hh := obtain_of_unrequested hh owner
  same tab owner key := by
    obtain ⟨x, hx, hlater⟩ := obtain_play (sound_afterAll h) tab owner key
    refine ⟨x, by rw [afterAll_concat]; exact hx, fun mid hmid => ?_⟩
    rw [afterAll_append]
    exact hlater mid hmid
  stale l hl := by
    obtain ⟨x, hx, hreleased⟩ := hl.lock?
    refine ⟨fun tab key hfind => ?_, fun v => ?_⟩
    · obtain ⟨y, hy, -, -, hheld⟩ := (sound_afterAll h).find?_spec hfind
      obtain rfl := Option.some.inj (hx.symm.trans hy)
      exact absurd (hreleased.symm.trans hheld) (by simp)
    · obtain ⟨hnobody, hmailboxes⟩ := deliver_of_released (sound_afterAll h) hx hreleased v
      exact ⟨hnobody, hmailboxes, fun l' hl' => lock?_deliver_of_ne hl' v⟩
  found _ _ _ hl := (sound_afterAll h).find?_spec hl
  signalled w hw tab key v ws b := by
    rw [← hw]
    exact Engine.replay_signalKey
  across key := by
    refine ⟨(sound_afterAll h).nodup_acrossTabs key, fun l => ?_⟩
    refine (sound_afterAll h).mem_acrossTabs.trans ⟨?_, ?_⟩
    · rintro ⟨x, hx, rfl, hheld⟩
      exact ⟨x.tab, (sound_afterAll h).holds l x hx hheld⟩
    · rintro ⟨tab, hl⟩
      obtain ⟨x, hx, -, hkey, hheld⟩ := (sound_afterAll h).find?_spec hl
      exact ⟨x, hx, hkey, hheld⟩
  signalledAll w hw key v ws n := by
    rw [← hw]
    exact Engine.replay_signalAllTabs
  frame ev tab hev := by
    rw [afterAll_concat]
    refine ⟨ofTab_step hev, fun l x hx htab => ⟨?_, fun w hw => ?_⟩⟩
    · exact lock?_step (sound_afterAll h) hev hx htab
    · exact mailbox?_step (tidy_afterAll h) (sound_afterAll h) hev hx htab hw

/-- A tab asks for a lock, is released and asks again: the lock is new, and whoever still holds the
old one reaches nobody. -/
theorem LockTable.isolated_released_lock :
    let e : Engine := ⟨.empty, ⟨100, 20, 256⟩, none, "main"⟩
    let h : List (LockEvent Reaction) :=
      [.obtain "a" "first" "k", .signal 0 (.str "old"), .release "a"]
    Isolated e 1 h ∧ Unrequested "a" "k" h ∧ ReleasedIn h 0 ∧
      (afterAll (h ++ [.obtain "a" "second" "k"])).lock? 1 =
        some ⟨"a", "second", "k", .null, [], [], 0, false⟩ ∧
      ∀ v, ((afterAll h).deliver 0 v).1 = ([], []) := by
  intro e h
  let used : List (LockEvent Reaction) := [.obtain "a" "first" "k", .signal 0 (.str "old")]
  have hisolated := isolated e 1 h
  have hnew : Unrequested "a" "k" h :=
    ⟨h, [], rfl, .inr ⟨used, .release "a", rfl, by simp [LockEvent.ends]⟩, by simp⟩
  have hold : ReleasedIn h 0 :=
    ⟨used, .release "a", [], ⟨"a", "first", "k", .str "old", [], [], 0, false⟩, rfl,
      by with_unfolding_all rfl, by simp [LockEvent.ends]⟩
  have hlock := (hisolated.fresh "a" "second" "k" hnew).2
  have hone : ((afterAll h).obtain "a" "second" "k").1 = 1 := by decide +kernel
  rw [hone] at hlock
  exact ⟨hisolated, hnew, hold, hlock, fun v => ((hisolated.stale 0 hold).2 v).1⟩

end BlockEngine
