import BlockEngine.Lock

/-!
# The lock table

* `lock?_*`, `mailbox?_*` : what the operations do to a lock and to a mailbox;
* `LockTable.Sound` : tabs hold the locks that are not released, released locks are empty and
  mailboxes are told apart by their numbers; every operation keeps it;
* `LockTable.Le` : what later tables keep of a table. The locks of a tab are released together.
-/

namespace BlockEngine.LockTable

variable {ρ : Type} {t t' t'' : LockTable ρ}

/-! ## Locks and mailboxes after an operation -/

theorem lock?_modify (t : LockTable ρ) (l l' : LockId) (f : Lock ρ → Lock ρ) :
    (t.modify l f).lock? l' = if l = l' then (t.lock? l').map f else t.lock? l' := by
  unfold lock? modify
  rw [List.getElem?_modify]
  split <;> simp_all

@[simp] theorem mailbox?_modify (t : LockTable ρ) (l : LockId) (f : Lock ρ → Lock ρ)
    (m : MailboxId) : (t.modify l f).mailbox? m = t.mailbox? m := rfl

@[simp] theorem lock?_serve (t : LockTable ρ) (m : MailboxId) (d : Delivery) (l : LockId) :
    (t.serve m d).lock? l = t.lock? l := rfl

theorem mailbox?_serve (t : LockTable ρ) (m m' : MailboxId) (d : Delivery) :
    (t.serve m d).mailbox? m' =
      if m' = m then (t.mailbox? m').map fun b => { b with content := some d }
      else t.mailbox? m' := by
  unfold mailbox? serve
  induction t.mailboxes with
  | nil => simp
  | cons b rest ih =>
    simp only [List.map_cons, List.find?_cons]
    by_cases hb : b.id = m
    · by_cases hm : m' = m
      · subst hm; simp [hb]
      · have hne : ¬ b.id = m' := fun h => hm (h.symm.trans hb)
        simp_all
    · by_cases hm : b.id = m'
      · have hne : ¬ m' = m := fun h => hb (hm.trans h)
        simp_all
      · simp_all

@[simp] theorem lock?_serveAll (t : LockTable ρ) (ms : List MailboxId) (d : Delivery)
    (l : LockId) : (ms.foldl (fun t m => t.serve m d) t).lock? l = t.lock? l := by
  induction ms generalizing t with
  | nil => rfl
  | cons m ms ih => rw [List.foldl_cons, ih, lock?_serve]

theorem mailbox?_serveAll (t : LockTable ρ) (ms : List MailboxId) (d : Delivery)
    (m : MailboxId) :
    (ms.foldl (fun t m => t.serve m d) t).mailbox? m =
      if m ∈ ms then (t.mailbox? m).map fun b => { b with content := some d }
      else t.mailbox? m := by
  induction ms generalizing t with
  | nil => simp
  | cons m' ms ih =>
    rw [List.foldl_cons, ih, mailbox?_serve]
    by_cases hm : m = m'
    · subst hm; by_cases h : m ∈ ms <;> simp [h, Function.comp_def]
    · simp [hm]

@[simp] theorem lock?_close (t : LockTable ρ) (m : MailboxId) (l : LockId) :
    (t.close m).lock? l = t.lock? l := rfl

theorem mailbox?_close (t : LockTable ρ) (m m' : MailboxId) :
    (t.close m).mailbox? m' = if m' = m then none else t.mailbox? m' := by
  unfold mailbox? close
  induction t.mailboxes with
  | nil => simp
  | cons b rest ih =>
    by_cases hb : b.id = m
    · by_cases hm : m' = m
      · simp_all
      · have hne : ¬ b.id = m' := fun h => hm (h.symm.trans hb)
        simp_all
    · by_cases hm : b.id = m'
      · have hne : ¬ m' = m := fun h => hb (hm.trans h)
        simp_all
      · simp_all

theorem mailbox?_append {b : Mailbox} (h : t'.mailboxes = t.mailboxes ++ [b]) (m : MailboxId) :
    t'.mailbox? m = (t.mailbox? m).or (if b.id = m then some b else none) := by
  unfold mailbox?
  rw [h, List.find?_append]
  by_cases h : b.id = m <;> simp [h]

theorem mem_of_mailbox? {m : MailboxId} {b : Mailbox} (h : t.mailbox? m = some b) :
    b ∈ t.mailboxes ∧ b.id = m := by
  unfold mailbox? at h
  exact ⟨List.mem_of_find?_eq_some h, by simpa using List.find?_some h⟩

/-! ## Sound tables -/

/-- What holds of every table that was made by the operations. -/
structure Sound (t : LockTable ρ) : Prop where
  held : ∀ p ∈ t.held, ∀ q ∈ p.2, ∃ x, t.lock? q.2 = some x ∧ x.tab = p.1 ∧ x.key = q.1 ∧
    x.released = false
  holds : ∀ l x, t.lock? l = some x → x.released = false → t.find? x.tab x.key = some l
  ended : ∀ l x, t.lock? l = some x → x.released = true → x.waiters = [] ∧ x.subscriptions = []
  ordered : Keyed.Ordered t.held
  distinct : (t.mailboxes.map (·.id)).Nodup
  numbered : ∀ b ∈ t.mailboxes, b.id < t.issued

namespace Sound

theorem empty : (LockTable.empty : LockTable ρ).Sound where
  held := by simp [LockTable.empty]
  holds := by simp [LockTable.empty, lock?]
  ended := by simp [LockTable.empty, lock?]
  ordered := .nil
  distinct := by simp [LockTable.empty]
  numbered := by simp [LockTable.empty]

theorem find?_spec (h : t.Sound) {tab key : String} {l : LockId} (hl : t.find? tab key = some l) :
    ∃ x, t.lock? l = some x ∧ x.tab = tab ∧ x.key = key ∧ x.released = false := by
  unfold LockTable.find? ofTab at hl
  cases ht : Keyed.get? tab t.held with
  | none => simp [ht] at hl
  | some m =>
    rw [ht] at hl
    exact h.held _ (Keyed.mem_of_get? ht) _ (Keyed.mem_of_get? hl)

/-- Two locks of one tab and one key that are not released are the same. -/
theorem unique (h : t.Sound) {l l' : LockId} {x x' : Lock ρ} (hl : t.lock? l = some x)
    (hl' : t.lock? l' = some x') (hx : x.released = false) (hx' : x'.released = false)
    (htab : x.tab = x'.tab) (hkey : x.key = x'.key) : l = l' := by
  have h₁ := h.holds l x hl hx
  have h₂ := h.holds l' x' hl' hx'
  rw [htab, hkey, h₂] at h₁
  exact (Option.some.inj h₁).symm

/-- The locks that tabs hold under a key are those of the key that are not released, each once. -/
theorem mem_acrossTabs (h : t.Sound) {key : String} {l : LockId} :
    l ∈ t.acrossTabs key ↔ ∃ x, t.lock? l = some x ∧ x.key = key ∧ x.released = false := by
  unfold acrossTabs
  rw [List.mem_filterMap]
  constructor
  · rintro ⟨p, hp, hq⟩
    obtain ⟨x, hx, -, hkey, hr⟩ := h.held p hp _ (Keyed.mem_of_get? hq)
    exact ⟨x, hx, hkey, hr⟩
  · rintro ⟨x, hx, rfl, hr⟩
    have hfind := h.holds l x hx hr
    unfold LockTable.find? ofTab at hfind
    cases ht : Keyed.get? x.tab t.held with
    | none => simp [ht] at hfind
    | some m => exact ⟨_, Keyed.mem_of_get? ht, by simpa [ht] using hfind⟩

theorem nodup_acrossTabs (h : t.Sound) (key : String) : (t.acrossTabs key).Nodup := by
  unfold acrossTabs
  refine List.pairwise_filterMap.2 ((List.Pairwise.and_mem.1 h.ordered).imp ?_)
  rintro p p' ⟨hp, hp', hlt⟩ l hl l' hl' rfl
  -- a lock under two tabs would be of both
  obtain ⟨x, hx, htab, -⟩ := h.held p hp _ (Keyed.mem_of_get? hl)
  obtain ⟨x', hx', htab', -⟩ := h.held p' hp' _ (Keyed.mem_of_get? hl')
  obtain rfl := Option.some.inj (hx.symm.trans hx')
  rw [← htab, ← htab'] at hlt
  exact String.lt_irrefl _ hlt

theorem mailbox?_lt (h : t.Sound) {m : MailboxId} {b : Mailbox} (hm : t.mailbox? m = some b) :
    m < t.issued := by
  obtain ⟨hb, rfl⟩ := mem_of_mailbox? hm
  exact h.numbered b hb

theorem mailbox?_issued (h : t.Sound) : t.mailbox? t.issued = none := by
  cases hm : t.mailbox? t.issued with
  | none => rfl
  | some b => exact absurd (h.mailbox?_lt hm) (Nat.lt_irrefl _)

end Sound

theorem isPending_iff (hd : (t.mailboxes.map Mailbox.id).Nodup) (m : MailboxId) :
    t.isPending m = true ↔ ∃ b, t.mailbox? m = some b ∧ b.content = none := by
  unfold isPending mailbox?
  induction hl : t.mailboxes generalizing t with
  | nil => simp
  | cons b rest ih =>
    rw [hl, List.map_cons, List.nodup_cons] at hd
    by_cases hb : b.id = m
    · subst hb
      have hrest : ∀ c ∈ rest, ¬ c.id = b.id := fun c hc he =>
        hd.1 (he ▸ List.mem_map_of_mem hc)
      have hany : (rest.any fun c => decide (c.id = b.id) && c.content.isNone) = false := by
        rw [List.any_eq_false]
        intro c hc
        simp [hrest c hc]
      simp [hany]
    · simpa [hb] using ih (t := { t with mailboxes := rest }) hd.2 rfl

theorem ids_serve (t : LockTable ρ) (m : MailboxId) (d : Delivery) :
    (t.serve m d).mailboxes.map Mailbox.id = t.mailboxes.map Mailbox.id := by
  unfold serve
  rw [List.map_map]
  refine List.map_congr_left fun b _ => ?_
  simp only [Function.comp_apply]
  split <;> rfl

theorem ids_serveAll (t : LockTable ρ) (ms : List MailboxId) (d : Delivery) :
    (ms.foldl (fun t m => t.serve m d) t).mailboxes.map Mailbox.id =
      t.mailboxes.map Mailbox.id := by
  induction ms generalizing t with
  | nil => rfl
  | cons m ms ih => rw [List.foldl_cons, ih, ids_serve]

@[simp] theorem issued_serveAll (t : LockTable ρ) (ms : List MailboxId) (d : Delivery) :
    (ms.foldl (fun t m => t.serve m d) t).issued = t.issued := by
  induction ms generalizing t with
  | nil => rfl
  | cons m ms ih => rw [List.foldl_cons, ih]; rfl

@[simp] theorem held_serveAll (t : LockTable ρ) (ms : List MailboxId) (d : Delivery) :
    (ms.foldl (fun t m => t.serve m d) t).held = t.held := by
  induction ms generalizing t with
  | nil => rfl
  | cons m ms ih => rw [List.foldl_cons, ih]; rfl

namespace Sound

/-- A sound table whose locks and mailboxes change but for what a sound table is about. -/
theorem of_eq (h : t.Sound) (hheld : t'.held = t.held) (hissued : t'.issued = t.issued)
    (hids : t'.mailboxes.map Mailbox.id = t.mailboxes.map Mailbox.id)
    (hlock : ∀ l x', t'.lock? l = some x' → ∃ x, t.lock? l = some x ∧ x'.tab = x.tab ∧
      x'.key = x.key ∧ x'.released = x.released ∧
      (x.released = true → x'.waiters = [] ∧ x'.subscriptions = []))
    (hlock' : ∀ l x, t.lock? l = some x → ∃ x', t'.lock? l = some x') : t'.Sound where
  held p hp q hq := by
    obtain ⟨x, hx, htab, hkey, hr⟩ := h.held p (hheld ▸ hp) q hq
    obtain ⟨x', hx'⟩ := hlock' _ _ hx
    obtain ⟨y, hy, h₁, h₂, h₃, -⟩ := hlock _ _ hx'
    obtain rfl : x = y := Option.some.inj (hx.symm.trans hy)
    exact ⟨x', hx', h₁.trans htab, h₂.trans hkey, h₃.trans hr⟩
  holds l x' hx' hr := by
    obtain ⟨x, hx, htab, hkey, hr', -⟩ := hlock l x' hx'
    have := h.holds l x hx (hr' ▸ hr)
    unfold LockTable.find? ofTab at this ⊢
    rw [hheld, htab, hkey, this]
  ended l x' hx' hr := by
    obtain ⟨x, hx, -, -, hr', he⟩ := hlock l x' hx'
    exact he (hr' ▸ hr)
  ordered := hheld ▸ h.ordered
  distinct := hids ▸ h.distinct
  numbered b hb := by
    have hmem : b.id ∈ t.mailboxes.map Mailbox.id := hids ▸ List.mem_map_of_mem hb
    obtain ⟨c, hc, he⟩ := List.mem_map.1 hmem
    rw [hissued, ← he]
    exact h.numbered c hc

/-- A change of one lock. -/
theorem modify (h : t.Sound) (l : LockId) (f : Lock ρ → Lock ρ)
    (hf : ∀ x, t.lock? l = some x → (f x).tab = x.tab ∧ (f x).key = x.key ∧
      (f x).released = x.released ∧
      (x.released = true → (f x).waiters = [] ∧ (f x).subscriptions = [])) :
    (t.modify l f).Sound := by
  refine h.of_eq rfl rfl rfl (fun l' x' hx' => ?_) fun l' x hx => ?_
  · rw [lock?_modify] at hx'
    split at hx'
    · next hl =>
      subst hl
      obtain ⟨x, hx, rfl⟩ := Option.map_eq_some_iff.1 hx'
      exact ⟨x, hx, hf x hx⟩
    · exact ⟨x', hx', rfl, rfl, rfl, h.ended l' x' hx'⟩
  · rw [lock?_modify, hx]
    split <;> exact ⟨_, rfl⟩

theorem serveAll (h : t.Sound) (ms : List MailboxId) (d : Delivery) :
    (ms.foldl (fun t m => t.serve m d) t).Sound := by
  refine h.of_eq (held_serveAll ..) (issued_serveAll ..) (ids_serveAll ..) ?_ ?_
  · intro l x' hx'
    rw [lock?_serveAll] at hx'
    exact ⟨x', hx', rfl, rfl, rfl, h.ended l x' hx'⟩
  · intro l x hx
    exact ⟨x, by rwa [lock?_serveAll]⟩

theorem close (h : t.Sound) (m : MailboxId) : (t.close m).Sound where
  held := h.held
  holds := h.holds
  ended := h.ended
  ordered := h.ordered
  distinct := h.distinct.sublist (List.filter_sublist.map _)
  numbered b hb := h.numbered b (List.mem_filter.1 hb).1

end Sound

/-! ## The lock of a tab and a key -/

theorem obtain_of_some {tab key : String} {l : LockId} (h : t.find? tab key = some l)
    (owner : String) : t.obtain tab owner key = (l, t) := by
  unfold LockTable.obtain
  rw [h]

theorem obtain_of_none {tab key : String} (h : t.find? tab key = none) (owner : String) :
    t.obtain tab owner key = (t.locks.length,
      { t with
        locks := t.locks ++ [⟨tab, owner, key, .null, [], [], 0, false⟩]
        held := Keyed.insert tab (Keyed.insert key t.locks.length (t.ofTab tab)) t.held }) := by
  unfold LockTable.obtain
  rw [h]

theorem lock?_append (t : LockTable ρ) (x : Lock ρ) (held : Keyed (Keyed LockId)) (l : LockId) :
    ({ t with locks := t.locks ++ [x], held } : LockTable ρ).lock? l =
      if l = t.locks.length then some x else t.lock? l := by
  unfold lock?
  rw [List.getElem?_append]
  split
  · next h => rw [if_neg (Nat.ne_of_lt h)]
  · next h =>
    split
    · next he => simp [he]
    · next he =>
      have hnew : [x].length ≤ l - t.locks.length :=
        Nat.sub_pos_of_lt (Nat.lt_of_le_of_ne (Nat.le_of_not_lt h) (Ne.symm he))
      rw [List.getElem?_eq_none hnew, List.getElem?_eq_none (Nat.le_of_not_lt h)]

theorem lock?_lt {l : LockId} {x : Lock ρ} (h : t.lock? l = some x) : l < t.locks.length :=
  (List.getElem?_eq_some_iff.1 h).1

theorem lock?_obtain_of_some {l : LockId} {x : Lock ρ} (h : t.lock? l = some x)
    (tab owner key : String) : (t.obtain tab owner key).2.lock? l = some x := by
  cases hf : t.find? tab key with
  | some l' => rwa [obtain_of_some hf]
  | none => rw [obtain_of_none hf, lock?_append, if_neg (Nat.ne_of_lt (lock?_lt h)), h]

/-- A lock after `obtain` was there before, or is new and empty. -/
theorem lock?_obtain {tab owner key : String} {l : LockId} {x : Lock ρ}
    (h : (t.obtain tab owner key).2.lock? l = some x) :
    t.lock? l = some x ∨ x = ⟨tab, owner, key, .null, [], [], 0, false⟩ := by
  cases hf : t.find? tab key with
  | some l' => rw [obtain_of_some hf] at h; exact Or.inl h
  | none =>
    rw [obtain_of_none hf, lock?_append] at h
    split at h
    · exact Or.inr (Option.some.inj h).symm
    · exact Or.inl h

@[simp] theorem mailboxes_obtain (t : LockTable ρ) (tab owner key : String) :
    (t.obtain tab owner key).2.mailboxes = t.mailboxes := by
  unfold LockTable.obtain
  split <;> rfl

@[simp] theorem issued_obtain (t : LockTable ρ) (tab owner key : String) :
    (t.obtain tab owner key).2.issued = t.issued := by
  unfold LockTable.obtain
  split <;> rfl

theorem find?_obtain (t : LockTable ρ) (tab owner key tab' key' : String) :
    (t.obtain tab owner key).2.find? tab' key' =
      if tab' = tab ∧ key' = key then some (t.obtain tab owner key).1 else t.find? tab' key' := by
  cases hf : t.find? tab key with
  | some l =>
    rw [obtain_of_some hf]
    split
    · next h => rw [h.1, h.2, hf]
    · rfl
  | none =>
    rw [obtain_of_none hf]
    unfold LockTable.find? ofTab
    simp only [Keyed.get?_insert]
    by_cases htab : tab' = tab
    · subst htab
      by_cases hkey : key' = key
      · simp [hkey, Keyed.get?_insert]
      · simp [hkey, Keyed.get?_insert]
    · simp [htab]

theorem mem_ofTab {tab : String} {q : String × LockId} (h : q ∈ t.ofTab tab) :
    ∃ p ∈ t.held, p.1 = tab ∧ q ∈ p.2 := by
  unfold ofTab at h
  cases ht : Keyed.get? tab t.held with
  | none => simp [ht] at h
  | some m =>
    rw [ht] at h
    exact ⟨_, Keyed.mem_of_get? ht, rfl, h⟩

theorem Sound.obtain (h : t.Sound) (tab owner key : String) :
    (t.obtain tab owner key).2.Sound where
  held p hp q hq := by
    cases hf : t.find? tab key with
    | some l =>
      rw [obtain_of_some hf] at hp ⊢
      exact h.held p hp q hq
    | none =>
      have hold : ∀ p' ∈ t.held, ∀ q' ∈ p'.2, ∃ x,
          (t.obtain tab owner key).2.lock? q'.2 = some x ∧ x.tab = p'.1 ∧ x.key = q'.1 ∧
          x.released = false := fun p' hp' q' hq' =>
        let ⟨x, hx, hrest⟩ := h.held p' hp' q' hq'
        ⟨x, lock?_obtain_of_some hx tab owner key, hrest⟩
      rw [obtain_of_none hf] at hp hold ⊢
      rcases Keyed.mem_insert hp with rfl | hp
      · rcases Keyed.mem_insert hq with rfl | hq
        · exact ⟨_, by rw [lock?_append, if_pos rfl], rfl, rfl, rfl⟩
        · obtain ⟨p', hp', rfl, hq'⟩ := mem_ofTab hq
          exact hold p' hp' q hq'
      · exact hold p hp q hq
  holds l x hx hr := by
    rw [find?_obtain]
    cases hf : t.find? tab key with
    | some l' =>
      rw [obtain_of_some hf] at hx ⊢
      have := h.holds l x hx hr
      split
      · next hk => rw [← this, hk.1, hk.2, hf]
      · exact this
    | none =>
      rw [obtain_of_none hf] at hx ⊢
      rw [lock?_append] at hx
      split at hx
      · next hl =>
        rw [← Option.some.inj hx, if_pos ⟨rfl, rfl⟩, hl]
      · have := h.holds l x hx hr
        rw [if_neg, this]
        rintro ⟨htab, hkey⟩
        rw [htab, hkey, hf] at this
        exact absurd this (by simp)
  ended l x hx hr := by
    rcases lock?_obtain hx with hx | rfl
    · exact h.ended l x hx hr
    · exact absurd hr (by simp)
  ordered := by
    cases hf : t.find? tab key with
    | some l => rw [obtain_of_some hf]; exact h.ordered
    | none => rw [obtain_of_none hf]; exact h.ordered.insert ..
  distinct := by rw [mailboxes_obtain]; exact h.distinct
  numbered := by rw [mailboxes_obtain, issued_obtain]; exact h.numbered

/-- The lock that `obtain` answers. -/
theorem Sound.obtain_spec (h : t.Sound) (tab owner key : String) :
    ∃ x, (t.obtain tab owner key).2.lock? (t.obtain tab owner key).1 = some x ∧ x.tab = tab ∧
      x.key = key ∧ x.released = false :=
  (h.obtain tab owner key).find?_spec (by rw [find?_obtain, if_pos ⟨rfl, rfl⟩])

/-! ## Waiters -/

/-- A registration on a lock that is there. -/
theorem register_of_some {l : LockId} {x : Lock ρ} (h : t.lock? l = some x) (f : SignalFilter) :
    t.register l f = (t.issued,
      let b : Mailbox := ⟨t.issued, if x.released then some .released else none⟩
      let t₁ : LockTable ρ := { t with issued := t.issued + 1, mailboxes := t.mailboxes ++ [b] }
      if x.released then t₁
      else t₁.modify l fun x =>
        { x with waiters := x.waiters.filter (t₁.isPending ·.mailbox) ++ [⟨f, t.issued⟩] }) := by
  simp only [register]
  rw [show LockTable.lock? { t with issued := t.issued + 1 } l = some x from h]
  cases hx : x.released <;> simp [hx]

theorem register_of_none {l : LockId} (h : t.lock? l = none) (f : SignalFilter) :
    t.register l f = (t.issued, { t with issued := t.issued + 1 }) := by
  simp only [register]
  rw [show LockTable.lock? { t with issued := t.issued + 1 } l = none from h]

@[simp] theorem register_fst (t : LockTable ρ) (l : LockId) (f : SignalFilter) :
    (t.register l f).1 = t.issued := by
  cases h : t.lock? l with
  | none => rw [register_of_none h]
  | some x => rw [register_of_some h]

@[simp] theorem issued_register (t : LockTable ρ) (l : LockId) (f : SignalFilter) :
    (t.register l f).2.issued = t.issued + 1 := by
  cases h : t.lock? l with
  | none => rw [register_of_none h]
  | some x =>
    rw [register_of_some h]
    simp only
    split <;> rfl

theorem mailboxes_register {l : LockId} {x : Lock ρ} (h : t.lock? l = some x)
    (f : SignalFilter) :
    (t.register l f).2.mailboxes =
      t.mailboxes ++ [⟨t.issued, if x.released then some .released else none⟩] := by
  rw [register_of_some h]
  cases x.released <;> rfl

theorem lock?_register_of_ne {l l' : LockId} (h : l' ≠ l) (f : SignalFilter) :
    (t.register l f).2.lock? l' = t.lock? l' := by
  cases hx : t.lock? l with
  | none => rw [register_of_none hx]; rfl
  | some x =>
    rw [register_of_some hx]
    simp only
    split
    · rfl
    · rw [lock?_modify, if_neg (Ne.symm h)]; rfl

/-- A lock after a registration on it: a released one stays, any other has one more waiter and
loses none that still waits. -/
theorem lock?_register {l : LockId} {x : Lock ρ} (h : t.lock? l = some x) (f : SignalFilter) :
    ∃ ws, (t.register l f).2.lock? l = some { x with waiters := ws } ∧
      (x.released = true → ws = x.waiters) ∧
      (x.released = false → ⟨f, t.issued⟩ ∈ ws) ∧
      (∀ w ∈ x.waiters, t.isPending w.mailbox = true → w ∈ ws) ∧
      ∀ w ∈ ws, w ∈ x.waiters ∨ w = ⟨f, t.issued⟩ := by
  rw [register_of_some h]
  simp only
  split
  · next hx =>
    refine ⟨x.waiters, h, fun _ => rfl, fun hf => ?_, fun w hw _ => hw, fun w hw => Or.inl hw⟩
    rw [hx] at hf
    exact absurd hf (by simp)
  · next hx =>
    refine ⟨_, (lock?_modify ..).trans ((if_pos rfl).trans (congrArg _ h)), fun hf => absurd hf hx,
      fun _ => ?_, fun w hw hp => ?_, fun w hw => ?_⟩
    · exact List.mem_append_right _ List.mem_cons_self
    · refine List.mem_append_left _ (List.mem_filter.2 ⟨hw, ?_⟩)
      unfold isPending at hp ⊢
      rw [List.any_append, hp, Bool.true_or]
    · rcases List.mem_append.1 hw with hw | hw
      · exact Or.inl (List.mem_filter.1 hw).1
      · exact Or.inr (List.mem_singleton.1 hw)

theorem mailbox?_register_of_ne {m : MailboxId} (h : m ≠ t.issued) (l : LockId)
    (f : SignalFilter) : (t.register l f).2.mailbox? m = t.mailbox? m := by
  cases hx : t.lock? l with
  | none => rw [register_of_none hx]; rfl
  | some x =>
    rw [mailbox?_append (mailboxes_register hx f), if_neg (Ne.symm h), Option.or_none]

/-- The mailbox of a registration. -/
theorem Sound.mailbox?_register (hs : t.Sound) {l : LockId} {x : Lock ρ} (h : t.lock? l = some x)
    (f : SignalFilter) :
    (t.register l f).2.mailbox? t.issued =
      some ⟨t.issued, if x.released then some .released else none⟩ := by
  rw [mailbox?_append (mailboxes_register h f), hs.mailbox?_issued, if_pos rfl, Option.none_or]

theorem Sound.register (h : t.Sound) (l : LockId) (f : SignalFilter) :
    (t.register l f).2.Sound := by
  cases hx : t.lock? l with
  | none =>
    rw [register_of_none hx]
    exact ⟨h.held, h.holds, h.ended, h.ordered, h.distinct,
      fun b hb => Nat.lt_succ_of_lt (h.numbered b hb)⟩
  | some x =>
    have hnew : ∀ c, ({ t with
        issued := t.issued + 1, mailboxes := t.mailboxes ++ [⟨t.issued, c⟩] } :
        LockTable ρ).Sound := by
      intro c
      refine ⟨h.held, h.holds, h.ended, h.ordered, ?_, fun b hb => ?_⟩
      · rw [List.map_append, List.nodup_append]
        refine ⟨h.distinct, by simp, fun i hi j hj => ?_⟩
        obtain ⟨b, hb, rfl⟩ := List.mem_map.1 hi
        rw [List.map_singleton, List.mem_singleton] at hj
        exact hj ▸ Nat.ne_of_lt (h.numbered b hb)
      · rcases List.mem_append.1 hb with hb | hb
        · exact Nat.lt_succ_of_lt (h.numbered b hb)
        · rw [List.mem_singleton.1 hb]
          exact Nat.lt_succ_self _
    rw [register_of_some hx]
    simp only
    split
    · exact hnew _
    · next hr =>
      refine (hnew _).modify l _ fun y hy => ⟨rfl, rfl, rfl, fun hy' => ?_⟩
      obtain rfl : x = y := Option.some.inj (hx.symm.trans hy)
      exact absurd hy' hr

/-! ## Subscriptions -/

@[simp] theorem mailbox?_subscribe (t : LockTable ρ) (l : LockId) (f : SignalFilter) (r : ρ)
    (m : MailboxId) : (t.subscribe l f r).2.mailbox? m = t.mailbox? m := rfl

theorem lock?_subscribe_of_ne {l l' : LockId} (h : l' ≠ l) (f : SignalFilter) (r : ρ) :
    (t.subscribe l f r).2.lock? l' = t.lock? l' := by
  unfold subscribe
  rw [lock?_modify, if_neg (Ne.symm h)]

/-- A lock after a subscription to it: one that is not released keeps the subscription. -/
theorem lock?_subscribe {l : LockId} {x : Lock ρ} (h : t.lock? l = some x) (f : SignalFilter)
    (r : ρ) :
    (t.subscribe l f r).2.lock? l = some { x with
      issued := x.issued + 1
      subscriptions :=
        if x.released then x.subscriptions else x.subscriptions ++ [⟨x.issued + 1, f, r⟩] } := by
  unfold subscribe
  rw [lock?_modify, if_pos rfl, h]
  rfl

theorem Sound.subscribe (h : t.Sound) (l : LockId) (f : SignalFilter) (r : ρ) :
    (t.subscribe l f r).2.Sound := by
  refine h.modify l _ fun x hx => ⟨rfl, rfl, rfl, fun hr => ?_⟩
  simp only [hr, if_true]
  exact h.ended l x hx hr

theorem lock?_unsubscribe {l l' : LockId} {id : SubscriptionId} {x' : Lock ρ}
    (h : (t.unsubscribe l id).2.lock? l' = some x') :
    ∃ x, t.lock? l' = some x ∧ ∃ subs, x' = { x with subscriptions := subs } ∧
      ∀ s ∈ subs, s ∈ x.subscriptions := by
  unfold unsubscribe at h
  rw [lock?_modify] at h
  split at h
  · obtain ⟨x, hx, rfl⟩ := Option.map_eq_some_iff.1 h
    exact ⟨x, hx, _, rfl, fun s hs => (List.mem_filter.1 hs).1⟩
  · exact ⟨x', h, _, rfl, fun s hs => hs⟩

@[simp] theorem mailbox?_unsubscribe (t : LockTable ρ) (l : LockId) (id : SubscriptionId)
    (m : MailboxId) : (t.unsubscribe l id).2.mailbox? m = t.mailbox? m := rfl

theorem Sound.unsubscribe (h : t.Sound) (l : LockId) (id : SubscriptionId) :
    (t.unsubscribe l id).2.Sound := by
  refine h.modify l _ fun x hx => ⟨rfl, rfl, rfl, fun hr => ?_⟩
  obtain ⟨hw, hs⟩ := h.ended l x hx hr
  exact ⟨hw, by simp [hs]⟩

/-! ## Signals -/

theorem deliver_of_some {l : LockId} {x : Lock ρ} (h : t.lock? l = some x) (v : Json) :
    t.deliver l v =
      ((t.woken x v, (x.subscriptions.filter (·.filter.accepts v)).map (·.reaction)),
        (t.woken x v).foldl (fun t m => t.serve m (.value v))
          (t.modify l fun y => { y with
            value := v
            waiters := x.waiters.filter fun w =>
              t.isPending w.mailbox && !w.filter.accepts v })) := by
  unfold deliver
  rw [h]

theorem deliver_of_none {l : LockId} (h : t.lock? l = none) (v : Json) :
    t.deliver l v = (([], []), t) := by
  unfold deliver
  rw [h]

/-- A lock after a signal: only its value changes, and waiters that were served leave. -/
theorem lock?_deliver {l l' : LockId} {v : Json} {x' : Lock ρ}
    (h : (t.deliver l v).2.lock? l' = some x') :
    ∃ x, t.lock? l' = some x ∧ ∃ value ws, x' = { x with value := value, waiters := ws } ∧
      ∀ w ∈ ws, w ∈ x.waiters := by
  cases hl : t.lock? l with
  | none => rw [deliver_of_none hl] at h; exact ⟨x', h, _, _, rfl, fun w hw => hw⟩
  | some y =>
    rw [deliver_of_some hl] at h
    simp only [lock?_serveAll, lock?_modify] at h
    split at h
    · next he =>
      subst he
      rw [hl] at h
      obtain rfl := Option.some.inj h
      exact ⟨y, hl, _, _, rfl, fun w hw => (List.mem_filter.1 hw).1⟩
    · exact ⟨x', h, _, _, rfl, fun w hw => hw⟩

theorem lock?_deliver_of_some {l' : LockId} {x : Lock ρ} (h : t.lock? l' = some x) (l : LockId)
    (v : Json) : ∃ x', (t.deliver l v).2.lock? l' = some x' ∧
      (∀ w ∈ x.waiters, t.isPending w.mailbox = true →
        (l = l' → w.filter.accepts v = false) → w ∈ x'.waiters) := by
  cases hl : t.lock? l with
  | none => rw [deliver_of_none hl]; exact ⟨x, h, fun w hw _ _ => hw⟩
  | some y =>
    rw [deliver_of_some hl]
    simp only [lock?_serveAll, lock?_modify, h]
    split
    · next he =>
      subst he
      obtain rfl : y = x := Option.some.inj (hl.symm.trans h)
      refine ⟨_, rfl, fun w hw hp hf => List.mem_filter.2 ⟨hw, ?_⟩⟩
      rw [hp, hf rfl]
      rfl
    · exact ⟨x, rfl, fun w hw _ _ => hw⟩

theorem mailbox?_deliver (t : LockTable ρ) (l : LockId) (v : Json) (m : MailboxId) :
    (t.deliver l v).2.mailbox? m =
      if m ∈ (t.deliver l v).1.1 then
        (t.mailbox? m).map fun b => { b with content := some (.value v) }
      else t.mailbox? m := by
  cases hl : t.lock? l with
  | none => rw [deliver_of_none hl]; simp
  | some x =>
    rw [deliver_of_some hl]
    exact mailbox?_serveAll ..

/-- Who is served by a signal: the owners of mailboxes that still wait and accept it. -/
theorem mem_served {l : LockId} {x : Lock ρ} (h : t.lock? l = some x) (v : Json) (m : MailboxId) :
    m ∈ (t.deliver l v).1.1 ↔
      ∃ w ∈ x.waiters, t.isPending w.mailbox = true ∧ w.filter.accepts v = true ∧
        w.mailbox = m := by
  rw [deliver_of_some h]
  simp [woken, and_assoc]

theorem Sound.deliver (h : t.Sound) (l : LockId) (v : Json) : (t.deliver l v).2.Sound := by
  cases hl : t.lock? l with
  | none => rw [deliver_of_none hl]; exact h
  | some x =>
    rw [deliver_of_some hl]
    apply Sound.serveAll
    apply h.modify
    intro y hy
    refine ⟨rfl, rfl, rfl, fun hr => ?_⟩
    obtain rfl : x = y := Option.some.inj (hl.symm.trans hy)
    obtain ⟨hw, hs⟩ := h.ended l x hl hr
    simp [hw, hs]

/-! ## Release -/

theorem releaseLock_of_some {l : LockId} {x : Lock ρ} (h : t.lock? l = some x) :
    t.releaseLock l =
      ((x.waiters.filter (t.isPending ·.mailbox)).map (·.mailbox),
        ((x.waiters.filter (t.isPending ·.mailbox)).map (·.mailbox)).foldl
          (fun t m => t.serve m .released) (t.modify l Lock.ended)) := by
  unfold releaseLock
  rw [h]

theorem releaseLock_of_none {l : LockId} (h : t.lock? l = none) : t.releaseLock l = ([], t) := by
  unfold releaseLock
  rw [h]

theorem lock?_releaseLock (t : LockTable ρ) (l l' : LockId) :
    (t.releaseLock l).2.lock? l' =
      if l = l' then (t.lock? l').map Lock.ended else t.lock? l' := by
  cases h : t.lock? l with
  | none =>
    rw [releaseLock_of_none h]
    split
    · next he => rw [← he, h]; rfl
    · rfl
  | some x =>
    rw [releaseLock_of_some h]
    simp only [lock?_serveAll, lock?_modify]

theorem ids_releaseLock (t : LockTable ρ) (l : LockId) :
    (t.releaseLock l).2.mailboxes.map Mailbox.id = t.mailboxes.map Mailbox.id := by
  cases h : t.lock? l with
  | none => rw [releaseLock_of_none h]
  | some x =>
    rw [releaseLock_of_some h]
    exact ids_serveAll ..

@[simp] theorem issued_releaseLock (t : LockTable ρ) (l : LockId) :
    (t.releaseLock l).2.issued = t.issued := by
  cases h : t.lock? l with
  | none => rw [releaseLock_of_none h]
  | some x =>
    rw [releaseLock_of_some h]
    exact issued_serveAll ..

@[simp] theorem held_releaseLock (t : LockTable ρ) (l : LockId) :
    (t.releaseLock l).2.held = t.held := by
  cases h : t.lock? l with
  | none => rw [releaseLock_of_none h]
  | some x =>
    rw [releaseLock_of_some h]
    exact held_serveAll ..

theorem releaseLocks_cons (t : LockTable ρ) (l : LockId) (ls : List LockId) :
    (t.releaseLocks (l :: ls)).2 = ((t.releaseLock l).2.releaseLocks ls).2 := rfl

theorem ids_releaseLocks (t : LockTable ρ) (ls : List LockId) :
    (t.releaseLocks ls).2.mailboxes.map Mailbox.id = t.mailboxes.map Mailbox.id := by
  induction ls generalizing t with
  | nil => rfl
  | cons l ls ih => rw [releaseLocks_cons, ih, ids_releaseLock]

@[simp] theorem issued_releaseLocks (t : LockTable ρ) (ls : List LockId) :
    (t.releaseLocks ls).2.issued = t.issued := by
  induction ls generalizing t with
  | nil => rfl
  | cons l ls ih => rw [releaseLocks_cons, ih, issued_releaseLock]

@[simp] theorem held_releaseLocks (t : LockTable ρ) (ls : List LockId) :
    (t.releaseLocks ls).2.held = t.held := by
  induction ls generalizing t with
  | nil => rfl
  | cons l ls ih => rw [releaseLocks_cons, ih, held_releaseLock]

theorem lock?_releaseLocks (t : LockTable ρ) (ls : List LockId) (l : LockId) :
    (t.releaseLocks ls).2.lock? l = if l ∈ ls then (t.lock? l).map Lock.ended else t.lock? l := by
  induction ls generalizing t with
  | nil => simp [releaseLocks]
  | cons l' ls ih =>
    rw [releaseLocks_cons, ih, lock?_releaseLock]
    by_cases he : l' = l
    · subst he
      cases t.lock? l' with
      | none => simp
      | some x => by_cases hm : l' ∈ ls <;> simp [hm, Lock.ended]
    · simp [he, Ne.symm he]

/-- A mailbox is left alone by the release of a lock, or it waited and sees the release. -/
theorem mailbox?_releaseLock (hd : (t.mailboxes.map Mailbox.id).Nodup) (l : LockId)
    (m : MailboxId) :
    (t.releaseLock l).2.mailbox? m = t.mailbox? m ∨
      t.mailbox? m = some ⟨m, none⟩ ∧ (t.releaseLock l).2.mailbox? m = some ⟨m, some .released⟩ ∧
        ∃ x, t.lock? l = some x ∧ ∃ w ∈ x.waiters, w.mailbox = m := by
  cases h : t.lock? l with
  | none => rw [releaseLock_of_none h]; exact Or.inl rfl
  | some x =>
    rw [releaseLock_of_some h]
    simp only [mailbox?_serveAll, mailbox?_modify]
    split
    · next hm =>
      obtain ⟨w, hw, rfl⟩ := List.mem_map.1 hm
      obtain ⟨hw, hp⟩ := List.mem_filter.1 hw
      obtain ⟨b, hb, hc⟩ := (isPending_iff hd _).1 hp
      obtain ⟨-, hid⟩ := mem_of_mailbox? hb
      refine Or.inr ⟨?_, ?_, x, rfl, w, hw, rfl⟩
      · rw [hb, ← hid, ← hc]
      · rw [hb, Option.map_some, ← hid]
    · exact Or.inl rfl

theorem mailbox?_releaseLocks (hd : (t.mailboxes.map Mailbox.id).Nodup) (ls : List LockId)
    (m : MailboxId) :
    (t.releaseLocks ls).2.mailbox? m = t.mailbox? m ∨
      t.mailbox? m = some ⟨m, none⟩ ∧
        (t.releaseLocks ls).2.mailbox? m = some ⟨m, some .released⟩ ∧
        ∃ l ∈ ls, ∃ x, t.lock? l = some x ∧ ∃ w ∈ x.waiters, w.mailbox = m := by
  induction ls generalizing t with
  | nil => exact Or.inl rfl
  | cons l ls ih =>
    rw [releaseLocks_cons]
    have hd' : ((t.releaseLock l).2.mailboxes.map Mailbox.id).Nodup := by
      rw [ids_releaseLock]; exact hd
    rcases ih hd', mailbox?_releaseLock hd l m with ⟨h | ⟨h, h', l', hl', x, hx, w, hw, hm⟩, h₁ | h₁⟩
    · exact Or.inl (h.trans h₁)
    · obtain ⟨h₁, h₂, x, hx, hw⟩ := h₁
      exact Or.inr ⟨h₁, h.trans h₂, l, List.mem_cons_self, x, hx, hw⟩
    · rw [h₁] at h
      refine Or.inr ⟨h, h', l', List.mem_cons_of_mem _ hl', ?_⟩
      rw [lock?_releaseLock] at hx
      split at hx
      · obtain ⟨y, -, rfl⟩ := Option.map_eq_some_iff.1 hx
        exact absurd hw (by simp [Lock.ended])
      · exact ⟨x, hx, w, hw, hm⟩
    · rw [h₁.2.1] at h
      exact absurd h (by simp)

/-- Whoever waits on a lock sees its release. -/
theorem served_releaseLocks (hd : (t.mailboxes.map Mailbox.id).Nodup) {ls : List LockId}
    {l : LockId} {x : Lock ρ} {w : Waiter} (hl : l ∈ ls) (hx : t.lock? l = some x)
    (hw : w ∈ x.waiters) : (t.releaseLocks ls).2.mailbox? w.mailbox ≠ some ⟨w.mailbox, none⟩ := by
  induction ls generalizing t x with
  | nil => exact absurd hl (by simp)
  | cons l' ls ih =>
    rw [releaseLocks_cons]
    have hd' : ((t.releaseLock l').2.mailboxes.map Mailbox.id).Nodup := by
      rw [ids_releaseLock]; exact hd
    by_cases he : l' = l
    · subst he
      intro hc
      rcases mailbox?_releaseLocks hd' ls w.mailbox with h | ⟨-, h, -⟩
      · rw [h, releaseLock_of_some hx] at hc
        simp only [mailbox?_serveAll, mailbox?_modify] at hc
        split at hc
        · obtain ⟨b, -, hb⟩ := Option.map_eq_some_iff.1 hc
          exact absurd (congrArg Mailbox.content hb) (by simp)
        · next hm =>
          refine hm (List.mem_map.2 ⟨w, List.mem_filter.2 ⟨hw, ?_⟩, rfl⟩)
          exact (isPending_iff hd _).2 ⟨_, hc, rfl⟩
      · rw [h] at hc
        exact absurd hc (by simp)
    · refine ih hd' (List.mem_of_ne_of_mem (Ne.symm he) hl) ?_ hw
      rw [lock?_releaseLock, if_neg he, hx]

/-- Whether a tab holds a lock. -/
theorem Sound.mem_values_ofTab (h : t.Sound) {tab : String} {l : LockId} {x : Lock ρ}
    (hx : t.lock? l = some x) :
    l ∈ Keyed.values (t.ofTab tab) ↔ x.tab = tab ∧ x.released = false := by
  constructor
  · intro hl
    obtain ⟨q, hq, rfl⟩ := List.mem_map.1 hl
    obtain ⟨p, hp, rfl, hq'⟩ := mem_ofTab hq
    obtain ⟨y, hy, htab, -, hr⟩ := h.held p hp q hq'
    obtain rfl : x = y := Option.some.inj (hx.symm.trans hy)
    exact ⟨htab, hr⟩
  · rintro ⟨rfl, hr⟩
    exact List.mem_map.2 ⟨_, Keyed.mem_of_get? (h.holds l x hx hr), rfl⟩

/-- A lock after the release of a tab: those of the tab have ended. -/
theorem Sound.lock?_release (h : t.Sound) {l : LockId} {x : Lock ρ} (hx : t.lock? l = some x)
    (tab : String) :
    (t.release tab).2.lock? l = some (if x.tab = tab then x.ended else x) := by
  have hl : ({ t with held := Keyed.erase tab t.held } : LockTable ρ).lock? l = some x := hx
  unfold LockTable.release
  rw [lock?_releaseLocks, hl]
  by_cases hm : l ∈ Keyed.values (t.ofTab tab)
  · rw [if_pos hm, if_pos ((h.mem_values_ofTab hx).1 hm).1]
    rfl
  · rw [if_neg hm]
    split
    · next htab =>
      cases hr : x.released with
      | false => exact absurd ((h.mem_values_ofTab hx).2 ⟨htab, hr⟩) hm
      | true =>
        obtain ⟨hw, hs⟩ := h.ended l x hx hr
        cases x
        simp_all [Lock.ended]
    · rfl

theorem ofTab_release (t : LockTable ρ) (tab tab' : String) :
    (t.release tab).2.ofTab tab' = if tab' = tab then [] else t.ofTab tab' := by
  unfold release ofTab
  rw [held_releaseLocks, Keyed.get?_erase]
  split <;> rfl

theorem lock?_of_release {tab : String} {l : LockId} {x' : Lock ρ}
    (h : (t.release tab).2.lock? l = some x') : ∃ x, t.lock? l = some x := by
  unfold release at h
  rw [lock?_releaseLocks] at h
  split at h
  · obtain ⟨x, hx, -⟩ := Option.map_eq_some_iff.1 h
    exact ⟨x, hx⟩
  · exact ⟨x', h⟩

theorem Sound.release (h : t.Sound) (tab : String) : (t.release tab).2.Sound where
  held p hp q hq := by
    unfold LockTable.release at hp
    rw [held_releaseLocks] at hp
    obtain ⟨hp, hne⟩ := List.mem_filter.1 hp
    obtain ⟨x, hx, htab, hkey, hr⟩ := h.held p hp q hq
    have hne' : x.tab ≠ tab := by rw [htab]; simpa using hne
    exact ⟨x, by rw [h.lock?_release hx, if_neg hne'], htab, hkey, hr⟩
  holds l x' hx' hr := by
    obtain ⟨x, hx⟩ := lock?_of_release hx'
    rw [h.lock?_release hx, Option.some.injEq] at hx'
    split at hx'
    · rw [← hx'] at hr
      exact absurd hr (by simp [Lock.ended])
    · next htab =>
      subst hx'
      have := h.holds l x hx hr
      unfold LockTable.release LockTable.find? ofTab at *
      rw [held_releaseLocks]
      simp only [Keyed.get?_erase, if_neg htab, this]
  ended l x' hx' hr := by
    obtain ⟨x, hx⟩ := lock?_of_release hx'
    rw [h.lock?_release hx, Option.some.injEq] at hx'
    subst hx'
    by_cases htab : x.tab = tab
    · rw [if_pos htab]
      exact ⟨rfl, rfl⟩
    · rw [if_neg htab] at hr ⊢
      exact h.ended l x hx hr
  ordered := by
    unfold LockTable.release
    rw [held_releaseLocks]
    exact h.ordered.erase tab
  distinct := by
    unfold LockTable.release
    rw [ids_releaseLocks]
    exact h.distinct
  numbered b hb := by
    unfold LockTable.release at hb ⊢
    have hmem : b.id ∈ t.mailboxes.map Mailbox.id := by
      have := List.mem_map_of_mem (f := Mailbox.id) hb
      rwa [ids_releaseLocks] at this
    obtain ⟨c, hc, he⟩ := List.mem_map.1 hmem
    rw [issued_releaseLocks, ← he]
    exact h.numbered c hc

/-- A lock after the release of all tabs has ended. -/
theorem Sound.lock?_releaseAll (h : t.Sound) {l : LockId} {x : Lock ρ}
    (hx : t.lock? l = some x) : t.releaseAll.2.lock? l = some x.ended := by
  have hl : ({ t with held := [] } : LockTable ρ).lock? l = some x := hx
  unfold LockTable.releaseAll
  rw [lock?_releaseLocks, hl]
  split
  · rfl
  · next hm =>
    cases hr : x.released with
    | true =>
      obtain ⟨hw, hs⟩ := h.ended l x hx hr
      cases x
      simp_all [Lock.ended]
    | false =>
      obtain ⟨q, hq, he⟩ := List.mem_map.1 ((h.mem_values_ofTab hx).2 ⟨rfl, hr⟩)
      obtain ⟨p, hp, -, hq'⟩ := mem_ofTab hq
      exact absurd (List.mem_flatMap.2 ⟨p, hp, List.mem_map.2 ⟨q, hq', he⟩⟩) hm

theorem lock?_of_releaseAll {l : LockId} {x' : Lock ρ}
    (h : t.releaseAll.2.lock? l = some x') : ∃ x, t.lock? l = some x := by
  unfold releaseAll at h
  rw [lock?_releaseLocks] at h
  split at h
  · obtain ⟨x, hx, -⟩ := Option.map_eq_some_iff.1 h
    exact ⟨x, hx⟩
  · exact ⟨x', h⟩

theorem Sound.releaseAll (h : t.Sound) : t.releaseAll.2.Sound where
  held p hp := by
    unfold LockTable.releaseAll at hp
    rw [held_releaseLocks] at hp
    exact absurd hp (by simp)
  holds l x' hx' hr := by
    obtain ⟨x, hx⟩ := lock?_of_releaseAll hx'
    rw [h.lock?_releaseAll hx, Option.some.injEq] at hx'
    rw [← hx'] at hr
    exact absurd hr (by simp [Lock.ended])
  ended l x' hx' _ := by
    obtain ⟨x, hx⟩ := lock?_of_releaseAll hx'
    rw [h.lock?_releaseAll hx, Option.some.injEq] at hx'
    subst hx'
    exact ⟨rfl, rfl⟩
  ordered := by
    unfold LockTable.releaseAll
    rw [held_releaseLocks]
    exact .nil
  distinct := by
    unfold LockTable.releaseAll
    rw [ids_releaseLocks]
    exact h.distinct
  numbered b hb := by
    unfold LockTable.releaseAll at hb ⊢
    have hmem : b.id ∈ t.mailboxes.map Mailbox.id := by
      have := List.mem_map_of_mem (f := Mailbox.id) hb
      rwa [ids_releaseLocks] at this
    obtain ⟨c, hc, he⟩ := List.mem_map.1 hmem
    rw [issued_releaseLocks, ← he]
    exact h.numbered c hc

/-! ## Growth -/

/-- What later tables keep of a table. Of the locks a tab has at one time, none is released before
all are. -/
structure Le (t t' : LockTable ρ) : Prop where
  issued : t.issued ≤ t'.issued
  lock : ∀ l x, t.lock? l = some x → ∃ x', t'.lock? l = some x' ∧ x'.tab = x.tab ∧
    x'.key = x.key ∧ (x.released = true → x'.released = true)
  together : ∀ tab,
    (∀ l x, t.lock? l = some x → x.tab = tab → x.released = false →
      ∃ x', t'.lock? l = some x' ∧ x'.released = false) ∨
    (∀ l x, t.lock? l = some x → x.tab = tab → ∃ x', t'.lock? l = some x' ∧ x'.released = true)

namespace Le

/-- A change that releases nothing. -/
theorem of_lock (hissued : t.issued ≤ t'.issued)
    (h : ∀ l x, t.lock? l = some x → ∃ x', t'.lock? l = some x' ∧ x'.tab = x.tab ∧
      x'.key = x.key ∧ x'.released = x.released) : Le t t' where
  issued := hissued
  lock l x hx :=
    let ⟨x', hx', htab, hkey, hr⟩ := h l x hx
    ⟨x', hx', htab, hkey, fun h => hr.trans h⟩
  together _ := Or.inl fun l x hx _ hr =>
    let ⟨x', hx', _, _, hr'⟩ := h l x hx
    ⟨x', hx', hr'.trans hr⟩

theorem refl (t : LockTable ρ) : Le t t :=
  of_lock (Nat.le_refl _) fun _ x hx => ⟨x, hx, rfl, rfl, rfl⟩

theorem of_empty (t : LockTable ρ) : Le .empty t where
  issued := Nat.zero_le _
  lock _ _ hx := nomatch hx
  together _ := Or.inl fun _ _ hx => nomatch hx

theorem trans (h : Le t t') (h' : Le t' t'') : Le t t'' where
  issued := Nat.le_trans h.issued h'.issued
  lock l x hx := by
    obtain ⟨x', hx', htab, hkey, hr⟩ := h.lock l x hx
    obtain ⟨x'', hx'', htab', hkey', hr'⟩ := h'.lock l x' hx'
    exact ⟨x'', hx'', htab'.trans htab, hkey'.trans hkey, fun h => hr' (hr h)⟩
  together tab := by
    rcases h.together tab with hall | hall
    · rcases h'.together tab with hall' | hall'
      · refine Or.inl fun l x hx htab hr => ?_
        obtain ⟨x', hx', hr'⟩ := hall l x hx htab hr
        obtain ⟨y, hy, hytab, -⟩ := h.lock l x hx
        obtain rfl : x' = y := Option.some.inj (hx'.symm.trans hy)
        exact hall' l x' hx' (hytab.trans htab) hr'
      · refine Or.inr fun l x hx htab => ?_
        obtain ⟨x', hx', htab', -⟩ := h.lock l x hx
        exact hall' l x' hx' (htab'.trans htab)
    · refine Or.inr fun l x hx htab => ?_
      obtain ⟨x', hx', hr'⟩ := hall l x hx htab
      obtain ⟨x'', hx'', -, -, hr''⟩ := h'.lock l x' hx'
      exact ⟨x'', hx'', hr'' hr'⟩

theorem modify (t : LockTable ρ) (l : LockId) (f : Lock ρ → Lock ρ)
    (hf : ∀ x, (f x).tab = x.tab ∧ (f x).key = x.key ∧ (f x).released = x.released) :
    Le t (t.modify l f) := by
  refine of_lock (Nat.le_refl _) fun l' x hx => ?_
  rw [lock?_modify, hx]
  split
  · exact ⟨_, rfl, hf x⟩
  · exact ⟨x, rfl, rfl, rfl, rfl⟩

theorem close (t : LockTable ρ) (m : MailboxId) : Le t (t.close m) :=
  of_lock (Nat.le_refl _) fun _ x hx => ⟨x, hx, rfl, rfl, rfl⟩

theorem obtain (t : LockTable ρ) (tab owner key : String) :
    Le t (t.obtain tab owner key).2 := by
  refine of_lock (Nat.le_of_eq (issued_obtain ..).symm) fun l x hx => ?_
  exact ⟨x, lock?_obtain_of_some hx .., rfl, rfl, rfl⟩

theorem register (t : LockTable ρ) (l : LockId) (f : SignalFilter) :
    Le t (t.register l f).2 := by
  refine of_lock (by rw [issued_register]; exact Nat.le_succ _) fun l' x hx => ?_
  by_cases he : l' = l
  · subst he
    obtain ⟨ws, hx', -⟩ := lock?_register hx f
    exact ⟨_, hx', rfl, rfl, rfl⟩
  · exact ⟨x, by rw [lock?_register_of_ne he, hx], rfl, rfl, rfl⟩

theorem subscribe (t : LockTable ρ) (l : LockId) (f : SignalFilter) (r : ρ) :
    Le t (t.subscribe l f r).2 :=
  modify t l _ fun _ => ⟨rfl, rfl, rfl⟩

theorem unsubscribe (t : LockTable ρ) (l : LockId) (id : SubscriptionId) :
    Le t (t.unsubscribe l id).2 :=
  modify t l _ fun _ => ⟨rfl, rfl, rfl⟩

theorem deliver (t : LockTable ρ) (l : LockId) (v : Json) : Le t (t.deliver l v).2 := by
  cases hl : t.lock? l with
  | none => rw [deliver_of_none hl]; exact refl t
  | some x =>
    rw [deliver_of_some hl]
    refine of_lock (Nat.le_of_eq (by rw [issued_serveAll]; rfl)) fun l' y hy => ?_
    simp only [lock?_serveAll, lock?_modify, hy]
    split
    · exact ⟨_, rfl, rfl, rfl, rfl⟩
    · exact ⟨y, rfl, rfl, rfl, rfl⟩

theorem release (h : t.Sound) (tab : String) : Le t (t.release tab).2 where
  issued := by
    unfold LockTable.release
    exact Nat.le_of_eq (by rw [issued_releaseLocks])
  lock l x hx := by
    refine ⟨_, h.lock?_release hx tab, ?_⟩
    split <;> simp [Lock.ended]
  together tab' := by
    by_cases he : tab' = tab
    · subst he
      refine Or.inr fun l x hx htab => ⟨_, h.lock?_release hx tab', ?_⟩
      rw [if_pos htab]
      rfl
    · refine Or.inl fun l x hx htab hr => ⟨_, h.lock?_release hx tab, ?_⟩
      rw [if_neg (htab ▸ he), hr]

theorem releaseAll (h : t.Sound) : Le t t.releaseAll.2 where
  issued := by
    unfold LockTable.releaseAll
    exact Nat.le_of_eq (by rw [issued_releaseLocks])
  lock l x hx := ⟨_, h.lock?_releaseAll hx, rfl, rfl, fun _ => rfl⟩
  together _ := Or.inr fun _ _ hx _ => ⟨_, h.lock?_releaseAll hx, rfl⟩

end Le
end BlockEngine.LockTable
