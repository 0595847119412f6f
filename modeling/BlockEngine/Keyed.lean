/-!
# Lists of pairs in key order

A keyed list holds each key once, in increasing order; strings are ordered by code point, which is
also the order of their UTF-8 bytes.

* `Keyed.insert`, `Keyed.ofList` : the last entry of a key wins;
* `Keyed.get?`, `Keyed.erase`, `Keyed.contains`;
* `Keyed.Ordered` : the order of the keys; lists in order are equal if they answer alike.
-/

namespace BlockEngine

/-- Pairs in increasing key order, each key once. -/
abbrev Keyed (α : Type) := List (String × α)

namespace Keyed

variable {α β : Type}

/-- Put `v` under `k`, replacing what was there. -/
def insert (k : String) (v : α) : Keyed α → Keyed α
  | [] => [(k, v)]
  | (k', v') :: rest =>
    if k < k' then (k, v) :: (k', v') :: rest
    else if k = k' then (k, v) :: rest
    else (k', v') :: insert k v rest

def get? (k : String) (m : Keyed α) : Option α := m.lookup k

def contains (k : String) (m : Keyed α) : Bool := (m.get? k).isSome

def erase (k : String) (m : Keyed α) : Keyed α := m.filter (fun p => p.1 ≠ k)

def keys (m : Keyed α) : List String := m.map (·.1)

def values (m : Keyed α) : List α := m.map (·.2)

/-- The keyed list of pairs in any order; of two entries of one key the later stays. -/
def ofList (pairs : List (String × α)) : Keyed α :=
  pairs.foldl (fun m p => m.insert p.1 p.2) []

/-! ## Reading after a change -/

@[simp] theorem get?_nil (k : String) : get? k ([] : Keyed α) = none := rfl

@[simp] theorem get?_cons (k a : String) (b : α) (m : Keyed α) :
    get? k ((a, b) :: m) = if k = a then some b else get? k m := by
  unfold get?
  rw [List.lookup_cons]
  by_cases h : k = a
  · simp [h]
  · rw [beq_false_of_ne h, if_neg h]

theorem get?_insert (k k' : String) (v : α) (m : Keyed α) :
    get? k' (insert k v m) = if k' = k then some v else get? k' m := by
  induction m with
  | nil => simp [insert]
  | cons p rest ih =>
    obtain ⟨a, b⟩ := p
    unfold insert
    split
    · simp
    · split
      · next hne =>
        subst hne
        by_cases h : k' = k <;> simp [h]
      · next hne =>
        by_cases h : k' = a
        · subst h; simp [Ne.symm hne]
        · simp [h, ih]

theorem get?_erase (k k' : String) (m : Keyed α) :
    get? k' (erase k m) = if k' = k then none else get? k' m := by
  induction m with
  | nil => simp [erase]
  | cons p rest ih =>
    obtain ⟨a, b⟩ := p
    unfold erase at ih ⊢
    by_cases ha : a = k
    · subst ha
      by_cases h : k' = a <;> simp_all
    · by_cases h : k' = a <;> simp_all

theorem get?_map (k : String) (f : α → β) (m : Keyed α) :
    get? k (List.map (fun p => (p.1, f p.2)) m) = (get? k m).map f := by
  induction m with
  | nil => rfl
  | cons p rest ih =>
    rw [List.map_cons, get?_cons, get?_cons, ih]
    split <;> rfl

theorem mem_of_get? {k : String} {v : α} {m : Keyed α} (h : get? k m = some v) : (k, v) ∈ m := by
  induction m with
  | nil => simp at h
  | cons p rest ih =>
    obtain ⟨a, b⟩ := p
    rw [get?_cons] at h
    split at h
    · next hk =>
      rw [hk, ← Option.some.inj h]
      exact List.mem_cons_self
    · exact List.mem_cons_of_mem _ (ih h)

theorem mem_insert {k : String} {v : α} {m : Keyed α} {p : String × α} (h : p ∈ insert k v m) :
    p = (k, v) ∨ p ∈ m := by
  induction m with
  | nil => exact Or.inl (by simpa [insert] using h)
  | cons q rest ih =>
    obtain ⟨a, b⟩ := q
    unfold insert at h
    split at h
    · exact (List.mem_cons.1 h).imp_right id
    · split at h
      · exact (List.mem_cons.1 h).imp_right (List.mem_cons_of_mem _)
      · rcases List.mem_cons.1 h with h | h
        · exact Or.inr (h ▸ List.mem_cons_self)
        · exact (ih h).imp_right (List.mem_cons_of_mem _)

/-- Entries of other keys do not count. -/
theorem get?_ofList_filter (keep : String → Bool) {k : String} (hk : keep k = true)
    (pairs : List (String × α)) :
    get? k (ofList (pairs.filter fun p => keep p.1)) = get? k (ofList pairs) := by
  suffices h : ∀ m m' : Keyed α, get? k m = get? k m' →
      get? k ((pairs.filter fun p => keep p.1).foldl (fun m p => m.insert p.1 p.2) m) =
        get? k (pairs.foldl (fun m p => m.insert p.1 p.2) m') from h [] [] rfl
  induction pairs with
  | nil => exact fun _ _ h => h
  | cons p rest ih =>
    intro m m' h
    by_cases hp : keep p.1 = true
    · rw [List.filter_cons, if_pos hp]
      refine ih _ _ ?_
      rw [get?_insert, get?_insert, h]
    · rw [List.filter_cons, if_neg hp]
      refine ih _ _ ?_
      have hne : k ≠ p.1 := fun hkp => hp (hkp ▸ hk)
      rw [get?_insert, if_neg hne, h]

theorem insert_ne_nil (k : String) (v : α) (m : Keyed α) : insert k v m ≠ [] := by
  cases m with
  | nil => simp [insert]
  | cons p rest =>
    unfold insert
    split
    · simp
    · split <;> simp

theorem eq_nil_of_ofList {pairs : List (String × α)} (h : ofList pairs = []) : pairs = [] := by
  suffices hne : ∀ (pairs : List (String × α)) (m : Keyed α), m ≠ [] →
      pairs.foldl (fun m p => m.insert p.1 p.2) m ≠ [] by
    cases pairs with
    | nil => rfl
    | cons p rest => exact absurd h (hne rest _ (insert_ne_nil _ _ _))
  intro pairs
  induction pairs with
  | nil => exact fun _ h => h
  | cons p rest ih => exact fun m _ => ih _ (insert_ne_nil _ _ _)

/-! ## Lists made of pairs -/

theorem get?_filter (keep : String → Bool) (k : String) (m : Keyed α) :
    get? k (m.filter fun p => keep p.1) = if keep k = true then get? k m else none := by
  induction m with
  | nil => simp
  | cons p rest ih =>
    obtain ⟨a, b⟩ := p
    rw [List.filter_cons]
    split
    · next ha =>
      rw [get?_cons, get?_cons, ih]
      by_cases hk : k = a
      · simp_all
      · simp [hk]
    · next ha =>
      rw [ih, get?_cons]
      by_cases hk : k = a
      · simp_all
      · simp [hk]

theorem get?_foldl_insert (k : String) (pairs : List (String × α)) (m : Keyed α) :
    get? k (pairs.foldl (fun m p => m.insert p.1 p.2) m) =
      (get? k (ofList pairs)).or (get? k m) := by
  induction pairs generalizing m with
  | nil => simp [ofList]
  | cons p rest ih =>
    have hlist : get? k (ofList (p :: rest)) =
        (get? k (ofList rest)).or (get? k (Keyed.insert p.1 p.2 [])) := ih _
    rw [List.foldl_cons, ih, hlist, get?_insert, get?_insert, Option.or_assoc]
    split <;> rfl

theorem get?_ofList_append (k : String) (pairs more : List (String × α)) :
    get? k (ofList (pairs ++ more)) = (get? k (ofList more)).or (get? k (ofList pairs)) := by
  rw [ofList, List.foldl_append]
  exact get?_foldl_insert k more _

theorem get?_ofList_cons (k : String) (p : String × α) (rest : List (String × α)) :
    get? k (ofList (p :: rest)) =
      (get? k (ofList rest)).or (if k = p.1 then some p.2 else none) := by
  rw [ofList, List.foldl_cons, get?_foldl_insert, get?_insert]
  rfl

theorem mem_of_mem_ofList {pairs : List (String × α)} {p : String × α} (h : p ∈ ofList pairs) :
    p ∈ pairs := by
  suffices hgen : ∀ m : Keyed α, p ∈ pairs.foldl (fun m p => m.insert p.1 p.2) m →
      p ∈ m ∨ p ∈ pairs from (hgen [] h).resolve_left nofun
  clear h
  induction pairs with
  | nil => exact fun m h => .inl h
  | cons q rest ih =>
    intro m h
    rcases ih _ h with h | h
    · rcases mem_insert h with rfl | h
      · exact .inr List.mem_cons_self
      · exact .inl h
    · exact .inr (List.mem_cons_of_mem _ h)

/-- Where each key stands once no entry is lost. -/
theorem get?_ofList_of_mem {pairs : List (String × α)} (hkeys : (pairs.map (·.1)).Nodup)
    {p : String × α} (h : p ∈ pairs) : get? p.1 (ofList pairs) = some p.2 := by
  induction pairs with
  | nil => cases h
  | cons q rest ih =>
    obtain ⟨hq, hrest⟩ := List.nodup_cons.1 hkeys
    rw [get?_ofList_cons]
    rcases List.mem_cons.1 h with rfl | h
    · have hnone : get? p.1 (ofList rest) = none := by
        cases hget : get? p.1 (ofList rest) with
        | none => rfl
        | some v =>
          exact absurd (List.mem_map_of_mem (mem_of_mem_ofList (mem_of_get? hget))) hq
      rw [hnone, if_pos rfl]
      rfl
    · rw [ih hrest h]
      rfl

theorem mem_ofList {pairs : List (String × α)} (hkeys : (pairs.map (·.1)).Nodup)
    {p : String × α} : p ∈ ofList pairs ↔ p ∈ pairs :=
  ⟨mem_of_mem_ofList, fun h => mem_of_get? (get?_ofList_of_mem hkeys h)⟩

theorem map_insert (f : α → β) (k : String) (v : α) (m : Keyed α) :
    (insert k v m).map (fun p => (p.1, f p.2)) = insert k (f v) (m.map fun p => (p.1, f p.2)) := by
  induction m with
  | nil => rfl
  | cons p rest ih =>
    obtain ⟨a, b⟩ := p
    rw [insert, List.map_cons, insert]
    split
    · rfl
    · split
      · rfl
      · rw [List.map_cons, ih]

theorem ofList_map (f : α → β) (pairs : List (String × α)) :
    ofList (pairs.map fun p => (p.1, f p.2)) = (ofList pairs).map fun p => (p.1, f p.2) := by
  suffices hgen : ∀ m : Keyed α,
      (pairs.map fun p => (p.1, f p.2)).foldl (fun m p => Keyed.insert p.1 p.2 m)
          (m.map fun p => (p.1, f p.2)) =
        (pairs.foldl (fun m p => m.insert p.1 p.2) m).map fun p => (p.1, f p.2) from hgen []
  induction pairs with
  | nil => exact fun _ => rfl
  | cons p rest ih =>
    intro m
    rw [List.map_cons, List.foldl_cons, List.foldl_cons, ← ih (Keyed.insert p.1 p.2 m), map_insert]

/-! ## Order -/

/-- The keys are in increasing order, as every change leaves them. -/
def Ordered (m : Keyed α) : Prop := m.Pairwise fun p q => p.1 < q.1

theorem Ordered.insert {m : Keyed α} (h : Ordered m) (k : String) (v : α) :
    Ordered (Keyed.insert k v m) := by
  induction m with
  | nil => exact List.pairwise_singleton ..
  | cons p rest ih =>
    obtain ⟨a, b⟩ := p
    obtain ⟨hhead, hrest⟩ := List.pairwise_cons.1 h
    unfold Keyed.insert
    split
    · next hlt =>
      refine List.pairwise_cons.2 ⟨fun q hq => ?_, h⟩
      rcases List.mem_cons.1 hq with rfl | hq
      · exact hlt
      · exact String.lt_trans hlt (hhead q hq)
    · next hlt =>
      split
      · next heq =>
        subst heq
        exact List.pairwise_cons.2 ⟨hhead, hrest⟩
      · next hne =>
        have hgt : a < k := by
          refine Decidable.byContradiction fun hgt => hne ?_
          exact String.le_antisymm (String.not_lt.1 hgt) (String.not_lt.1 hlt)
        refine List.pairwise_cons.2 ⟨fun q hq => ?_, ih hrest⟩
        rcases mem_insert hq with rfl | hq
        · exact hgt
        · exact hhead q hq

theorem Ordered.erase {m : Keyed α} (h : Ordered m) (k : String) : Ordered (Keyed.erase k m) :=
  List.Pairwise.filter _ h

theorem Ordered.map {m : Keyed α} (h : Ordered m) (f : α → β) :
    Ordered (List.map (fun p => (p.1, f p.2)) m) :=
  List.pairwise_map.2 h

theorem Ordered.get?_of_mem {m : Keyed α} (h : Ordered m) {k : String} {v : α}
    (hm : (k, v) ∈ m) : get? k m = some v := by
  induction m with
  | nil => cases hm
  | cons p rest ih =>
    obtain ⟨a, b⟩ := p
    obtain ⟨hhead, hrest⟩ := List.pairwise_cons.1 h
    rw [get?_cons]
    rcases List.mem_cons.1 hm with heq | hm
    · obtain ⟨rfl, rfl⟩ := Prod.mk.inj heq
      exact if_pos rfl
    · have hne : k ≠ a := fun h => by
        have hlt := hhead _ hm
        rw [h] at hlt
        exact String.lt_irrefl _ hlt
      rw [if_neg hne]
      exact ih hrest hm

theorem insert_append {m : Keyed α} {k : String} (v : α) (h : ∀ p ∈ m, p.1 < k) :
    insert k v m = m ++ [(k, v)] := by
  induction m with
  | nil => rfl
  | cons p rest ih =>
    obtain ⟨a, b⟩ := p
    obtain ⟨ha, hrest⟩ := List.forall_mem_cons.1 h
    have hne : k ≠ a := fun hk => by
      subst hk
      exact String.lt_irrefl _ ha
    rw [insert, if_neg (String.lt_asymm ha), if_neg hne, ih hrest]
    rfl

theorem Ordered.ofList_eq {m : Keyed α} (h : Ordered m) : ofList m = m := by
  suffices hgen : ∀ done rest : Keyed α, Ordered (done ++ rest) →
      rest.foldl (fun m p => m.insert p.1 p.2) done = done ++ rest from hgen [] m h
  intro done rest
  induction rest generalizing done with
  | nil => intro _; simp
  | cons p rest ih =>
    intro h
    have hlt : ∀ q ∈ done, q.1 < p.1 := fun q hq =>
      (List.pairwise_append.1 h).2.2 q hq p List.mem_cons_self
    rw [List.foldl_cons, insert_append p.2 hlt]
    have hshift : done ++ p :: rest = (done ++ [p]) ++ rest := by simp
    rw [hshift] at h ⊢
    exact ih _ h

theorem ordered_ofList (pairs : List (String × α)) : Ordered (ofList pairs) := by
  suffices hgen : ∀ m : Keyed α, Ordered m →
      Ordered (pairs.foldl (fun m p => m.insert p.1 p.2) m) from hgen [] .nil
  induction pairs with
  | nil => exact fun _ h => h
  | cons p rest ih => exact fun m h => ih _ (h.insert p.1 p.2)

theorem get?_head (p : String × α) (m : Keyed α) : get? p.1 (p :: m) = some p.2 :=
  (get?_cons p.1 p.1 p.2 m).trans (if_pos rfl)

/-- Lists in key order that answer alike are the same. -/
theorem Ordered.ext {m m' : Keyed α} (h : Ordered m) (h' : Ordered m')
    (hget : ∀ k, get? k m = get? k m') : m = m' := by
  induction m generalizing m' with
  | nil =>
    cases m' with
    | nil => rfl
    | cons p rest => exact absurd ((hget p.1).trans (get?_head p rest)) nofun
  | cons p rest ih =>
    obtain ⟨hp, hrest⟩ := List.pairwise_cons.1 h
    cases m' with
    | nil => exact absurd ((hget p.1).symm.trans (get?_head p rest)) nofun
    | cons q rest' =>
      obtain ⟨hq, hrest'⟩ := List.pairwise_cons.1 h'
      have hpq : p = q := by
        have hpm : p ∈ q :: rest' := mem_of_get? ((hget p.1).symm.trans (get?_head p rest))
        have hqm : q ∈ p :: rest := mem_of_get? ((hget q.1).trans (get?_head q rest'))
        rcases List.mem_cons.1 hpm with heq | hpm
        · exact heq
        · rcases List.mem_cons.1 hqm with heq | hqm
          · exact heq.symm
          · exact absurd (hp q hqm) (String.lt_asymm (hq p hpm))
      subst hpq
      refine congrArg (p :: ·) (ih hrest hrest' fun k => ?_)
      have hk := hget k
      rw [get?_cons, get?_cons] at hk
      split at hk
      · next heq =>
        have hnone : ∀ m : Keyed α, (∀ q ∈ m, p.1 < q.1) → get? k m = none := by
          intro m hm
          cases hget : get? k m with
          | none => rfl
          | some v => exact absurd (heq ▸ hm _ (mem_of_get? hget)) (String.lt_irrefl _)
        rw [hnone rest hp, hnone rest' hq]
      · exact hk

/-- In key order a key stands once. -/
theorem Ordered.filter_eq {m : Keyed α} (h : Ordered m) (k : String) :
    m.filter (fun p => decide (p.1 = k)) = ((get? k m).map fun v => (k, v)).toList := by
  have hone : Ordered ((get? k m).map fun v => (k, v)).toList := by
    cases get? k m with
    | none => exact .nil
    | some v => exact List.pairwise_singleton ..
  refine Ordered.ext (h.filter _) hone fun k' => ?_
  rw [get?_filter fun k' => decide (k' = k)]
  by_cases hk : k' = k
  · subst hk
    cases get? k' m <;> simp
  · cases get? k m <;> simp [hk]

theorem Ordered.nodup_keys {m : Keyed α} (h : Ordered m) : (m.map (·.1)).Nodup := by
  refine List.pairwise_map.2 (List.Pairwise.imp ?_ h)
  intro p q hlt heq
  have hlt : p.1 < q.1 := hlt
  rw [heq] at hlt
  exact String.lt_irrefl _ hlt

end Keyed
end BlockEngine
