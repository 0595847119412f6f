/-!
# Parts of a text

* `partsBetween` : the characters between the occurrences of a delimiter, which are looked for from
  the left and do not overlap;
* `intercalate_partsBetween` : with the delimiter between them the parts are the text again;
* `partsBetween_eq_nil_iff` : no part holds anything in a repeated delimiter, and in nothing else;
* `splitText` : the parts of a text.
-/

namespace BlockEngine

/-- The parts from a place in a text on. `part` is the part so far, its last character first, and
`skip` characters are left of the last occurrence. -/
def partsFrom (delimiter : List Char) : Nat → List Char → List Char → List (List Char)
  | _, part, [] => [part.reverse]
  | skip + 1, part, _ :: cs => partsFrom delimiter skip part cs
  | 0, part, c :: cs =>
    if delimiter.isPrefixOf (c :: cs) then
      part.reverse :: partsFrom delimiter (delimiter.length - 1) [] cs
    else partsFrom delimiter 0 (c :: part) cs

def partsBetween (delimiter cs : List Char) : List (List Char) := partsFrom delimiter 0 [] cs

section

variable {delimiter part cs rest : List Char} {c : Char}

theorem partsFrom_skip (delimiter part : List Char) (skip : Nat) (cs : List Char) :
    partsFrom delimiter skip part cs = partsFrom delimiter 0 part (cs.drop skip) := by
  induction cs generalizing skip with
  | nil => cases skip <;> rfl
  | cons c cs ih =>
    cases skip with
    | zero => rfl
    | succ skip => exact ih skip

/-- An occurrence ends a part. -/
theorem partsFrom_delimiter (hd : delimiter ≠ []) (part rest : List Char) :
    partsFrom delimiter 0 part (delimiter ++ rest) =
      part.reverse :: partsFrom delimiter 0 [] rest := by
  obtain ⟨c, cs, rfl⟩ := List.exists_cons_of_ne_nil hd
  have hprefix : (c :: cs).isPrefixOf (c :: cs ++ rest) = true :=
    List.isPrefixOf_iff_prefix.2 (List.prefix_append _ _)
  rw [List.cons_append] at hprefix ⊢
  rw [partsFrom, if_pos hprefix, partsFrom_skip]
  simp

/-- Where no occurrence begins the part goes on. -/
theorem partsFrom_other (h : ¬ delimiter <+: c :: cs) (part : List Char) :
    partsFrom delimiter 0 part (c :: cs) = partsFrom delimiter 0 (c :: part) cs := by
  rw [partsFrom, if_neg (mt List.isPrefixOf_iff_prefix.1 h)]

theorem partsFrom_ne_nil (delimiter part : List Char) (skip : Nat) (cs : List Char) :
    partsFrom delimiter skip part cs ≠ [] := by
  induction cs generalizing skip part with
  | nil => cases skip <;> exact List.cons_ne_nil _ _
  | cons c cs ih =>
    cases skip with
    | zero =>
      rw [partsFrom]
      split
      · exact List.cons_ne_nil _ _
      · exact ih _ _
    | succ skip => exact ih part skip

theorem intercalate_partsFrom (hd : delimiter ≠ []) (part cs : List Char) :
    delimiter.intercalate (partsFrom delimiter 0 part cs) = part.reverse ++ cs := by
  induction hn : cs.length using Nat.strongRecOn generalizing part cs with
  | ind n ih =>
    cases cs with
    | nil => simp [partsFrom]
    | cons c cs =>
      by_cases hprefix : delimiter <+: c :: cs
      · obtain ⟨rest, hrest⟩ := hprefix
        have hlt : rest.length < n := by
          have := List.length_pos_iff.2 hd
          rw [← hn, ← hrest, List.length_append]
          omega
        rw [← hrest, partsFrom_delimiter hd,
          List.intercalate_cons_of_ne_nil (partsFrom_ne_nil delimiter [] 0 rest),
          ih rest.length hlt [] rest rfl]
        simp
      · rw [partsFrom_other hprefix, ih cs.length (by simp [← hn]) (c :: part) cs rfl]
        simp

/-- With the delimiter between them the parts are the text again. -/
theorem intercalate_partsBetween (hd : delimiter ≠ []) (cs : List Char) :
    delimiter.intercalate (partsBetween delimiter cs) = cs := intercalate_partsFrom hd [] cs

theorem partsBetween_repeated (hd : delimiter ≠ []) (n : Nat) :
    partsBetween delimiter (List.replicate n delimiter).flatten = List.replicate (n + 1) [] := by
  induction n with
  | zero => rfl
  | succ n ih =>
    rw [List.replicate_succ, List.flatten_cons, List.replicate_succ, ← ih]
    exact partsFrom_delimiter hd [] _

theorem intercalate_replicate_nil (delimiter : List Char) (n : Nat) :
    delimiter.intercalate (List.replicate (n + 1) []) = (List.replicate n delimiter).flatten := by
  induction n with
  | zero => rfl
  | succ n ih =>
    rw [List.replicate_succ, List.intercalate_cons_of_ne_nil (by simp), ih, List.replicate_succ]
    simp

/-- No part holds anything in a repeated delimiter, and in nothing else. -/
theorem partsBetween_eq_nil_iff (hd : delimiter ≠ []) :
    (∀ p ∈ partsBetween delimiter cs, p = []) ↔
      ∃ n, cs = (List.replicate n delimiter).flatten := by
  constructor
  · intro h
    obtain ⟨n, hn⟩ : ∃ n, (partsBetween delimiter cs).length = n + 1 :=
      Nat.exists_eq_add_one.2 (List.length_pos_iff.2 (partsFrom_ne_nil delimiter [] 0 cs))
    refine ⟨n, ?_⟩
    rw [← intercalate_replicate_nil, ← List.eq_replicate_iff.2 ⟨hn, h⟩, intercalate_partsBetween hd]
  · rintro ⟨n, rfl⟩ p hp
    rw [partsBetween_repeated hd] at hp
    exact List.eq_of_mem_replicate hp

end

/-- The parts of a text between delimiters; an empty delimiter parts every character. -/
def splitText (text delimiter : String) : List String :=
  if delimiter.isEmpty then text.toList.map fun c => String.ofList [c]
  else (partsBetween delimiter.toList text.toList).map String.ofList

end BlockEngine
