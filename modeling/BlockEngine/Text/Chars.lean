/-!
# The characters of a text

* `chars` : the characters of a text. Where every byte is a character they are read off the bytes,
  which takes little time even where a proof computes it;
* `chars_eq_toList` : they are the characters of the text.
-/

namespace BlockEngine

/-- The characters of bytes each of which is a character. -/
def asciiChars (bytes : List UInt8) : List Char := bytes.map fun b => Char.ofNat b.toNat

/-- The characters of a text. -/
def chars (s : String) : List Char :=
  let bytes := s.toByteArray.data.toList
  if bytes.all (· < 128) then asciiChars bytes else s.toList

/-- A character is one byte, or all its bytes but the last are large. -/
theorem utf8EncodeChar_of_small {c : Char} (h : ∀ b ∈ String.utf8EncodeChar c, b < 128) :
    String.utf8EncodeChar c = [UInt8.ofNat c.toNat] ∧ c.toNat < 128 := by
  have hlarge : ∀ n, n < 256 → 128 ≤ n → ¬ UInt8.ofNat n < 128 := by
    intro n hn hle hlt
    rw [UInt8.lt_iff_toNat_lt, UInt8.toNat_ofNat_of_lt' hn] at hlt
    exact absurd hlt (Nat.not_lt.2 hle)
  unfold String.utf8EncodeChar at h ⊢
  change ∀ b ∈ (if c.toNat ≤ 127 then _ else _), b < 128 at h
  change (if c.toNat ≤ 127 then _ else _) = _ ∧ _
  split
  · next hv => exact ⟨rfl, Nat.lt_succ_of_le hv⟩
  · next hv =>
    rw [if_neg hv] at h
    split at h
    · exact absurd (h _ List.mem_cons_self) (hlarge _ (by omega) (by omega))
    · split at h
      · exact absurd (h _ List.mem_cons_self) (hlarge _ (by omega) (by omega))
      · exact absurd (h _ List.mem_cons_self) (hlarge _ (by omega) (by omega))

theorem asciiChars_utf8Encode {cs : List Char}
    (h : ∀ b ∈ cs.flatMap String.utf8EncodeChar, b < 128) :
    asciiChars (cs.flatMap String.utf8EncodeChar) = cs := by
  induction cs with
  | nil => rfl
  | cons c cs ih =>
    rw [List.flatMap_cons] at h ⊢
    obtain ⟨hc, hlt⟩ := utf8EncodeChar_of_small fun b hb => h b (List.mem_append_left _ hb)
    have hrest := ih fun b hb => h b (List.mem_append_right _ hb)
    unfold asciiChars at hrest ⊢
    rw [hc, List.cons_append, List.nil_append, List.map_cons, hrest,
      UInt8.toNat_ofNat_of_lt' (Nat.lt_trans hlt (by decide)), Char.ofNat_toNat]

theorem chars_eq_toList (s : String) : chars s = s.toList := by
  obtain ⟨cs, rfl⟩ := s.exists_eq_ofList
  unfold chars
  simp only
  split
  · next h =>
    have hbytes : (String.ofList cs).toByteArray.data.toList = cs.flatMap String.utf8EncodeChar :=
      List.toList_data_toByteArray
    rw [hbytes] at h ⊢
    rw [String.toList_ofList]
    exact asciiChars_utf8Encode fun b hb => by simpa using List.all_eq_true.1 h b hb
  · rfl

end BlockEngine
