import Mathlib.Algebra.Group.Int.Defs
import BlockEngine.Json.Text
import BlockEngine.Json.Token
import BlockEngine.Proofs.ShortestDigits

/-!
# Numbers read back from their texts

* `Json.Token.Parts` : a written number part by part, and `Json.Token.scanNumber_chars` : it is read
  part by part;
* `DecimalLayout.render_parts` : a decimal is laid out in parts that stand for it;
* `Number.Valid` : the numbers JSON holds, the integers of the 64-bit ranges and the finite doubles;
* `Number.scanNumber_text`, `Number.number?_numeral` : the text of such a number is read as the
  number.
-/

namespace BlockEngine

/-! ## Digits -/

theorem digitsValue_eq (cs : List Char) : digitsValue cs = Nat.ofDigitChars 10 cs 0 := rfl

theorem digitsValue_append (cs ds : List Char) :
    digitsValue (cs ++ ds) = Nat.ofDigitChars 10 ds (digitsValue cs) := by
  rw [digitsValue_eq, Nat.ofDigitChars_append]
  rfl

theorem digitsValue_append_zeros (cs : List Char) (n : Nat) :
    digitsValue (cs ++ List.replicate n '0') = digitsValue cs * 10 ^ n := by
  rw [digitsValue_append, Nat.ofDigitChars_replicate_zero, Nat.mul_comm]

theorem digitsValue_zeros_append (n : Nat) (cs : List Char) :
    digitsValue (List.replicate n '0' ++ cs) = digitsValue cs := by
  rw [digitsValue_append, digitsValue_eq, Nat.ofDigitChars_replicate_zero]
  rfl

theorem toList_toString (n : Nat) : (toString n).toList = Nat.toDigits 10 n := Nat.toList_repr

theorem digitsValue_toString (n : Nat) : digitsValue (toString n).toList = n := by
  rw [toList_toString, digitsValue_eq, Nat.ofDigitChars_ten_toDigits]

theorem isDigit_of_mem_toString {n : Nat} {c : Char} (h : c ∈ (toString n).toList) :
    c.isDigit = true :=
  Nat.isDigit_of_mem_toDigits (by decide) (by decide) (toList_toString n ▸ h)

theorem toString_ne_nil (n : Nat) : (toString n).toList ≠ [] := by
  rw [toList_toString]
  exact Nat.toDigits_ne_nil

/-- The digits of a positive number do not start with a zero. -/
theorem head_toString_ne_zero {n : Nat} (hn : n ≠ 0) : (toString n).toList.head? ≠ some '0' := by
  rw [toList_toString]
  induction n using Nat.strongRecOn with
  | ind n ih =>
    rw [Nat.toDigits_eq_if (by decide)]
    split
    · next hlt =>
      have hall : ∀ n, n < 10 → n ≠ 0 → [Nat.digitChar n].head? ≠ some '0' := by decide
      exact hall n hlt hn
    · next hle =>
      have ih := ih (n / 10) (by omega) (by omega)
      obtain ⟨c, cs, hcs⟩ := List.exists_cons_of_ne_nil
        (Nat.toDigits_ne_nil (n := n / 10) (b := 10))
      rw [hcs] at ih ⊢
      exact ih

/-- Dropping zeros at the end does not change the number. -/
theorem stripZeros_value (fuel n : Nat) (p : Int) :
    ((stripZeros fuel n p).1 : Rat) * 10 ^ (stripZeros fuel n p).2 = n * 10 ^ p := by
  induction fuel generalizing n p with
  | zero => rfl
  | succ fuel ih =>
    rw [stripZeros]
    split
    · next h =>
      simp only [Bool.and_eq_true, decide_eq_true_eq] at h
      have hten : ((n / 10 * 10 : Nat) : Rat) = n := by
        rw [Nat.div_mul_cancel (Nat.dvd_of_mod_eq_zero h.1)]
      rw [ih, ← hten, Rat.natCast_mul, Double.ten_zpow_add, Rat.zpow_one]
      grind
    · rfl

namespace Json.Token

/-! ## The parts of a number -/

/-- What may follow a number: nothing, or a character that does not go on with it. -/
def NumberEnds (cs : List Char) : Prop :=
  ∀ c, cs.head? = some c → c.isDigit = false ∧ c ≠ '.' ∧ c ≠ 'e' ∧ c ≠ 'E'

def signPart (negative : Bool) : List Char := if negative then ['-'] else []

def fractionPart (fraction : List Char) : List Char :=
  if fraction = [] then [] else '.' :: fraction

def exponentPart : Option Int → List Char
  | none => []
  | some i => 'e' :: (if i < 0 then '-' else '+') :: (toString i.natAbs).toList

theorem numberEnds_nil : NumberEnds [] := fun _ h => nomatch h

theorem scanDigits_append {ds rest : List Char} (hne : ds ≠ []) (hds : ∀ c ∈ ds, c.isDigit = true)
    (hrest : ∀ c, rest.head? = some c → c.isDigit = false) :
    scanDigits (ds ++ rest) = some (ds, rest) := by
  have htake : (ds ++ rest).takeWhile Char.isDigit = ds ∧
      (ds ++ rest).dropWhile Char.isDigit = rest := by
    have htail : rest.takeWhile Char.isDigit = [] ∧ rest.dropWhile Char.isDigit = rest := by
      cases rest with
      | nil => exact ⟨rfl, rfl⟩
      | cons c rest => simp [hrest c rfl]
    rw [List.takeWhile_append_of_pos hds, List.dropWhile_append_of_pos hds, htail.1, htail.2]
    exact ⟨List.append_nil _, rfl⟩
  unfold scanDigits
  rw [htake.1, htake.2]
  cases ds with
  | nil => exact absurd rfl hne
  | cons => rfl

theorem scanExponent_mark (negative : Bool) {cs ds rest : List Char}
    (h : scanDigits cs = some (ds, rest)) :
    scanExponent ('e' :: (if negative then '-' else '+') :: cs) =
      some (some (if negative then -(digitsValue ds : Int) else digitsValue ds), rest) := by
  cases negative <;>
  · show scanDigits cs >>= _ = _
    rw [h]
    rfl

theorem scanExponent_append (exponent : Option Int) {rest : List Char} (hrest : NumberEnds rest) :
    scanExponent (exponentPart exponent ++ rest) = some (exponent, rest) := by
  cases exponent with
  | none =>
    cases rest with
    | nil => rfl
    | cons c rest =>
      obtain ⟨-, -, he, hE⟩ := hrest c rfl
      simp [exponentPart, scanExponent, he, hE]
  | some i =>
    have hdigits : scanDigits ((toString i.natAbs).toList ++ rest) =
        some ((toString i.natAbs).toList, rest) :=
      scanDigits_append (toString_ne_nil _) (fun c => isDigit_of_mem_toString)
        fun c hc => (hrest c hc).1
    have hscan := scanExponent_mark (decide (i < 0)) hdigits
    simp only [decide_eq_true_eq, digitsValue_toString] at hscan
    have hvalue : (if i < 0 then -(i.natAbs : Int) else i.natAbs) = i := by
      split <;> omega
    rwa [hvalue] at hscan

/-- The parts of a number behind its sign. -/
structure Parts where
  whole : List Char
  fraction : List Char
  exponent : Option Int

/-- The characters of a number without a sign. -/
def Parts.chars (x : Parts) : List Char :=
  x.whole ++ (fractionPart x.fraction ++ exponentPart x.exponent)

/-- The number they write. -/
def Parts.numeral (x : Parts) (negative : Bool) : Numeral where
  negative
  digits := digitsValue (x.whole ++ x.fraction)
  exponent := x.exponent.getD 0 - x.fraction.length
  plain := x.fraction.isEmpty && x.exponent.isNone

/-- The whole part is a single zero, or digits that do not start with one. -/
structure Parts.WellFormed (x : Parts) : Prop where
  whole : x.whole = ['0'] ∨ ∃ c cs, x.whole = c :: cs ∧ c ≠ '0' ∧ ∀ d ∈ x.whole, d.isDigit = true
  fraction : ∀ c ∈ x.fraction, c.isDigit = true

/-- What stands behind the fraction ends its digits and holds no point. -/
theorem ends_exponentPart (exponent : Option Int) {rest : List Char} (hrest : NumberEnds rest)
    {c : Char} (hc : (exponentPart exponent ++ rest).head? = some c) :
    c.isDigit = false ∧ c ≠ '.' := by
  cases exponent with
  | none => exact ⟨(hrest c hc).1, (hrest c hc).2.1⟩
  | some i =>
    obtain rfl : 'e' = c := Option.some.inj hc
    decide

/-- What stands behind the whole part ends its digits. -/
theorem ends_fractionPart (fraction : List Char) (exponent : Option Int) {rest : List Char}
    (hrest : NumberEnds rest) {c : Char}
    (hc : (fractionPart fraction ++ (exponentPart exponent ++ rest)).head? = some c) :
    c.isDigit = false := by
  unfold fractionPart at hc
  split at hc
  · exact (ends_exponentPart exponent hrest hc).1
  · obtain rfl : '.' = c := Option.some.inj hc
    rfl

theorem scanSign_append (negative : Bool) {cs : List Char} (hcs : cs.head? ≠ some '-') :
    scanSign (signPart negative ++ cs) = (negative, cs) := by
  cases negative with
  | true => rfl
  | false =>
    cases cs with
    | nil => rfl
    | cons c cs =>
      have hc : c ≠ '-' := fun h => hcs (congrArg some h)
      simp [signPart, scanSign, hc]

theorem scanWhole_append {x : Parts} (hx : x.WellFormed) {rest : List Char}
    (hrest : ∀ c, rest.head? = some c → c.isDigit = false) :
    scanWhole (x.whole ++ rest) = some (x.whole, rest) := by
  rcases hx.whole with hzero | ⟨c, cs, hwhole, hc, hdigits⟩
  · rw [hzero]
    rfl
  · rw [hwhole] at hdigits ⊢
    have hscan := scanDigits_append (List.cons_ne_nil c cs) hdigits hrest
    rw [List.cons_append] at hscan ⊢
    simp [scanWhole, hc, hscan]

theorem scanFraction_append {fraction rest : List Char} (hdigits : ∀ c ∈ fraction, c.isDigit = true)
    (hrest : ∀ c, rest.head? = some c → c.isDigit = false ∧ c ≠ '.') :
    scanFraction (fractionPart fraction ++ rest) = some (fraction, rest) := by
  unfold fractionPart
  split
  · next hnil =>
    subst hnil
    cases rest with
    | nil => rfl
    | cons c rest => simp [scanFraction, (hrest c rfl).2]
  · next hne => exact scanDigits_append hne hdigits fun c hc => (hrest c hc).1

/-- A number is read part by part. -/
theorem scanNumber_chars {x : Parts} (hx : x.WellFormed) (negative : Bool) {rest : List Char}
    (hrest : NumberEnds rest) :
    scanNumber (signPart negative ++ (x.chars ++ rest)) = some (x.numeral negative, rest) := by
  have hsign : (x.chars ++ rest).head? ≠ some '-' := by
    unfold Parts.chars
    rcases hx.whole with hzero | ⟨c, ds, hwhole, -, hdigits⟩
    · rw [hzero]
      exact fun h => absurd (Option.some.inj h) (by decide)
    · rw [hwhole] at hdigits ⊢
      intro h
      obtain rfl : c = '-' := Option.some.inj h
      exact absurd (hdigits _ List.mem_cons_self) (by decide)
  unfold scanNumber
  rw [scanSign_append negative hsign]
  simp only
  rw [Parts.chars, List.append_assoc, List.append_assoc,
    scanWhole_append hx fun c hc => ends_fractionPart x.fraction x.exponent hrest hc]
  show scanFraction _ >>= _ = _
  rw [scanFraction_append hx.fraction fun c hc => ends_exponentPart x.exponent hrest hc]
  show scanExponent _ >>= _ = _
  rw [scanExponent_append x.exponent hrest]
  rfl

end Json.Token

open Json.Token

/-! ## Decimals as they are laid out -/

/-- The digits of a positive number: the first is not a zero. -/
theorem exists_digits {n : Nat} (hn : n ≠ 0) :
    ∃ c cs, (toString n).toList = c :: cs ∧ c ≠ '0' ∧ ∀ d ∈ c :: cs, d.isDigit = true := by
  obtain ⟨c, cs, hcs⟩ := List.exists_cons_of_ne_nil (toString_ne_nil n)
  have hhead := head_toString_ne_zero hn
  rw [hcs] at hhead
  exact ⟨c, cs, hcs, fun hc => hhead (congrArg some hc), fun d hd =>
    isDigit_of_mem_toString (hcs ▸ hd)⟩

theorem toList_zeros (n : Nat) : (zeros n).toList = List.replicate n '0' := String.toList_ofList

theorem isDigit_of_mem_zeros {n : Nat} {c : Char} (h : c ∈ List.replicate n '0') :
    c.isDigit = true := by
  rw [List.eq_of_mem_replicate h]
  rfl

/-- The parts are those of the decimal `n * 10 ^ q`, and not of an integer. -/
structure Json.Token.Parts.StandsFor (x : Parts) (n : Nat) (q : Int) : Prop where
  wellFormed : x.WellFormed
  plain : x.fraction ≠ [] ∨ x.exponent ≠ none
  value : (digitsValue (x.whole ++ x.fraction) : Rat) *
    10 ^ (x.exponent.getD 0 - x.fraction.length) = n * 10 ^ q

/-- A decimal is laid out as a whole part with a fraction or an exponent. -/
theorem DecimalLayout.render_parts {d : Nat} (hd : d ≠ 0) (p : Int) :
    ∃ x : Parts, (standard.render d p).toList = x.chars ∧ x.StandsFor d p := by
  have hvalue := stripZeros_value (digitCount d) d p
  have hten := Double.ten_zpow_pos p
  generalize hstrip : stripZeros (digitCount d) d p = stripped at *
  obtain ⟨n, q⟩ := stripped
  have hn : n ≠ 0 := by
    rintro rfl
    have hd' : (0 : Rat) < d := by exact_mod_cast Nat.pos_of_ne_zero hd
    have := Rat.mul_pos hd' hten
    grind
  obtain ⟨c, cs, hcs, hc, hdigits⟩ := exists_digits hn
  have hn' : digitsValue (c :: cs) = n := hcs ▸ digitsValue_toString n
  have hsame : ∀ x : Parts, digitsValue (x.whole ++ x.fraction) = n →
      x.exponent.getD 0 - x.fraction.length = q →
      (digitsValue (x.whole ++ x.fraction) : Rat) * 10 ^ (x.exponent.getD 0 - x.fraction.length) =
        d * 10 ^ p := by
    intro x hdigits hexponent
    rw [hdigits, hexponent]
    exact hvalue
  unfold render
  rw [hstrip]
  simp only
  rw [hcs]
  generalize hk : q + ((c :: cs).length : Int) = k
  split
  · split
    · next hq =>
      -- all digits stand before the point
      refine ⟨⟨c :: cs ++ List.replicate q.toNat '0', ['0'], none⟩, ?_, ⟨?_, ?_⟩, ?_, ?_⟩
      · simp [toList_zeros, Parts.chars, fractionPart, exponentPart, standard]
      · refine .inr ⟨c, _, rfl, hc, fun d hd => ?_⟩
        exact (List.mem_append.1 hd).elim (hdigits d) isDigit_of_mem_zeros
      · simp
      · simp
      · have hone : List.replicate q.toNat '0' ++ ['0'] = List.replicate (q.toNat + 1) '0' :=
          List.replicate_succ'.symm
        rw [List.append_assoc, hone, digitsValue_append_zeros, hn', Rat.natCast_mul,
          Double.ten_zpow_natCast, Rat.mul_assoc, ← Double.ten_zpow_add, ← hvalue]
        congr 2
        simp
        omega
    · split
      · next hq hpos =>
        -- the point stands between the digits
        obtain ⟨j, hj⟩ : ∃ j, k.toNat = j + 1 := Nat.exists_eq_add_one.2 (by omega)
        have hlt : k.toNat < (c :: cs).length := by omega
        have hdrop : (c :: cs).drop k.toNat ≠ [] := by
          rw [← List.length_pos_iff, List.length_drop]
          omega
        refine ⟨⟨(c :: cs).take k.toNat, (c :: cs).drop k.toNat, none⟩, ?_, ⟨?_, ?_⟩, ?_, ?_⟩
        · simp [Parts.chars, fractionPart, exponentPart, hdrop]
        · refine .inr ⟨c, cs.take j, ?_, hc, fun d hd => hdigits d (List.mem_of_mem_take hd)⟩
          rw [hj]
          rfl
        · exact fun d hd => hdigits d (List.mem_of_mem_drop hd)
        · exact .inl hdrop
        · refine hsame _ ?_ ?_
          · rw [List.take_append_drop]
            exact hn'
          · simp only [Option.getD_none, List.length_drop]
            omega
      · next hq hpos =>
        -- the digits stand behind the point
        refine ⟨⟨['0'], List.replicate (-k).toNat '0' ++ c :: cs, none⟩, ?_, ⟨.inl rfl, ?_⟩, ?_, ?_⟩
        · simp [Parts.chars, fractionPart, exponentPart, toList_zeros]
        · exact fun d hd => (List.mem_append.1 hd).elim isDigit_of_mem_zeros (hdigits d)
        · simp
        · refine hsame _ ?_ ?_
          · have hzeros : ['0'] ++ (List.replicate (-k).toNat '0' ++ c :: cs) =
                List.replicate ((-k).toNat + 1) '0' ++ c :: cs := rfl
            rw [hzeros, digitsValue_zeros_append]
            exact hn'
          · simp only [Option.getD_none, List.length_append, List.length_replicate]
            omega
  · -- one digit before the point, and an exponent
    refine ⟨⟨[c], cs, some (k - 1)⟩, ?_, ⟨?_, ?_⟩, .inr (Option.some_ne_none _), ?_⟩
    · have hrest : (if (c :: cs).length = 1 then ""
          else "." ++ String.ofList ((c :: cs).drop 1)).toList = fractionPart cs := by
        cases cs <;> simp [fractionPart]
      have hsign : (if k - 1 < 0 then "-" else standard.positiveSign).toList ++
          (toString (k - 1).natAbs).toList =
          (if k - 1 < 0 then '-' else '+') :: (toString (k - 1).natAbs).toList := by
        split <;> rfl
      have hmark : standard.mark.toList = ['e'] := by simp [standard]
      simp only [String.toList_append, hrest, List.append_assoc, hsign, hmark, String.toList_ofList]
      rfl
    · exact .inr ⟨c, [], rfl, hc, fun d hd =>
        hdigits d (List.mem_cons.2 (.inl (List.mem_singleton.1 hd)))⟩
    · exact fun d hd => hdigits d (List.mem_cons_of_mem c hd)
    · refine hsame _ hn' ?_
      simp only [Option.getD_some, List.length_cons] at hk ⊢
      omega

/-! ## Numbers -/

namespace Numeral

variable {n : Numeral}

theorem number?_natural (hplain : n.plain = true) (hneg : n.negative = false)
    (hlt : n.digits < 2 ^ 64) : n.number? = some (.int n.digits) := by
  have hlt : n.digits < Nat.pow 2 64 := hlt
  simp [number?, hplain, hneg, hlt]

theorem number?_negative (hplain : n.plain = true) (hneg : n.negative = true)
    (hpos : 0 < n.digits) (hle : n.digits ≤ 2 ^ 63) : n.number? = some (.int (-n.digits)) := by
  have hle : n.digits ≤ Nat.pow 2 63 := hle
  simp [number?, hplain, hneg, hpos, hle]

theorem number?_real (hplain : n.plain = false) {d : Double}
    (hd : Double.ofDecimal n.negative n.digits n.exponent = d) (hfinite : d.isFinite = true) :
    n.number? = some (.real d) := by
  simp [number?, hplain, hd, hfinite]

end Numeral

namespace Number

/-- A number that JSON holds: an integer of the 64-bit ranges or a finite double. -/
def Valid : Number → Prop
  | .int i => -(2 ^ 63) ≤ i ∧ i < 2 ^ 64
  | .real d => d.isFinite = true

/-- The number as it is written. -/
def numeral (n : Number) : Numeral :=
  ((scanNumber n.text.toList).map (·.1)).getD ⟨false, 0, 0, true⟩

theorem toList_text_int (i : Int) :
    (Number.text (.int i)).toList = signPart (decide (i < 0)) ++ (toString i.natAbs).toList := by
  have htext : Number.text (.int i) = i.repr := rfl
  rw [htext, Int.repr_eq_if]
  split
  · next hi =>
    rw [decide_eq_false (Int.not_lt.2 hi), show i.toNat = i.natAbs by omega]
    rfl
  · next hi =>
    rw [decide_eq_true (Int.not_le.1 hi), show (-i).toNat = i.natAbs by omega, String.toList_append]
    rfl

/-- The text of an integer is made of parts that are read as it. -/
theorem exists_parts_int {i : Int} (hi : (Number.int i).Valid) :
    ∃ (negative : Bool) (x : Parts), (Number.text (.int i)).toList = signPart negative ++ x.chars ∧
      x.WellFormed ∧ (x.numeral negative).number? = some (.int i) := by
  obtain ⟨hlow, hhigh⟩ := hi
  refine ⟨decide (i < 0), ⟨(toString i.natAbs).toList, [], none⟩, ?_, ⟨?_, nofun⟩, ?_⟩
  · rw [toList_text_int]
    simp [Parts.chars, fractionPart, exponentPart]
  · by_cases hzero : i.natAbs = 0
    · rw [hzero]
      exact .inl rfl
    · obtain ⟨c, cs, hcs, hc, hdigits⟩ := exists_digits hzero
      exact .inr ⟨c, cs, hcs, hc, hcs ▸ hdigits⟩
  · have hdigits : digitsValue ((toString i.natAbs).toList ++ []) = i.natAbs := by
      rw [List.append_nil, digitsValue_toString]
    by_cases hneg : i < 0
    · have h := Numeral.number?_negative (n := ⟨true, i.natAbs, 0, true⟩) rfl rfl
        (show 0 < i.natAbs by omega) (show i.natAbs ≤ 2 ^ 63 by omega)
      rw [Parts.numeral, hdigits, decide_eq_true hneg]
      refine h.trans ?_
      rw [show (-(i.natAbs : Int)) = i by omega]
    · have h := Numeral.number?_natural (n := ⟨false, i.natAbs, 0, true⟩) rfl rfl
        (show i.natAbs < 2 ^ 64 by omega)
      rw [Parts.numeral, hdigits, decide_eq_false hneg]
      refine h.trans ?_
      rw [show (i.natAbs : Int) = i by omega]

/-- The text of a double is made of parts that are read as it. -/
theorem exists_parts_real {d : Double} (hd : (Number.real d).Valid) :
    ∃ (negative : Bool) (x : Parts), (Number.text (.real d)).toList = signPart negative ++ x.chars ∧
      x.WellFormed ∧ (x.numeral negative).number? = some (.real d) := by
  obtain ⟨s, m, e, hview⟩ := Double.exists_view_of_isFinite hd
  have htext : ∀ body : String,
          (if s then "-" ++ body else body).toList = signPart s ++ body.toList := by
    intro body
    cases s <;> simp [signPart]
  obtain ⟨hlegal, hword⟩ := Double.of_view hview
  by_cases hm : m = 0
  · have he := (hlegal.resolve_right fun hl => Nat.ne_of_gt hl.pos hm).2
    subst hm he
    refine ⟨s, ⟨['0'], ['0'], none⟩, ?_, ⟨.inl rfl, by simp⟩, ?_⟩
    · have hchars : (Parts.mk ['0'] ['0'] none).chars = ("0" ++ ".0").toList := rfl
      rw [hchars, ← htext, text, Double.text, hview]
      rfl
    · exact Numeral.number?_real rfl hword.symm hd
  · have hl := hlegal.resolve_left fun h => hm h.1
    have hnear := Double.shortest_near hl
    obtain ⟨hdigits, -⟩ := Double.exponent_of_near hl hnear
    obtain ⟨x, hchars, hx⟩ := DecimalLayout.render_parts hdigits (Double.shortest m e).2
    have hplain : (x.numeral s).plain = false := by
      rcases hx.plain with h | h <;> simp [Parts.numeral, h, Option.isSome_iff_ne_none]
    refine ⟨s, x, ?_, hx.wellFormed, Numeral.number?_real hplain ?_ hd⟩
    · rw [← hchars, ← htext, text, Double.text, hview]
      simp [hm]
    · exact Double.ofDecimal_of_near hview hm (hx.value.symm ▸ hnear)

theorem exists_parts {n : Number} (hn : n.Valid) :
    ∃ (negative : Bool) (x : Parts), n.text.toList = signPart negative ++ x.chars ∧ x.WellFormed ∧
      (x.numeral negative).number? = some n := by
  cases n with
  | int i => exact exists_parts_int hn
  | real d => exact exists_parts_real hn

/-- The text of a number is read as far as it goes. -/
theorem scanNumber_text {n : Number} (hn : n.Valid) {rest : List Char} (hrest : NumberEnds rest) :
    scanNumber (n.text.toList ++ rest) = some (n.numeral, rest) := by
  obtain ⟨negative, x, htext, hx, -⟩ := exists_parts hn
  have hnumeral : n.numeral = x.numeral negative := by
    have h := scanNumber_chars hx negative numberEnds_nil
    rw [List.append_nil, ← htext] at h
    rw [numeral, h]
    rfl
  rw [hnumeral, htext, List.append_assoc]
  exact scanNumber_chars hx negative hrest

/-- What is written for a number stands for the number. -/
theorem number?_numeral {n : Number} (hn : n.Valid) : n.numeral.number? = some n := by
  obtain ⟨negative, x, htext, hx, hnumber⟩ := exists_parts hn
  have h := scanNumber_chars hx negative numberEnds_nil
  rw [List.append_nil, ← htext] at h
  rw [numeral, h]
  exact hnumber

end Number

/-- Every number that is read is one that JSON holds. -/
theorem Numeral.valid_of_number? {x : Numeral} {n : Number} (h : x.number? = some n) : n.Valid := by
  have h64 : Nat.pow 2 64 = 2 ^ 64 := rfl
  have h63 : Nat.pow 2 63 = 2 ^ 63 := rfl
  unfold number? at h
  split at h
  · next hnat =>
    simp only [Bool.and_eq_true, decide_eq_true_eq, h64] at hnat
    obtain rfl := Option.some.inj h
    exact ⟨by omega, by omega⟩
  · split at h
    · next hneg =>
      simp only [Bool.and_eq_true, decide_eq_true_eq, h63] at hneg
      obtain rfl := Option.some.inj h
      exact ⟨by omega, by omega⟩
    · simp only at h
      split at h
      · next hfinite =>
        obtain rfl := Option.some.inj h
        exact hfinite
      · cases h

end BlockEngine
