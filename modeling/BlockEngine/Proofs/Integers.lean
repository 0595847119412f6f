import BlockEngine.Proofs.Rounding
import BlockEngine.Value

/-!
# Sums of integers

Doubles hold all integers below `2 ^ 53` in absolute value, and a sum of integers that stays below that
is exact.

* `Double.Holds` : a double whose value is an integer;
* `view_ofMagnitude`, `view_nearest` : the word of a small integer, and what is rounded to it;
* `Holds.add` : the sum of two integers that doubles hold;
* `Json.ofDouble_of_holds` : a number that is a small integer is an integer as a value.
-/

namespace BlockEngine

namespace Double

variable {x y : Double} {n k : Int} {s : Bool} {m N den : Nat} {e u : Int}

/-- The value of a double is an integer. -/
def Holds (x : Double) (n : Int) : Prop := x.isIntegral = true ∧ x.truncate? = some n

instance : Decidable (x.Holds n) := inferInstanceAs (Decidable (_ ∧ _))

/-- An integer counted in units that are no larger than one, and no larger than the last place. -/
theorem Holds.units (h : x.Holds n) (hx : x.view = .finite s m e) (hu : u ≤ e) (hu₀ : u ≤ 0) :
    inUnits s m e u = n * (2 ^ (-u).toNat : Nat) := by
  obtain ⟨hintegral, htruncate⟩ := h
  unfold isIntegral at hintegral
  unfold truncate? at htruncate
  rw [hx] at hintegral htruncate
  have hn := Option.some.inj htruncate
  have hmagnitude : ∀ q : Nat, m * 2 ^ (e - u).toNat = q * 2 ^ (-u).toNat →
      n = (if s then -(q : Int) else q) → inUnits s m e u = n * (2 ^ (-u).toNat : Nat) := by
    intro q hq hn
    have hcast : ((m * Nat.pow 2 (e - u).toNat : Nat) : Int) = q * (2 ^ (-u).toNat : Nat) := by
      rw [← Int.natCast_mul]
      exact congrArg Nat.cast hq
    unfold Double.inUnits
    rw [hcast, hn]
    cases s with
    | false => rfl
    | true => exact (Int.neg_mul ..).symm
  by_cases he : 0 ≤ e
  · refine hmagnitude (m * 2 ^ e.toNat) ?_ ?_
    · rw [Nat.mul_assoc, ← Nat.pow_add, show e.toNat + (-u).toNat = (e - u).toNat by omega]
    · rw [← hn, if_pos he]
      rfl
  · have hdvd : m % 2 ^ (-e).toNat = 0 := by simpa [he] using hintegral
    refine hmagnitude (m / 2 ^ (-e).toNat) ?_ ?_
    · rw [show (-u).toNat = (-e).toNat + (e - u).toNat by omega, Nat.pow_add, ← Nat.mul_assoc,
        Nat.div_mul_cancel (Nat.dvd_of_mod_eq_zero hdvd)]
    · rw [← hn, if_neg he]
      rfl

/-- A normal double by its word. -/
theorem view_ofMagnitude (s : Bool) (h : Legal m e) (hnormal : -1074 < e) :
    (ofMagnitude s ((e + 1074).toNat * 2 ^ 52 + m)).view = .finite s m e := by
  have hlt := h.lt
  have hgreatest := h.greatest
  have hhidden := h.hidden hnormal
  obtain ⟨E, rfl⟩ : ∃ E : Nat, e = (E : Int) - 1074 := ⟨(e + 1074).toNat, by omega⟩
  rw [show ((E : Int) - 1074 + 1074).toNat = E by omega]
  generalize hsign : (if s then 2 ^ 63 else 0) = sign
  have hsigned : sign = 0 ∧ s = false ∨ sign = 2 ^ 63 ∧ s = true := by
    cases s <;> simp_all
  have hbits : (ofMagnitude s (E * 2 ^ 52 + m)).bits.toNat = sign + (E * 2 ^ 52 + m) := by
    unfold ofMagnitude
    rw [show (if s then Nat.pow 2 63 else 0) = sign from hsign]
    refine UInt64.toNat_ofNat_of_lt' ?_
    change sign + (E * 2 ^ 52 + m) < 2 ^ 64
    omega
  have hexponent : (ofMagnitude s (E * 2 ^ 52 + m)).exponentField = E + 1 := by
    unfold exponentField
    rw [hbits]
    change (sign + (E * 2 ^ 52 + m)) / 2 ^ 52 % 2 ^ 11 = E + 1
    omega
  have hfraction : (ofMagnitude s (E * 2 ^ 52 + m)).fractionField = m - 2 ^ 52 := by
    unfold fractionField
    rw [hbits]
    change (sign + (E * 2 ^ 52 + m)) % 2 ^ 52 = m - 2 ^ 52
    omega
  have hnegative : (ofMagnitude s (E * 2 ^ 52 + m)).isNegative = s := by
    unfold isNegative
    rw [hbits]
    change decide (2 ^ 63 ≤ sign + (E * 2 ^ 52 + m)) = s
    rcases hsigned with ⟨rfl, rfl⟩ | ⟨rfl, rfl⟩
    · exact decide_eq_false (by omega)
    · exact decide_eq_true (by omega)
  unfold view
  rw [if_neg (by omega), if_neg (by omega), hexponent, hfraction, hnegative]
  have hmantissa : Nat.pow 2 52 + (m - 2 ^ 52) = m := Nat.add_sub_cancel' hhidden
  rw [hmantissa, show ((E + 1 : Nat) : Int) - 1075 = E - 1074 by omega]

/-- A ratio that is a small integer is rounded to that integer. -/
theorem view_nearest (s : Bool) (hN : N ≠ 0) (hlt : N < 2 ^ 53) (hden : 0 < den) :
    ∃ m e, (nearest s (N * den) den).view = .finite s m e ∧ -1074 < e ∧ e ≤ 0 ∧
      m = N * 2 ^ (-e).toNat := by
  have hlow := Nat.log2_self_le hN
  have hhigh := Nat.lt_log2_self (n := N)
  have hlog : N.log2 ≤ 52 := Nat.le_of_lt_succ ((Nat.log2_lt hN).2 hlt)
  obtain ⟨j, hj⟩ : ∃ j, N.log2 + j = 52 := ⟨52 - N.log2, by omega⟩
  have hlegal : Legal (N * 2 ^ j) (-(j : Int)) := by
    refine ⟨Nat.mul_pos (Nat.pos_of_ne_zero hN) (Nat.two_pow_pos j), ?_, by omega, by omega,
      fun _ => ?_⟩
    · calc N * 2 ^ j < 2 ^ (N.log2 + 1) * 2 ^ j :=
          Nat.mul_lt_mul_of_pos_right hhigh (Nat.two_pow_pos j)
        _ = 2 ^ 53 := by rw [← Nat.pow_add, show N.log2 + 1 + j = 53 by omega]
    · calc 2 ^ 52 = 2 ^ N.log2 * 2 ^ j := by rw [← Nat.pow_add, hj]
        _ ≤ N * 2 ^ j := Nat.mul_le_mul_right _ hlow
  have hview := view_ofMagnitude s hlegal (by omega)
  -- The ratio is four quarters of the last place for each unit of the mantissa.
  have hratio : ((N * den : Nat) : Rat) / den * 2 ^ (2 - -(j : Int)) = 4 * (N * 2 ^ j : Nat) := by
    have hne : (den : Rat) ≠ 0 := by exact_mod_cast Nat.ne_of_gt hden
    have hfour : (2 : Rat) ^ (2 : Int) = 4 := rfl
    rw [Rat.natCast_mul, Rat.mul_div_cancel hne, show 2 - -(j : Int) = 2 + j by omega, two_zpow_add,
      hfour, Rat.natCast_mul, two_zpow_natCast]
    grind
  have hreach : (1 : Rat) ≤ reach (N * 2 ^ j) (-(j : Int)) := by exact_mod_cast (reach_le _ _).1
  have hnear : Near (N * 2 ^ j) (-(j : Int)) (((N * den : Nat) : Rat) / den) := by
    refine ⟨?_, ?_, fun _ => ⟨?_, ?_⟩⟩ <;> rw [hratio] <;> grind
  refine ⟨N * 2 ^ j, -(j : Int), ?_, by omega, by omega, by simp⟩
  rw [nearest_of_near hview (Nat.ne_of_gt hlegal.pos) hden hnear]
  exact hview

/-- Neither zero holds anything else. -/
theorem holds_zero (s : Bool) : (ofMagnitude s 0).Holds 0 := by
  have hview : (ofMagnitude s 0).view = .finite s 0 (-1074) := by cases s <;> rfl
  unfold Holds isIntegral truncate?
  simp only [hview, Nat.zero_mod, Nat.zero_div, Nat.zero_mul, decide_true, Bool.or_true, ite_self,
    true_and]
  cases s <;> rfl

/-- A small integer, given as a ratio with a sign, is held exactly. -/
theorem holds_nearest (hn : n ≠ 0) (hlt : n.natAbs < 2 ^ 53) (hden : 0 < den) :
    (nearest (n < 0) (n.natAbs * den) den).Holds n := by
  obtain ⟨m, e, hview, -, he, rfl⟩ :=
    view_nearest (decide (n < 0)) (Int.natAbs_ne_zero.2 hn) hlt hden
  have hdiv : n.natAbs * 2 ^ (-e).toNat / 2 ^ (-e).toNat = n.natAbs :=
    Nat.mul_div_cancel _ (Nat.two_pow_pos _)
  refine ⟨?_, ?_⟩
  · unfold isIntegral
    rw [hview]
    simp
  · unfold truncate?
    rw [hview]
    rcases Int.lt_or_eq_of_le he with he | rfl
    · have hneg : ¬ 0 ≤ e := Int.not_le.2 he
      simp only [hneg, if_false, decide_eq_true_eq, Option.some.injEq]
      have hpow : Nat.pow 2 (-e).toNat = 2 ^ (-e).toNat := rfl
      rw [hpow, hdiv]
      split <;> omega
    · have hone : n.natAbs * 2 ^ (-0 : Int).toNat * Nat.pow 2 (0 : Int).toNat = n.natAbs :=
        (Nat.mul_one _).trans (Nat.mul_one _)
      simp only [decide_eq_true_eq, Option.some.injEq, Int.le_refl, if_true, hone]
      split <;> omega

/-- A small integer in units no larger than one is held exactly. -/
theorem holds_ofScaled (s : Bool) (hlt : n.natAbs < 2 ^ 53) (hu : u ≤ 0) :
    (ofScaled s (n * (2 ^ (-u).toNat : Nat)) u).Holds n := by
  have hpos := Nat.two_pow_pos (-u).toNat
  unfold ofScaled
  by_cases hn : n = 0
  · subst hn
    rw [if_pos (Int.zero_mul _)]
    exact holds_zero s
  have hne : n * (2 ^ (-u).toNat : Nat) ≠ 0 :=
    Int.mul_ne_zero hn (by exact_mod_cast Nat.ne_of_gt hpos)
  have hsign : decide (n * (2 ^ (-u).toNat : Nat) < 0) = decide (n < 0) := by
    refine decide_eq_decide.2 ⟨fun h => Int.not_le.1 fun hn => ?_, fun h => ?_⟩
    · exact Int.not_le.2 h (Int.mul_nonneg hn (Int.natCast_nonneg _))
    · exact Int.mul_neg_of_neg_of_pos h (Int.natCast_pos.2 hpos)
  have habs : (n * (2 ^ (-u).toNat : Nat)).natAbs = n.natAbs * 2 ^ (-u).toNat := by
    rw [Int.natAbs_mul, Int.natAbs_natCast]
  rw [if_neg hne, hsign, habs]
  split
  · next hu' =>
    obtain rfl : u = 0 := Int.le_antisymm hu hu'
    have hone : n.natAbs * 2 ^ (-0 : Int).toNat * Nat.pow 2 (0 : Int).toNat = n.natAbs * 1 :=
      Nat.mul_one _
    rw [hone]
    exact holds_nearest hn hlt Nat.one_pos
  · exact holds_nearest hn hlt hpos

theorem holds_ofInt (hlt : n.natAbs < 2 ^ 53) : (ofInt n).Holds n := by
  have h := holds_ofScaled false hlt (Int.le_refl 0)
  rwa [show ((2 ^ (-0 : Int).toNat : Nat) : Int) = 1 from rfl, Int.mul_one] at h

theorem Holds.exists_view (h : x.Holds n) : ∃ s m e, x.view = .finite s m e := by
  obtain ⟨-, h⟩ := h
  unfold truncate? at h
  split at h
  · next s m e hx => exact ⟨s, m, e, hx⟩
  · cases h

/-- The last place of a small integer is no larger than one. -/
theorem Holds.exponent_le (h : x.Holds n) (hlt : n.natAbs < 2 ^ 53) (hx : x.view = .finite s m e) :
    e ≤ 0 := by
  rcases (of_view hx).1 with ⟨-, rfl⟩ | hlegal
  · decide
  refine Int.not_lt.1 fun he => ?_
  have hhidden := hlegal.hidden (by omega)
  have htruncate := h.2
  unfold truncate? at htruncate
  rw [hx] at htruncate
  simp only [Int.le_of_lt he, if_true, Option.some.injEq] at htruncate
  have habs : n.natAbs = m * 2 ^ e.toNat := by
    have hpow : Nat.pow 2 e.toNat = 2 ^ e.toNat := rfl
    rw [← htruncate, hpow]
    split <;> omega
  have hpow : 2 ^ 1 ≤ 2 ^ e.toNat := Nat.pow_le_pow_right (by decide) (by omega)
  have hlarge : 2 ^ 52 * 2 ^ 1 ≤ m * 2 ^ e.toNat := Nat.mul_le_mul hhidden hpow
  omega

/-- The sum of a small integer and an integer is exact if it is small. -/
theorem Holds.add (hx : x.Holds n) (hy : y.Holds k) (hn : n.natAbs < 2 ^ 53)
    (hsum : (n + k).natAbs < 2 ^ 53) : (x.add y).Holds (n + k) := by
  obtain ⟨s, m, e, hview⟩ := hx.exists_view
  obtain ⟨s', m', e', hview'⟩ := hy.exists_view
  have hu : min e e' ≤ 0 := Int.le_trans (Int.min_le_left ..) (hx.exponent_le hn hview)
  unfold Double.add
  rw [hview, hview']
  simp only
  rw [hx.units hview (Int.min_le_left ..) hu, hy.units hview' (Int.min_le_right ..) hu, ← Int.add_mul]
  exact holds_ofScaled _ hsum hu

end Double

/-- A number that is a small integer is an integer as a value. -/
theorem Json.ofDouble_of_holds {x : Double} {n : Int} (hx : x.Holds n) (hlt : n.natAbs < 2 ^ 53) :
    Json.ofDouble x = .num (.int n) := by
  have hsmall : x.smallInt? = some n := by
    unfold Double.smallInt?
    rw [if_pos hx.1, hx.2]
    have hbound : n.natAbs < Nat.pow 2 63 := Nat.lt_trans hlt (by decide)
    simp [hbound]
  unfold Json.ofDouble
  rw [hsmall]

end BlockEngine
