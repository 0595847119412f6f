import Mathlib.Algebra.Group.Nat.Defs
import BlockEngine.Double

/-!
# What rounds to a double

Ratios of natural numbers are rational numbers here, and distances are counted in quarters of the
last place of a double.

* `Double.Legal` : the mantissas and exponents of the positive finite doubles;
* `Double.Near` : the numbers that round to a double;
* `Double.lastPlace_spec`, `Double.roundDiv_eq` : where a ratio is rounded, and to what;
* `Double.nearest_of_near` : a ratio near a double is rounded to it.
-/

namespace BlockEngine

/-! ## Powers -/

section Powers

variable {b : Rat} {i j : Int}

theorem one_le_pow (hb : 1 ≤ b) (n : Nat) : 1 ≤ b ^ n := by
  induction n with
  | zero => simp
  | succ n ih =>
    rw [Rat.pow_succ]
    have h := Rat.mul_le_mul_of_nonneg_left hb (c := b ^ n) (by grind)
    grind

theorem zpow_le_zpow (hb : 1 ≤ b) (h : i ≤ j) : b ^ i ≤ b ^ j := by
  obtain ⟨n, rfl⟩ : ∃ n : Nat, j = i + n := ⟨(j - i).toNat, by omega⟩
  have hpos : 0 < b ^ i := Rat.zpow_pos (by grind)
  rw [Rat.zpow_add (by grind), Rat.zpow_natCast]
  have h := Rat.mul_le_mul_of_nonneg_left (one_le_pow hb n) (Rat.le_of_lt hpos)
  grind

theorem lt_of_zpow_lt (hb : 1 ≤ b) (h : b ^ i < b ^ j) : i < j := by
  refine Int.lt_of_not_ge fun hle => ?_
  have := zpow_le_zpow hb hle
  grind

end Powers

namespace Double

theorem two_zpow_pos (e : Int) : 0 < (2 : Rat) ^ e := Rat.zpow_pos (by decide)

theorem two_zpow_add (e e' : Int) : (2 : Rat) ^ (e + e') = 2 ^ e * 2 ^ e' :=
  Rat.zpow_add (by decide) e e'

theorem two_zpow_natCast (n : Nat) : ((2 ^ n : Nat) : Rat) = (2 : Rat) ^ (n : Int) :=
  Rat.natCast_pow 2 n

theorem two_zpow_toNat {e : Int} (he : 0 ≤ e) : ((2 ^ e.toNat : Nat) : Rat) = (2 : Rat) ^ e := by
  rw [two_zpow_natCast, Int.toNat_of_nonneg he]

theorem two_zpow_log2_le {n : Nat} (hn : 0 < n) : (2 : Rat) ^ (n.log2 : Int) ≤ n := by
  rw [← two_zpow_natCast]
  exact Rat.natCast_le_natCast.2 (Nat.log2_self_le (Nat.ne_of_gt hn))

theorem lt_two_zpow_log2 (n : Nat) : (n : Rat) < 2 ^ ((n.log2 : Int) + 1) := by
  have h := two_zpow_natCast (n.log2 + 1)
  rw [Int.natCast_add] at h
  exact h ▸ Rat.natCast_lt_natCast.2 Nat.lt_log2_self

/-! ## Ratios -/

theorem scale_snd_pos (num : Nat) {den : Nat} (hd : 0 < den) (e : Int) :
    0 < (scale num den e).2 := by
  unfold scale
  split
  · exact Nat.mul_pos hd (Nat.pow_pos (by decide))
  · exact hd

theorem scale_fst_pos {num : Nat} (hn : 0 < num) (den : Nat) (e : Int) :
    0 < (scale num den e).1 := by
  unfold scale
  split
  · exact hn
  · exact Nat.mul_pos hn (Nat.pow_pos (by decide))

/-- Scaling divides the ratio by the power of two. -/
theorem scale_div (num : Nat) {den : Nat} (hd : 0 < den) (e : Int) :
    ((scale num den e).1 : Rat) / (scale num den e).2 * 2 ^ e = (num : Rat) / den := by
  have hden : (den : Rat) ≠ 0 := by exact_mod_cast Nat.ne_of_gt hd
  have hpos := two_zpow_pos e
  unfold scale
  split
  · next he =>
    have hpow : ((Nat.pow 2 e.toNat : Nat) : Rat) = (2 : Rat) ^ e := two_zpow_toNat he
    simp only [Rat.natCast_mul, hpow]
    grind
  · next he =>
    have hpow : ((Nat.pow 2 (-e).toNat : Nat) : Rat) = (2 : Rat) ^ (-e) := two_zpow_toNat (by omega)
    have hinv : (2 : Rat) ^ (-e) * 2 ^ e = 1 := by
      rw [← two_zpow_add, Int.add_left_neg, Rat.zpow_zero]
    simp only [Rat.natCast_mul, hpow]
    grind

theorem le_ratio_iff {a num den : Nat} (hd : 0 < den) :
    (a : Rat) ≤ (num : Rat) / den ↔ a * den ≤ num := by
  have hden : (0 : Rat) < den := by exact_mod_cast hd
  have hmul := Rat.div_mul_cancel (a := (num : Rat)) (Rat.ne_of_gt hden)
  rw [← Rat.natCast_le_natCast, Rat.natCast_mul]
  generalize (num : Rat) / den = r at *
  constructor
  · intro h
    have := Rat.mul_le_mul_of_nonneg_right h (Rat.le_of_lt hden)
    grind
  · intro h
    exact Rat.le_of_mul_le_mul_right (by rwa [hmul]) hden

theorem ratio_lt_iff {a num den : Nat} (hd : 0 < den) :
    (num : Rat) / den < a ↔ num < a * den := by
  rw [← Rat.not_le, le_ratio_iff hd, Nat.not_le]

/-- The last place is where the binary expansion of the ratio puts it, but no lower than that of
the least doubles. -/
theorem lastPlace_spec {num den : Nat} (hn : 0 < num) (hd : 0 < den) :
    ∃ k : Int, lastPlace num den = max k (-1074) ∧
      (2 : Rat) ^ (k + 52) ≤ (num : Rat) / den ∧ (num : Rat) / den < 2 ^ (k + 53) := by
  have hden : (0 : Rat) < den := by exact_mod_cast hd
  have hmul := Rat.div_mul_cancel (a := (num : Rat)) (Rat.ne_of_gt hden)
  generalize hl : (Nat.log2 num : Int) - (Nat.log2 den : Int) - 52 = l
  have hlow : (2 : Rat) ^ (l + 51) ≤ (num : Rat) / den := by
    have hnum := two_zpow_log2_le hn
    have hdenlt := lt_two_zpow_log2 den
    refine Rat.le_of_mul_le_mul_right ?_ hden
    rw [hmul]
    have hsplit : (2 : Rat) ^ (Nat.log2 num : Int) =
        2 ^ (l + 51) * 2 ^ ((Nat.log2 den : Int) + 1) := by
      rw [← two_zpow_add]
      congr 1
      omega
    have h := Rat.mul_le_mul_of_nonneg_left (Rat.le_of_lt hdenlt)
      (Rat.le_of_lt (two_zpow_pos (l + 51)))
    grind
  have hhigh : (num : Rat) / den < 2 ^ (l + 53) := by
    have hnum := lt_two_zpow_log2 num
    have hdenle := two_zpow_log2_le hd
    refine (Rat.mul_lt_mul_right hden).1 ?_
    rw [hmul]
    have hsplit : (2 : Rat) ^ ((Nat.log2 num : Int) + 1) =
        2 ^ (l + 53) * 2 ^ (Nat.log2 den : Int) := by
      rw [← two_zpow_add]
      congr 1
      omega
    have h := Rat.mul_le_mul_of_nonneg_left hdenle (Rat.le_of_lt (two_zpow_pos (l + 53)))
    grind
  have hscale := scale_div num hd l
  have hpos := two_zpow_pos l
  have hwhole : (scale num den l).1 / (scale num den l).2 < Nat.pow 2 52 ↔
      (num : Rat) / den < 2 ^ (l + 52) := by
    rw [Nat.div_lt_iff_lt_mul (scale_snd_pos num hd l), ← ratio_lt_iff (scale_snd_pos num hd l),
      ← hscale]
    have hsplit : (2 : Rat) ^ (l + 52) = ((Nat.pow 2 52 : Nat) : Rat) * 2 ^ l := by
      rw [two_zpow_add, Rat.mul_comm]
      rfl
    rw [hsplit, Rat.mul_lt_mul_right hpos]
  have hplace : lastPlace num den =
      max (if (scale num den l).1 / (scale num den l).2 < Nat.pow 2 52 then l - 1 else l)
        (-1074) := by
    subst hl
    rfl
  rw [hplace]
  split
  · next h =>
    refine ⟨l - 1, rfl, ?_, ?_⟩
    · rwa [show l - 1 + 52 = l + 51 by omega]
    · rw [show l - 1 + 53 = l + 52 by omega]
      exact hwhole.1 h
  · next h => exact ⟨l, rfl, Rat.not_lt.1 (mt hwhole.2 h), hhigh⟩

/-- A ratio is rounded to a number no farther than one half, to an even one at a half. -/
theorem roundDiv_eq {num den m : Nat} (hd : 0 < den) (hlow : 2 * (m * den) ≤ 2 * num + den)
    (hhigh : 2 * num ≤ 2 * (m * den) + den)
    (htie : m % 2 = 0 ∨ 2 * (m * den) < 2 * num + den ∧ 2 * num < 2 * (m * den) + den) :
    roundDiv num den = m := by
  unfold roundDiv
  have hr := Nat.mod_lt num hd
  have hq : num = num / den * den + num % den := (Nat.div_add_mod' num den).symm
  generalize num / den = q at *
  generalize num % den = r at *
  subst hq
  have hcases : m < q ∨ m = q ∨ m = q + 1 ∨ q + 2 ≤ m := by omega
  rcases hcases with h | rfl | rfl | h
  · have := Nat.mul_le_mul_right den (show m + 1 ≤ q from h)
    rw [Nat.add_mul] at this
    omega
  · simp only
    split
    · rfl
    · split
      · omega
      · split
        · rfl
        · omega
  · rw [Nat.add_mul] at hlow hhigh htie
    simp only
    split
    · omega
    · split
      · rfl
      · split
        · omega
        · rfl
  · have := Nat.mul_le_mul_right den h
    rw [Nat.add_mul] at this
    omega

/-! ## The ratios that round to a double -/

/-- The mantissas and exponents of the positive finite doubles. -/
structure Legal (m : Nat) (e : Int) : Prop where
  pos : 0 < m
  lt : m < 2 ^ 53
  least : -1074 ≤ e
  greatest : e ≤ 971
  hidden : -1074 < e → 2 ^ 52 ≤ m

/-- How far a double reaches down, in quarters of its last place: half as far at a power of two,
where the doubles below stand closer. -/
def reach (m : Nat) (e : Int) : Nat := if m = 2 ^ 52 ∧ e ≠ -1074 then 1 else 2

theorem reach_le (m : Nat) (e : Int) : 1 ≤ reach m e ∧ reach m e ≤ 2 := by
  unfold reach
  split <;> decide

/-- The numbers that round to `m * 2 ^ e`. The ends do only if the mantissa is even. -/
structure Near (m : Nat) (e : Int) (r : Rat) : Prop where
  low : (4 * m : Rat) - reach m e ≤ r * 2 ^ (2 - e)
  high : r * 2 ^ (2 - e) ≤ 4 * m + 2
  strict : m % 2 = 1 → (4 * m : Rat) - reach m e < r * 2 ^ (2 - e) ∧ r * 2 ^ (2 - e) < 4 * m + 2

theorem roundDiv_eq_of_near {num den m : Nat} (hd : 0 < den)
    (hlow : (4 * m : Rat) - 2 ≤ 4 * ((num : Rat) / den))
    (hhigh : 4 * ((num : Rat) / den) ≤ 4 * m + 2)
    (htie : m % 2 = 0 ∨
      (4 * m : Rat) - 2 < 4 * ((num : Rat) / den) ∧ 4 * ((num : Rat) / den) < 4 * m + 2) :
    roundDiv num den = m := by
  have hden : (0 : Rat) < den := by exact_mod_cast hd
  have hmul := Rat.div_mul_cancel (a := (num : Rat)) (Rat.ne_of_gt hden)
  generalize (num : Rat) / den = x at *
  refine roundDiv_eq hd ?_ ?_ ?_
  · have h := Rat.mul_le_mul_of_nonneg_right hlow (Rat.le_of_lt hden)
    have : (2 * (m * den) : Rat) ≤ 2 * num + den := by grind
    exact_mod_cast this
  · have h := Rat.mul_le_mul_of_nonneg_right hhigh (Rat.le_of_lt hden)
    have : (2 * num : Rat) ≤ 2 * (m * den) + den := by grind
    exact_mod_cast this
  · refine htie.imp id fun ⟨hl, hh⟩ => ⟨?_, ?_⟩
    · have h := Rat.mul_lt_mul_of_pos_right hl hden
      have : (2 * (m * den) : Rat) < 2 * num + den := by grind
      exact_mod_cast this
    · have h := Rat.mul_lt_mul_of_pos_right hh hden
      have : (2 * num : Rat) < 2 * (m * den) + den := by grind
      exact_mod_cast this

section Near

variable {m num den : Nat} {e : Int} {r : Rat}

theorem near_scaled (r : Rat) (e : Int) : r * 2 ^ (2 - e) * 2 ^ (e - 2) = r := by
  rw [Rat.mul_assoc, ← two_zpow_add, show (2 - e) + (e - 2) = 0 by omega, Rat.zpow_zero, Rat.mul_one]

/-- What is near a double is at least half its last place. -/
theorem Near.le (hl : Legal m e) (h : Near m e r) : 2 ^ (e - 1) ≤ r := by
  have hm : (1 : Rat) ≤ m := by exact_mod_cast hl.pos
  have hreach : (reach m e : Rat) ≤ 2 := by exact_mod_cast (reach_le m e).2
  have hlow := h.low
  refine Rat.le_of_mul_le_mul_right ?_ (two_zpow_pos (2 - e))
  rw [← two_zpow_add, show e - 1 + (2 - e) = 1 by omega, Rat.zpow_one]
  grind

theorem Near.pos (hl : Legal m e) (h : Near m e r) : 0 < r :=
  Std.lt_of_lt_of_le (two_zpow_pos (e - 1)) (h.le hl)

/-- What is near a double stays below the next power of two. -/
theorem Near.lt (hl : Legal m e) (h : Near m e r) : r < 2 ^ (e + 53) := by
  have hm : (m : Rat) + 1 ≤ 2 ^ (53 : Int) := by
    have h53 : ((m + 1 : Nat) : Rat) ≤ ((2 ^ 53 : Nat) : Rat) := Rat.natCast_le_natCast.2 hl.lt
    rwa [two_zpow_natCast, Rat.natCast_add] at h53
  have hlt : r * 2 ^ (2 - e) < 2 ^ (e + 53) * 2 ^ (2 - e) := by
    have hsplit : (2 : Rat) ^ (e + 53) * 2 ^ (2 - e) = 4 * 2 ^ (53 : Int) := by
      rw [← two_zpow_add, show e + 53 + (2 - e) = 2 + 53 by omega, two_zpow_add]
      rfl
    have hhigh := h.high
    grind
  exact (Rat.mul_lt_mul_right (two_zpow_pos _)).1 hlt

/-- Near a double but below its power of two: the double is that power of two. -/
theorem Near.eq_of_lt (hl : Legal m e) (h : Near m e r) (he : -1074 < e)
    (hr : r < 2 ^ (e + 52)) : m = 2 ^ 52 := by
  have hlt : r * 2 ^ (2 - e) < 2 ^ (54 : Int) := by
    have hmul := Rat.mul_lt_mul_of_pos_right hr (two_zpow_pos (2 - e))
    rwa [← two_zpow_add, show e + 52 + (2 - e) = 54 by omega] at hmul
  have hreach : (reach m e : Rat) ≤ 2 := by exact_mod_cast (reach_le m e).2
  have hlow := h.low
  have hm : 4 * m < 2 ^ 54 + 2 := by
    rw [← Rat.natCast_lt_natCast, Rat.natCast_add, two_zpow_natCast, Rat.natCast_mul]
    grind
  have := hl.hidden he
  omega

theorem nearestMagnitude_of_lastPlace {n : Nat} {e' : Int} (hnum : num ≠ 0)
    (hplace : lastPlace num den = e')
    (hround : roundDiv (scale num den e').1 (scale num den e').2 = n)
    (hle : (e' + 1074).toNat * 2 ^ 52 + n ≤ infinityMagnitude) :
    nearestMagnitude num den = (e' + 1074).toNat * 2 ^ 52 + n := by
  unfold nearestMagnitude
  rw [if_neg hnum]
  simp only
  rw [hplace, hround]
  exact Nat.min_eq_left hle

/-- The quotient by the last place, in quarters of `2 ^ e`. -/
theorem scaled_quarters (num : Nat) (hd : 0 < den) (e e' : Int) :
    (num : Rat) / den * 2 ^ (2 - e) =
      ((scale num den e').1 : Rat) / (scale num den e').2 * 2 ^ (e' + 2 - e) := by
  rw [← scale_div num hd e', Rat.mul_assoc, ← two_zpow_add, show e' + (2 - e) = e' + 2 - e by omega]

/-- The double nearest to a ratio near it. -/
theorem nearestMagnitude_of_near (hl : Legal m e) (hd : 0 < den)
    (h : Near m e ((num : Rat) / den)) :
    nearestMagnitude num den = (e + 1074).toNat * 2 ^ 52 + m := by
  have hmin := hl.least
  have hmax := hl.greatest
  have hlt := hl.lt
  have hinf : infinityMagnitude = 2047 * 2 ^ 52 := rfl
  have hnum : num ≠ 0 := by
    rintro rfl
    have := h.pos hl
    grind
  obtain ⟨k, hplace, hlow, hhigh⟩ := lastPlace_spec (Nat.pos_of_ne_zero hnum) hd
  have hke : k ≤ e := by
    have := lt_of_zpow_lt (b := 2) (by decide) (Std.lt_of_le_of_lt hlow (h.lt hl))
    omega
  by_cases hcase : e = -1074 ∨ (2 : Rat) ^ (e + 52) ≤ (num : Rat) / den
  · have hek : max k (-1074) = e := by
      rcases hcase with rfl | hcase
      · omega
      · have := lt_of_zpow_lt (b := 2) (by decide) (Std.lt_of_le_of_lt hcase hhigh)
        omega
    refine nearestMagnitude_of_lastPlace hnum (hplace.trans hek) ?_ (by omega)
    have hreach : (reach m e : Rat) ≤ 2 := by exact_mod_cast (reach_le m e).2
    obtain ⟨hlow, hhigh, hstrict⟩ := h
    rw [scaled_quarters num hd e e, show e + 2 - e = 2 by omega] at hlow hhigh hstrict
    have hfour : (2 : Rat) ^ (2 : Int) = 4 := rfl
    refine roundDiv_eq_of_near (scale_snd_pos num hd e) (by grind) (by grind) ?_
    rcases Nat.mod_two_eq_zero_or_one m with heven | hodd
    · exact .inl heven
    · have := hstrict hodd
      exact .inr (by grind)
  · -- below its power of two the numbers stand twice as close
    obtain ⟨hne, hbelow⟩ := not_or.1 hcase
    have hbelow := Rat.not_le.1 hbelow
    obtain rfl := h.eq_of_lt hl (by omega) hbelow
    have hreach : (reach (2 ^ 52) e : Rat) = 1 := by
      rw [reach, if_pos ⟨rfl, hne⟩]
      rfl
    have hquarters := h.low
    rw [hreach] at hquarters
    have hcast : ((2 ^ 52 : Nat) : Rat) = 2 ^ (52 : Int) := two_zpow_natCast 52
    have hbelow' : (num : Rat) / den * 2 ^ (2 - e) < 4 * 2 ^ (52 : Int) := by
      have hmul := Rat.mul_lt_mul_of_pos_right hbelow (two_zpow_pos (2 - e))
      rwa [← two_zpow_add, show e + 52 + (2 - e) = 2 + 52 by omega, two_zpow_add] at hmul
    have hek : k = e - 1 := by
      have hhalf : (2 : Rat) ^ (e + 51) ≤ (num : Rat) / den := by
        refine Rat.le_of_mul_le_mul_right ?_ (two_zpow_pos (2 - e))
        rw [← two_zpow_add, show e + 51 + (2 - e) = 1 + 52 by omega, two_zpow_add]
        have hone : (1 : Rat) ≤ 2 ^ (52 : Int) := by decide
        have htwo : (2 : Rat) ^ (1 : Int) = 2 := rfl
        grind
      have habove := lt_of_zpow_lt (b := 2) (by decide) (Std.lt_of_le_of_lt hhalf hhigh)
      have hunder := lt_of_zpow_lt (b := 2) (by decide) (Std.lt_of_le_of_lt hlow hbelow)
      omega
    have hplace' : lastPlace num den = e - 1 := by omega
    rw [scaled_quarters num hd e (e - 1), show e - 1 + 2 - e = 1 by omega, Rat.zpow_one]
      at hquarters hbelow'
    have hround : roundDiv (scale num den (e - 1)).1 (scale num den (e - 1)).2 = 2 ^ 53 := by
      have hcast' : ((2 ^ 53 : Nat) : Rat) = 2 * 2 ^ (52 : Int) := by
        rw [two_zpow_natCast]
        exact two_zpow_add 1 52
      exact roundDiv_eq_of_near (scale_snd_pos num hd (e - 1)) (by grind) (by grind) (.inl rfl)
    rw [nearestMagnitude_of_lastPlace hnum hplace' hround (by omega)]
    omega

end Near

/-! ## Words -/

/-- A finite double by its parts: they are those of zero or legal, and they make up its word. -/
theorem of_view {x : Double} {s : Bool} {m : Nat} {e : Int} (h : x.view = .finite s m e) :
    (m = 0 ∧ e = -1074 ∨ Legal m e) ∧ x = ofMagnitude s ((e + 1074).toNat * 2 ^ 52 + m) := by
  have hbits := x.bits.toNat_lt
  have hword : ∀ n, (if x.isNegative then 2 ^ 63 else 0) + n = x.bits.toNat →
      x = ofMagnitude x.isNegative n := by
    intro n hn
    unfold ofMagnitude
    have hn' : (if x.isNegative then Nat.pow 2 63 else 0) + n = x.bits.toNat := hn
    rw [hn', UInt64.ofNat_toNat]
  have hnegative : (if x.isNegative then 2 ^ 63 else 0) = x.bits.toNat / 2 ^ 63 * 2 ^ 63 := by
    unfold isNegative
    have : Nat.pow 2 63 = 2 ^ 63 := rfl
    simp only [decide_eq_true_eq]
    split <;> omega
  have hfield : x.exponentField = x.bits.toNat / 2 ^ 52 % 2 ^ 11 := rfl
  have hfraction : x.fractionField = x.bits.toNat % 2 ^ 52 := rfl
  unfold view at h
  split at h
  · split at h <;> cases h
  · split at h
    · obtain ⟨rfl, rfl, rfl⟩ := View.finite.inj h
      refine ⟨?_, hword _ ?_⟩
      · rcases Nat.eq_zero_or_pos x.fractionField with hzero | hpos
        · exact .inl ⟨hzero, rfl⟩
        · exact .inr ⟨hpos, by omega, by omega, by omega, by omega⟩
      · rw [Int.add_left_neg, Int.toNat_zero]
        omega
    · obtain ⟨rfl, rfl, rfl⟩ := View.finite.inj h
      have hpow : Nat.pow 2 52 = 2 ^ 52 := rfl
      exact ⟨.inr ⟨by omega, by omega, by omega, by omega, by omega⟩, hword _ (by omega)⟩

theorem exists_view_of_isFinite {x : Double} (h : x.isFinite = true) :
    ∃ s m e, x.view = .finite s m e := by
  have hfield : x.exponentField ≠ 2047 := of_decide_eq_true h
  unfold view
  rw [if_neg hfield]
  split <;> exact ⟨_, _, _, rfl⟩

/-- A ratio near a double is rounded to it. -/
theorem nearest_of_near {x : Double} {s : Bool} {m num den : Nat} {e : Int}
    (hx : x.view = .finite s m e) (hm : m ≠ 0) (hd : 0 < den)
    (h : Near m e ((num : Rat) / den)) : nearest s num den = x := by
  obtain ⟨hlegal, hword⟩ := of_view hx
  rw [nearest, nearestMagnitude_of_near (hlegal.resolve_left fun h => hm h.1) hd h]
  exact hword.symm

end Double
end BlockEngine
