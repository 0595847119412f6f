import BlockEngine.Double.Decimal
import BlockEngine.Proofs.Rounding

/-!
# The shortest digits of a double read back

* `Double.contains_iff` : the neighbourhood of a double holds the decimals that round to it;
* `Double.le_of_onGrid_eq_none` : only a grid wider than the neighbourhood can miss it;
* `Double.shortest_near` : so seventeen digits are enough, and the shortest digits round to the
  double;
* `Double.ofDecimal_of_near` : a decimal near a double is read as it.
-/

namespace BlockEngine

/-! ## Digits -/

theorem lt_pow_digitCount (n : Nat) : n < 10 ^ digitCount n := by
  induction n using digitCount.induct with
  | case1 => simp [digitCount]
  | case2 n hn ih =>
    rw [digitCount, if_neg hn, Nat.pow_succ]
    omega

theorem pow_digitCount_le {n : Nat} (hn : n ≠ 0) : 10 ^ (digitCount n - 1) ≤ n := by
  induction n using digitCount.induct with
  | case1 => exact absurd rfl hn
  | case2 n hn ih =>
    rw [digitCount, if_neg hn, Nat.add_sub_cancel]
    by_cases h : n / 10 = 0
    · rw [h, digitCount, if_pos rfl]
      omega
    · have hcount : digitCount (n / 10) = digitCount (n / 10) - 1 + 1 := by
        rw [digitCount, if_neg h]
        rfl
      have := ih h
      rw [hcount, Nat.pow_succ]
      omega

theorem digitCount_pos {n : Nat} (hn : n ≠ 0) : 0 < digitCount n := by
  rw [digitCount, if_neg hn]
  exact Nat.succ_pos _

namespace Double

theorem ten_zpow_pos (p : Int) : 0 < (10 : Rat) ^ p := Rat.zpow_pos (by decide)

theorem ten_zpow_add (p p' : Int) : (10 : Rat) ^ (p + p') = 10 ^ p * 10 ^ p' :=
  Rat.zpow_add (by decide) p p'

theorem ten_zpow_natCast (n : Nat) : ((10 ^ n : Nat) : Rat) = (10 : Rat) ^ (n : Int) :=
  Rat.natCast_pow 10 n

theorem two_zpow_le_ten_zpow {i j : Nat} (h : 2 ^ i ≤ 10 ^ j) :
    (2 : Rat) ^ (i : Int) ≤ 10 ^ (j : Int) := by
  rw [← two_zpow_natCast, ← ten_zpow_natCast]
  exact Rat.natCast_le_natCast.2 h

theorem ten_zpow_split (p : Int) : (10 : Rat) ^ p * ((10 ^ (-p).toNat : Nat) : Rat) =
    ((10 ^ p.toNat : Nat) : Rat) := by
  rw [ten_zpow_natCast, ten_zpow_natCast, ← ten_zpow_add]
  congr 1
  omega

/-! ## Neighbourhoods -/

section Neighbourhood

variable {m : Nat} {e : Int}

theorem neighbourhood_den_pos (m : Nat) (e : Int) : 0 < (neighbourhood m e).den :=
  scale_snd_pos 1 (by decide) _

/-- The unit of a neighbourhood is a quarter of the last place. -/
theorem scale_one_div (e : Int) :
    ((scale 1 1 (-(e - 2))).1 : Rat) / (scale 1 1 (-(e - 2))).2 = 2 ^ (e - 2) := by
  have h := scale_div 1 (show 0 < 1 by decide) (-(e - 2))
  have hinv : (2 : Rat) ^ (-(e - 2)) * 2 ^ (e - 2) = 1 := by
    rw [← two_zpow_add, Int.add_left_neg, Rat.zpow_zero]
  have hone : ((1 : Nat) : Rat) / (1 : Nat) = 1 := by grind
  rw [hone] at h
  generalize ((scale 1 1 (-(e - 2))).1 : Rat) / (scale 1 1 (-(e - 2))).2 = x at *
  have hpos := two_zpow_pos (-(e - 2))
  grind

theorem neighbourhood_low (hm : 0 < m) (e : Int) :
    ((neighbourhood m e).low : Rat) / (neighbourhood m e).den =
      ((4 * m : Rat) - reach m e) * 2 ^ (e - 2) := by
  have hunit := scale_one_div e
  have hreach := reach_le m e
  have hlow : (neighbourhood m e).low = (4 * m - reach m e) * (scale 1 1 (-(e - 2))).1 := by
    unfold neighbourhood reach
    have hpow : Nat.pow 2 52 = 2 ^ 52 := rfl
    simp only [hpow, Bool.and_eq_true, decide_eq_true_eq]
  have hden : (neighbourhood m e).den = (scale 1 1 (-(e - 2))).2 := rfl
  have hsub : ((4 * m - reach m e : Nat) : Rat) + reach m e = 4 * m := by
    exact_mod_cast Nat.sub_add_cancel (show reach m e ≤ 4 * m by omega)
  rw [hlow, hden, Rat.natCast_mul, ← hunit]
  grind

theorem neighbourhood_high (m : Nat) (e : Int) :
    ((neighbourhood m e).high : Rat) / (neighbourhood m e).den =
      ((4 * m : Rat) + 2) * 2 ^ (e - 2) := by
  have hunit := scale_one_div e
  have hhigh : (neighbourhood m e).high = (4 * m + 2) * (scale 1 1 (-(e - 2))).1 := rfl
  have hden : (neighbourhood m e).den = (scale 1 1 (-(e - 2))).2 := rfl
  rw [hhigh, hden, Rat.natCast_mul, ← hunit]
  grind

theorem neighbourhood_value (m : Nat) (e : Int) :
    ((neighbourhood m e).value : Rat) / (neighbourhood m e).den = 4 * m * 2 ^ (e - 2) := by
  have hunit := scale_one_div e
  have hvalue : (neighbourhood m e).value = 4 * m * (scale 1 1 (-(e - 2))).1 := rfl
  have hden : (neighbourhood m e).den = (scale 1 1 (-(e - 2))).2 := rfl
  rw [hvalue, hden, Rat.natCast_mul, ← hunit]
  grind

/-- A ratio and a point of the grid of multiples of `10 ^ p`, times what makes both whole. -/
theorem exists_whole (a : Nat) {den : Nat} (hd : 0 < den) (n : Nat) (p : Int) :
    ∃ c : Rat, 0 < c ∧ (a : Rat) / den * c = ((a * 10 ^ (-p).toNat : Nat) : Rat) ∧
      n * 10 ^ p * c = ((n * 10 ^ p.toNat * den : Nat) : Rat) := by
  have hden : (0 : Rat) < den := by exact_mod_cast hd
  have hunit : (0 : Rat) < ((10 ^ (-p).toNat : Nat) : Rat) :=
    Rat.natCast_lt_natCast.2 (Nat.pow_pos (by decide))
  have hmul := Rat.div_mul_cancel (a := (a : Rat)) (Rat.ne_of_gt hden)
  have hsplit := ten_zpow_split p
  refine ⟨den * ((10 ^ (-p).toNat : Nat) : Rat), Rat.mul_pos hden hunit, ?_, ?_⟩
  · rw [Rat.natCast_mul, ← Rat.mul_assoc, hmul]
  · rw [Rat.natCast_mul, Rat.natCast_mul, ← hsplit]
    generalize ((10 ^ (-p).toNat : Nat) : Rat) = u
    grind

theorem ratio_le_grid_iff {a den : Nat} (hd : 0 < den) (n : Nat) (p : Int) :
    (a : Rat) / den ≤ n * 10 ^ p ↔ a * 10 ^ (-p).toNat ≤ n * 10 ^ p.toNat * den := by
  obtain ⟨c, hc, hratio, hgrid⟩ := exists_whole a hd n p
  rw [← Rat.natCast_le_natCast, ← hratio, ← hgrid]
  exact ⟨fun h => Rat.mul_le_mul_of_nonneg_right h (Rat.le_of_lt hc),
    fun h => Rat.le_of_mul_le_mul_right h hc⟩

theorem grid_le_ratio_iff {a den : Nat} (hd : 0 < den) (n : Nat) (p : Int) :
    n * 10 ^ p ≤ (a : Rat) / den ↔ n * 10 ^ p.toNat * den ≤ a * 10 ^ (-p).toNat := by
  obtain ⟨c, hc, hratio, hgrid⟩ := exists_whole a hd n p
  rw [← Rat.natCast_le_natCast, ← hratio, ← hgrid]
  exact ⟨fun h => Rat.mul_le_mul_of_nonneg_right h (Rat.le_of_lt hc),
    fun h => Rat.le_of_mul_le_mul_right h hc⟩

/-- The neighbourhood of a double holds the decimals that round to it. -/
theorem contains_iff (hm : 0 < m) (n : Nat) (p : Int) :
    (neighbourhood m e).contains n p = true ↔ Near m e (n * 10 ^ p) := by
  have hd := neighbourhood_den_pos m e
  have hlow := ratio_le_grid_iff (a := (neighbourhood m e).low) hd n p
  have hlow' := grid_le_ratio_iff (a := (neighbourhood m e).low) hd n p
  have hhigh := grid_le_ratio_iff (a := (neighbourhood m e).high) hd n p
  have hhigh' := ratio_le_grid_iff (a := (neighbourhood m e).high) hd n p
  rw [neighbourhood_low hm] at hlow hlow'
  rw [neighbourhood_high] at hhigh hhigh'
  have hclosed : (neighbourhood m e).closed = decide (m % 2 = 0) := rfl
  have hpow : ∀ k, Nat.pow 10 k = 10 ^ k := fun _ => rfl
  have hquarters : ∀ a : Rat, (a * 2 ^ (e - 2) ≤ n * 10 ^ p ↔ a ≤ n * 10 ^ p * 2 ^ (2 - e)) ∧
      (n * 10 ^ p ≤ a * 2 ^ (e - 2) ↔ n * 10 ^ p * 2 ^ (2 - e) ≤ a) := by
    intro a
    have hscaled := near_scaled (n * 10 ^ p) e
    have hpos := two_zpow_pos (e - 2)
    generalize (n : Rat) * 10 ^ p * 2 ^ (2 - e) = y at *
    rw [← hscaled]
    exact ⟨⟨fun h => Rat.le_of_mul_le_mul_right h hpos,
        fun h => Rat.mul_le_mul_of_nonneg_right h (Rat.le_of_lt hpos)⟩,
      ⟨fun h => Rat.le_of_mul_le_mul_right h hpos,
        fun h => Rat.mul_le_mul_of_nonneg_right h (Rat.le_of_lt hpos)⟩⟩
  rw [(hquarters _).1] at hlow hhigh'
  rw [(hquarters _).2] at hlow' hhigh
  unfold Neighbourhood.contains
  simp only [hclosed, hpow, decide_eq_true_eq]
  split
  · next heven =>
    simp only [Bool.and_eq_true, decide_eq_true_eq, ← hlow, ← hhigh]
    exact ⟨fun ⟨hl, hh⟩ => ⟨hl, hh, fun hodd => by omega⟩, fun h => ⟨h.low, h.high⟩⟩
  · next hodd =>
    have hodd : m % 2 = 1 := by omega
    simp only [Bool.and_eq_true, decide_eq_true_eq, ← Nat.not_le, ← hlow', ← hhigh', Rat.not_le]
    exact ⟨fun ⟨hl, hh⟩ => ⟨Rat.le_of_lt hl, Rat.le_of_lt hh, fun _ => ⟨hl, hh⟩⟩,
      fun h => h.strict hodd⟩

/-! ## The search -/

theorem contains_of_onGrid {b : Neighbourhood} {p : Int} {n : Nat} (h : b.onGrid p = some n) :
    b.contains n p = true := by
  unfold Neighbourhood.onGrid at h
  simp only at h
  split at h
  · next hn hn' =>
    split at h
    · exact Option.some.inj h ▸ hn
    · split at h
      · exact Option.some.inj h ▸ hn'
      · split at h
        · exact Option.some.inj h ▸ hn
        · exact Option.some.inj h ▸ hn'
  · next hn _ => exact Option.some.inj h ▸ hn
  · next _ hn' => exact Option.some.inj h ▸ hn'
  · cases h

theorem contains_of_onGrid_eq_none {b : Neighbourhood} {p : Int} (h : b.onGrid p = none) :
    let n := b.value * 10 ^ (-p).toNat / (b.den * 10 ^ p.toNat)
    b.contains n p = false ∧ b.contains (n + 1) p = false := by
  unfold Neighbourhood.onGrid at h
  simp only at h
  split at h
  · split at h
    · cases h
    · split at h
      · cases h
      · split at h <;> cases h
  · cases h
  · cases h
  · next hn hn' => exact ⟨hn, hn'⟩

/-- The value lies between two neighbours on the grid. -/
theorem value_between (m : Nat) (e p : Int) :
    let b := neighbourhood m e
    let n := b.value * 10 ^ (-p).toNat / (b.den * 10 ^ p.toNat)
    (n : Rat) * 10 ^ p ≤ 4 * m * 2 ^ (e - 2) ∧
      4 * m * 2 ^ (e - 2) < ((n + 1 : Nat) : Rat) * 10 ^ p := by
  intro b n
  have hd : 0 < b.den := neighbourhood_den_pos m e
  have hden : 0 < b.den * 10 ^ p.toNat := Nat.mul_pos hd (Nat.pow_pos (by decide))
  rw [← neighbourhood_value, ← Rat.not_le, grid_le_ratio_iff hd, grid_le_ratio_iff hd,
    Nat.mul_assoc, Nat.mul_assoc, Nat.mul_comm _ b.den]
  exact ⟨Nat.div_mul_le_self _ _, Nat.not_le.2 ((Nat.div_lt_iff_lt_mul hden).1 (Nat.lt_succ_self _))⟩

/-- Where the neighbourhood leaves out the points of the grid on both sides of the value, the grid
is as wide as the neighbourhood. -/
theorem le_of_onGrid_eq_none (hm : 0 < m) {p : Int} (h : (neighbourhood m e).onGrid p = none) :
    (2 + reach m e : Rat) * 2 ^ (e - 2) ≤ 10 ^ p := by
  obtain ⟨hbelow, habove⟩ := contains_of_onGrid_eq_none h
  obtain ⟨hle, hlt⟩ := value_between m e p
  generalize (neighbourhood m e).value * 10 ^ (-p).toNat /
    ((neighbourhood m e).den * 10 ^ p.toNat) = n at *
  rw [← Bool.not_eq_true, contains_iff hm] at hbelow habove
  have hreach : (1 : Rat) ≤ reach m e := by exact_mod_cast (reach_le m e).1
  have hpos := two_zpow_pos (e - 2)
  have hscaled := near_scaled (n * 10 ^ p) e
  have hscaled' := near_scaled (((n + 1 : Nat) : Rat) * 10 ^ p) e
  have hlow : (n : Rat) * 10 ^ p * 2 ^ (2 - e) ≤ 4 * m - reach m e := by
    refine Rat.not_lt.1 fun hlow => hbelow ?_
    have hhigh : (n : Rat) * 10 ^ p * 2 ^ (2 - e) ≤ 4 * m :=
      Rat.le_of_mul_le_mul_right (hscaled.symm ▸ hle) hpos
    exact ⟨Rat.le_of_lt hlow, by grind, fun _ => ⟨hlow, by grind⟩⟩
  have hhigh : (4 * m : Rat) + 2 ≤ ((n + 1 : Nat) : Rat) * 10 ^ p * 2 ^ (2 - e) := by
    refine Rat.not_lt.1 fun hhigh => habove ?_
    have hlow : (4 * m : Rat) < ((n + 1 : Nat) : Rat) * 10 ^ p * 2 ^ (2 - e) :=
      (Rat.mul_lt_mul_right hpos).1 (hscaled'.symm ▸ hlt)
    exact ⟨by grind, Rat.le_of_lt hhigh, fun _ => ⟨by grind, hhigh⟩⟩
  have hstep : (2 + reach m e : Rat) ≤ 10 ^ p * 2 ^ (2 - e) := by
    rw [Rat.natCast_add] at hhigh
    grind
  have := Rat.mul_le_mul_of_nonneg_right hstep (Rat.le_of_lt hpos)
  rwa [near_scaled] at this

theorem pow_magnitudeOf_le {num den : Nat} (hn : 0 < num) (hd : 0 < den) :
    (10 : Rat) ^ (magnitudeOf num den - 1) ≤ (num : Rat) / den := by
  unfold magnitudeOf
  split
  · next hle =>
    have hq : num / den ≠ 0 := Nat.ne_of_gt (Nat.div_pos hle hd)
    have hcount := digitCount_pos hq
    have hcast : (10 : Rat) ^ ((digitCount (num / den) : Int) - 1) =
        ((10 ^ (digitCount (num / den) - 1) : Nat) : Rat) := by
      rw [ten_zpow_natCast]
      congr 1
      omega
    rw [hcast, le_ratio_iff hd]
    exact Nat.le_trans (Nat.mul_le_mul_right den (pow_digitCount_le hq)) (Nat.div_mul_le_self num den)
  · next hlt =>
    generalize hc : (den + num - 1) / num = c
    have hround : den ≤ c * num := by
      have hdiv := Nat.div_add_mod' (den + num - 1) num
      have hmod := Nat.mod_lt (den + num - 1) hn
      rw [hc] at hdiv
      omega
    have hcount : c ≤ 10 ^ digitCount (c - 1) := by
      have := lt_pow_digitCount (c - 1)
      omega
    have hle : den ≤ 10 ^ digitCount (c - 1) * num :=
      Nat.le_trans hround (Nat.mul_le_mul_right num hcount)
    have hden : (0 : Rat) < den := by exact_mod_cast hd
    have hinv := ten_zpow_add (1 - (digitCount (c - 1) : Int) - 1) (digitCount (c - 1))
    rw [show 1 - (digitCount (c - 1) : Int) - 1 + digitCount (c - 1) = 0 by omega, Rat.zpow_zero,
      ← ten_zpow_natCast] at hinv
    refine Rat.le_of_mul_le_mul_right ?_ hden
    rw [Rat.div_mul_cancel (Rat.ne_of_gt hden)]
    have hle' := Rat.natCast_le_natCast.2 hle
    rw [Rat.natCast_mul] at hle'
    have := Rat.mul_le_mul_of_nonneg_left hle'
      (Rat.le_of_lt (ten_zpow_pos (1 - (digitCount (c - 1) : Int) - 1)))
    rwa [← Rat.mul_assoc, ← hinv, Rat.one_mul] at this

theorem search_of_onGrid {b : Neighbourhood} {count i : Nat} {p : Int} (hi : i < count)
    (h : b.onGrid (p - i) ≠ none) : ∃ n q, b.search count p = (n, q) ∧ b.contains n q = true := by
  induction count generalizing p i with
  | zero => exact absurd hi (Nat.not_lt_zero i)
  | succ count ih =>
    unfold Neighbourhood.search
    cases hgrid : b.onGrid p with
    | some n => exact ⟨n, p, rfl, contains_of_onGrid hgrid⟩
    | none =>
      obtain ⟨i, rfl⟩ : ∃ k, i = k + 1 := by
        refine Nat.exists_eq_add_one.2 (Nat.pos_of_ne_zero ?_)
        rintro rfl
        exact h (by simpa using hgrid)
      refine ih (i := i) (Nat.lt_of_succ_lt_succ hi) ?_
      rwa [show p - 1 - (i : Int) = p - ((i + 1 : Nat) : Int) by omega]

/-- The shortest digits of a double read back: seventeen of them always suffice. -/
theorem shortest_near (hl : Legal m e) :
    Near m e ((shortest m e).1 * 10 ^ (shortest m e).2) := by
  have hm := hl.pos
  have hgrid : (neighbourhood m e).onGrid
      (magnitudeOf (neighbourhood m e).value (neighbourhood m e).den - 1 - (16 : Nat)) ≠ none := by
    intro hnone
    have hwide := le_of_onGrid_eq_none hm hnone
    have hvalue : 0 < (neighbourhood m e).value :=
      Nat.mul_pos (by omega) (scale_fst_pos (by decide) 1 _)
    have hmagnitude := pow_magnitudeOf_le hvalue (neighbourhood_den_pos m e)
    rw [neighbourhood_value] at hmagnitude
    generalize magnitudeOf (neighbourhood m e).value (neighbourhood m e).den - 1 = k at *
    rw [show k = k - (16 : Nat) + 16 by omega, ten_zpow_add] at hmagnitude
    have hunits : (10 : Rat) ^ (16 : Int) * (2 + reach m e) ≤ 4 * m := by
      refine Rat.le_of_mul_le_mul_right ?_ (two_zpow_pos (e - 2))
      have := Rat.mul_le_mul_of_nonneg_left hwide (Rat.le_of_lt (ten_zpow_pos 16))
      grind
    have hunits' : 10 ^ 16 * (2 + reach m e) ≤ 4 * m := by
      rw [← Rat.natCast_le_natCast, Rat.natCast_mul, ten_zpow_natCast, Rat.natCast_add,
        Rat.natCast_mul]
      exact hunits
    have hlt := hl.lt
    unfold reach at hunits'
    split at hunits' <;> omega
  obtain ⟨n, q, hsearch, hcontains⟩ := search_of_onGrid (show 16 < 17 by decide) hgrid
  have hshortest : shortest m e = (n, q) := hsearch
  rw [hshortest]
  exact (contains_iff hm n q).1 hcontains

end Neighbourhood

/-! ## Reading a decimal -/

section Reading

variable {x : Double} {s : Bool} {m d : Nat} {e p : Int}

/-- What is near a double is within the range of exponents that are read at all. -/
theorem exponent_of_near (hl : Legal m e) (h : Near m e (d * 10 ^ p)) :
    d ≠ 0 ∧ -400 ≤ p + digitCount d ∧ p + digitCount d ≤ 400 := by
  have hpos := h.pos hl
  have hd : d ≠ 0 := by
    rintro rfl
    grind
  have hten := ten_zpow_pos p
  have hhigh : (d : Rat) * 10 ^ p < 10 ^ (p + digitCount d) := by
    have hlt := Rat.natCast_lt_natCast.2 (lt_pow_digitCount d)
    rw [ten_zpow_natCast] at hlt
    rw [ten_zpow_add, Rat.mul_comm]
    exact Rat.mul_lt_mul_of_pos_left hlt hten
  have hlow : (10 : Rat) ^ (p + digitCount d - 1) ≤ d * 10 ^ p := by
    have hle := Rat.natCast_le_natCast.2 (pow_digitCount_le hd)
    rw [ten_zpow_natCast] at hle
    have hcount := digitCount_pos hd
    rw [show p + (digitCount d : Int) - 1 = p + ((digitCount d - 1 : Nat) : Int) by omega,
      ten_zpow_add, Rat.mul_comm]
    exact Rat.mul_le_mul_of_nonneg_right hle (Rat.le_of_lt hten)
  have hmin := hl.least
  have hmax := hl.greatest
  refine ⟨hd, Int.not_lt.1 fun hk => ?_, Int.not_lt.1 fun hk => ?_⟩
  · have hleast : (2 : Rat) ^ (-1075 : Int) ≤ d * 10 ^ p :=
      Rat.le_trans (zpow_le_zpow (by decide) (by omega)) (h.le hl)
    have hten : (10 : Rat) ^ (p + digitCount d) ≤ 10 ^ (-401 : Int) :=
      zpow_le_zpow (by decide) (by omega)
    have hlt : (2 : Rat) ^ (-1075 : Int) < 10 ^ (-401 : Int) :=
      Std.lt_of_le_of_lt hleast (Std.lt_of_lt_of_le hhigh hten)
    have hpowers : (2 : Rat) ^ (1075 : Int) ≤ 10 ^ (401 : Int) :=
      two_zpow_le_ten_zpow (i := 1075) (j := 401) (by decide +kernel)
    have htwo' := two_zpow_pos 1075
    have hten' := ten_zpow_pos (-401)
    have hinv : (2 : Rat) ^ (-1075 : Int) * 2 ^ (1075 : Int) = 1 := (two_zpow_add _ _).symm
    have hinv' : (10 : Rat) ^ (-401 : Int) * 10 ^ (401 : Int) = 1 := (ten_zpow_add _ _).symm
    have hone := Rat.mul_lt_mul_of_pos_right hlt htwo'
    have hone' := Rat.mul_le_mul_of_nonneg_left hpowers (Rat.le_of_lt hten')
    grind
  · have hten : (10 : Rat) ^ (400 : Int) ≤ 10 ^ (p + digitCount d - 1) :=
      zpow_le_zpow (by decide) (by omega)
    have htwo : (2 : Rat) ^ (e + 53) ≤ 2 ^ (1024 : Int) := zpow_le_zpow (by decide) (by omega)
    have hlt : (10 : Rat) ^ (400 : Int) < 2 ^ (1024 : Int) :=
      Std.lt_of_le_of_lt (Rat.le_trans hten hlow) (Std.lt_of_lt_of_le (h.lt hl) htwo)
    have hpowers : (2 : Rat) ^ (1024 : Int) ≤ 10 ^ (400 : Int) :=
      two_zpow_le_ten_zpow (i := 1024) (j := 400) (by decide +kernel)
    exact absurd hlt (Rat.not_lt.2 hpowers)

/-- The ratio that a decimal stands for, as it is handed over to be rounded. -/
theorem ratio_of_nonneg (d : Nat) (hp : 0 ≤ p) :
    ((d * Nat.pow 10 p.toNat : Nat) : Rat) / (1 : Nat) = d * 10 ^ p := by
  have hpow : ((Nat.pow 10 p.toNat : Nat) : Rat) = 10 ^ p :=
    (ten_zpow_natCast _).trans (by rw [Int.toNat_of_nonneg hp])
  rw [Rat.natCast_mul, hpow]
  grind

theorem ratio_of_neg (d : Nat) (hp : p < 0) :
    (d : Rat) / ((Nat.pow 10 (-p).toNat : Nat) : Rat) = d * 10 ^ p := by
  have hpow : ((Nat.pow 10 (-p).toNat : Nat) : Rat) = 10 ^ (-p) :=
    (ten_zpow_natCast _).trans (by rw [Int.toNat_of_nonneg (by omega)])
  rw [hpow, Rat.zpow_neg]
  grind

/-- A decimal near a double is read as it. -/
theorem ofDecimal_of_near (hx : x.view = .finite s m e) (hm : m ≠ 0)
    (h : Near m e (d * 10 ^ p)) : ofDecimal s d p = x := by
  have hl := (of_view hx).1.resolve_left fun h => hm h.1
  obtain ⟨hd, hleast, hgreatest⟩ := exponent_of_near hl h
  have hzero : ¬ (decide (d = 0) || decide (p + (digitCount d : Int) < -400)) = true := by
    simp [hd, hleast]
  unfold ofDecimal
  simp only
  rw [if_neg hzero, if_neg (Int.not_lt.2 hgreatest)]
  split
  · next hp => exact nearest_of_near hx hm (by decide) ((ratio_of_nonneg d hp).symm ▸ h)
  · next hp =>
    exact nearest_of_near hx hm (Nat.pow_pos (by decide))
      ((ratio_of_neg d (Int.not_le.1 hp)).symm ▸ h)

end Reading

end Double
end BlockEngine
