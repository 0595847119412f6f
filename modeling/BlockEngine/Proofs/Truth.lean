import BlockEngine.Library.Operator
import BlockEngine.Proofs.Emptiness
import BlockEngine.Proofs.Inputs
import BlockEngine.Proofs.Integers
import BlockEngine.Proofs.Interleaving
import BlockEngine.Proofs.NumberText

/-!
# The truth of texts

The truth of a number is whether it differs from zero, and the truth of a text whether it is one of
a few words. Values that are no containers are as true as their texts.

* `Double.isZero_of_view`, `Double.isZero_ofInt` : which doubles are zeros;
* `Number.exists_shown` : which number a number shows as, and when that is the integer zero;
* `isTruthy_of_numeric` : a text of the characters of numbers is false as `0` alone;
* `Json.isTruthy_toText` : a value is as true as its text;
* `Json.truth_of_text` : an input is as true as the text that is read or joined from it.
-/

namespace BlockEngine

/-! ## Zeros -/

namespace Double

variable {x : Double} {s : Bool} {m : Nat} {e : Int}

/-- The zeros are the two words that have nothing but a sign. -/
theorem isZero_ofMagnitude (s : Bool) (hm : m < 2 ^ 63) :
    (ofMagnitude s m).isZero = decide (m = 0) := by
  have hword : ∃ sign, (sign = 0 ∨ sign = 2 ^ 63) ∧ (ofMagnitude s m).bits.toNat = sign + m := by
    cases s
    · exact ⟨0, .inl rfl, UInt64.toNat_ofNat_of_lt' (show 0 + m < 2 ^ 64 by omega)⟩
    · exact ⟨2 ^ 63, .inr rfl, UInt64.toNat_ofNat_of_lt' (show 2 ^ 63 + m < 2 ^ 64 by omega)⟩
  obtain ⟨sign, hsign, hword⟩ := hword
  have h52 : Nat.pow 2 52 = 2 ^ 52 := rfl
  have h11 : Nat.pow 2 11 = 2 ^ 11 := rfl
  unfold isZero exponentField fractionField
  rw [hword, h52, h11, ← Bool.decide_and]
  apply decide_eq_decide.2
  omega

/-- A finite double is a zero if its mantissa is. -/
theorem isZero_of_view (h : x.view = .finite s m e) : x.isZero = decide (m = 0) := by
  obtain ⟨hlegal, rfl⟩ := of_view h
  have hbound : (e + 1074).toNat * 2 ^ 52 + m < 2 ^ 63 := by
    rcases hlegal with ⟨rfl, rfl⟩ | hlegal
    · decide
    · have := hlegal.lt
      have := hlegal.greatest
      omega
  rw [isZero_ofMagnitude s hbound]
  apply decide_eq_decide.2
  -- the zero mantissa is there at the least exponent alone
  rcases hlegal with ⟨rfl, rfl⟩ | hlegal
  · simp
  · have := hlegal.pos
    omega

/-- An integer other than zero is not rounded to a zero. -/
theorem isZero_ofInt (i : Int) : (ofInt i).isZero = decide (i = 0) := by
  by_cases hi : i = 0
  · subst hi
    rfl
  have hplace : -53 ≤ lastPlace i.natAbs 1 := by
    have hlog : Nat.log2 1 = 0 := by decide
    unfold lastPlace
    simp only [hlog]
    split <;> omega
  have hmagnitude : nearestMagnitude (i.natAbs * Nat.pow 2 (0 : Int).toNat) 1 ≠ 0 ∧
      nearestMagnitude (i.natAbs * Nat.pow 2 (0 : Int).toNat) 1 < 2 ^ 63 := by
    have hone : i.natAbs * Nat.pow 2 (0 : Int).toNat = i.natAbs := Nat.mul_one _
    have h52 : Nat.pow 2 52 = 2 ^ 52 := rfl
    rw [hone]
    unfold nearestMagnitude infinityMagnitude
    rw [if_neg (Int.natAbs_ne_zero.2 hi)]
    simp only [h52]
    omega
  unfold ofInt ofScaled
  rw [if_neg hi, if_pos (Int.le_refl 0), nearest, isZero_ofMagnitude _ hmagnitude.2]
  simp only [hmagnitude.1, hi]

/-- A double that holds an integer is a zero if the integer is. -/
theorem Holds.isZero {n : Int} (h : x.Holds n) : x.isZero = decide (n = 0) := by
  obtain ⟨s, m, e, hview⟩ := h.exists_view
  obtain ⟨hintegral, htruncate⟩ := h
  unfold isIntegral at hintegral
  unfold truncate? at htruncate
  rw [hview] at hintegral htruncate
  have hmagnitude : ∃ k : Nat, n = (if s then -(k : Int) else k) ∧ (k = 0 ↔ m = 0) := by
    have hn := (Option.some.inj htruncate).symm
    have hpos : ∀ j, Nat.pow 2 j ≠ 0 := fun j => Nat.ne_of_gt (Nat.two_pow_pos j)
    by_cases he : 0 ≤ e
    · rw [if_pos he] at hn
      exact ⟨m * Nat.pow 2 e.toNat, hn, Nat.mul_eq_zero.trans (or_iff_left (hpos _))⟩
    · obtain ⟨j, rfl⟩ : Nat.pow 2 (-e).toNat ∣ m :=
        Nat.dvd_of_mod_eq_zero (by simpa [he] using hintegral)
      rw [if_neg he, Nat.mul_div_cancel_left _ (Nat.pos_of_ne_zero (hpos _))] at hn
      exact ⟨j, hn, (Nat.mul_eq_zero.trans (or_iff_right (hpos _))).symm⟩
  obtain ⟨k, rfl, hk⟩ := hmagnitude
  rw [isZero_of_view hview]
  apply decide_eq_decide.2
  rw [← hk]
  cases s <;> simp

theorem holds_of_smallInt? {n : Int} (h : x.smallInt? = some n) :
    x.Holds n ∧ n.natAbs < 2 ^ 63 := by
  unfold smallInt? at h
  split at h
  · next hintegral =>
    obtain ⟨htruncate, hlt⟩ := Option.filter_eq_some_iff.1 h
    exact ⟨⟨hintegral, htruncate⟩, of_decide_eq_true hlt⟩
  · cases h

/-- Both zeros are the integer zero. -/
theorem smallInt?_of_isZero (hfinite : x.isFinite = true) (h : x.isZero = true) :
    x.smallInt? = some 0 := by
  obtain ⟨s, m, e, hview⟩ := exists_view_of_isFinite hfinite
  obtain ⟨hlegal, rfl⟩ := of_view hview
  rw [isZero_of_view hview, decide_eq_true_eq] at h
  obtain ⟨rfl, rfl⟩ := hlegal.resolve_right fun hl => Nat.ne_of_gt hl.pos h
  obtain ⟨hintegral, htruncate⟩ := holds_zero s
  unfold smallInt?
  rw [show (ofMagnitude s ((-1074 + 1074 : Int).toNat * 2 ^ 52 + 0)) = ofMagnitude s 0 from rfl,
    if_pos hintegral, htruncate]
  rfl

end Double

/-! ## Numbers as texts -/

namespace Number

variable {n : Number}

/-- A number shows as the text of a number that is the integer zero only for zeros: integral
doubles below `2 ^ 63` show as integers. -/
theorem exists_shown (h : n.Valid) : ∃ k : Number, k.Valid ∧ n.display = k.text ∧
    n.toDouble.isZero = decide (k = .int 0) := by
  cases n with
  | int i => exact ⟨.int i, h, rfl, (Double.isZero_ofInt i).trans (by simp)⟩
  | real d =>
    cases hd : d.smallInt? with
    | some i =>
      obtain ⟨hholds, hlt⟩ := Double.holds_of_smallInt? hd
      refine ⟨.int i, ⟨by omega, by omega⟩, ?_, hholds.isZero.trans (by simp)⟩
      simp only [display, hd]
      rfl
    | none =>
      refine ⟨.real d, h, ?_, ?_⟩
      · simp only [display, hd]
        rfl
      · rw [decide_eq_false (by simp)]
        apply Bool.eq_false_iff.2
        intro hzero
        rw [Double.smallInt?_of_isZero h hzero] at hd
        cases hd

/-- Only the integer zero is written `0`. -/
theorem text_eq_zero_iff (h : n.Valid) : n.text = "0" ↔ n = .int 0 := by
  constructor
  · intro htext
    have hnumeral := number?_numeral h
    unfold numeral at hnumeral
    rw [htext] at hnumeral
    exact (Option.some.inj hnumeral).symm
  · rintro rfl
    rfl

end Number

/-! ## Truth -/

/-- The characters numbers are written with. -/
def isNumeric (c : Char) : Bool := c.isDigit || ['-', '+', '.', 'e'].contains c

/-- They are no white space, and no capitals. -/
theorem plain_of_isNumeric {c : Char} (h : isNumeric c = true) :
    isBlank c = false ∧ c.toLower = c := by
  unfold isNumeric at h
  rcases Bool.or_eq_true_iff.1 h with hdigit | hmark
  · constructor
    · apply Bool.eq_false_iff.2
      intro hblank
      rw [Json.not_isDigit_of_isBlank hblank] at hdigit
      cases hdigit
    · have hupper : ¬ (c.val ≥ 65 ∧ c.val ≤ 90) := by
        simp only [Char.isDigit, Bool.and_eq_true, decide_eq_true_eq] at hdigit
        rintro ⟨hlow, -⟩
        exact absurd (UInt32.le_trans hlow hdigit.2) (by decide)
      unfold Char.toLower
      exact dif_neg hupper
  · have hmarks : c = '-' ∨ c = '+' ∨ c = '.' ∨ c = 'e' := by simpa using hmark
    rcases hmarks with rfl | rfl | rfl | rfl <;> decide

theorem trimChars_of_forall {cs : List Char} (h : ∀ c ∈ cs, isBlank c = false) :
    trimChars cs = cs := by
  have hkept : ∀ cs : List Char, (∀ c ∈ cs, isBlank c = false) → cs.dropWhile isBlank = cs := by
    intro cs h
    cases cs with
    | nil => rfl
    | cons c cs => simp [h c List.mem_cons_self]
  unfold trimChars
  rw [hkept cs h, hkept cs.reverse fun c hc => h c (List.mem_reverse.1 hc), List.reverse_reverse]

/-- What is written like a number is false only as a zero. -/
theorem isTruthy_of_numeric {s : String} (hne : s ≠ "")
    (h : ∀ c ∈ s.toList, isNumeric c = true) :
    isTruthy s = decide (s ≠ "0") := by
  have hword : String.ofList ((trimChars s.toList).map Char.toLower) = s := by
    rw [trimChars_of_forall fun c hc => (plain_of_isNumeric (h c hc)).1,
      List.map_congr_left fun c hc => (plain_of_isNumeric (h c hc)).2, List.map_id', String.ofList_toList]
  have hfalse : s ∈ falseWords ↔ s = "0" := by
    have hletter : ∀ w ∈ falseWords, w = "0" ∨ w.toList.all isNumeric = false := by decide
    constructor
    · intro hs
      rcases hletter s hs with hzero | hother
      · exact hzero
      · rw [List.all_eq_true.2 h] at hother
        cases hother
    · rintro rfl
      decide
  unfold isTruthy
  simp only [hword]
  simp [hfalse, hne]

namespace Json.Token

theorem isNumeric_of_mem_parts {x : Parts} (hx : x.WellFormed) {negative : Bool} {c : Char}
    (hc : c ∈ signPart negative ++ x.chars) : isNumeric c = true := by
  have hdigit : ∀ {c : Char}, c.isDigit = true → isNumeric c = true := fun h =>
    Bool.or_eq_true_iff.2 (.inl h)
  have hsign : ∀ c ∈ signPart negative, isNumeric c = true := by
    refine List.all_eq_true.1 ?_
    cases negative <;> decide
  have hwhole : ∀ c ∈ x.whole, isNumeric c = true := by
    rcases hx.whole with hzero | ⟨d, ds, -, -, hdigits⟩
    · rw [hzero]
      exact List.all_eq_true.1 (by decide)
    · exact fun c hc => hdigit (hdigits c hc)
  have hfraction : ∀ c ∈ fractionPart x.fraction, isNumeric c = true := by
    unfold fractionPart
    split
    · exact nofun
    · exact List.forall_mem_cons.2 ⟨by decide, fun c hc => hdigit (hx.fraction c hc)⟩
  have hexponent : ∀ c ∈ exponentPart x.exponent, isNumeric c = true := by
    cases x.exponent with
    | none => exact nofun
    | some i =>
      refine List.forall_mem_cons.2 ⟨by decide, List.forall_mem_cons.2 ⟨?_, fun c hc => ?_⟩⟩
      · split <;> decide
      · exact hdigit (isDigit_of_mem_toString hc)
  simp only [Parts.chars, List.mem_append] at hc
  rcases hc with hc | hc | hc | hc
  · exact hsign c hc
  · exact hwhole c hc
  · exact hfraction c hc
  · exact hexponent c hc

end Json.Token

/-- A number is false as a text only if it is the integer zero. -/
theorem Number.isTruthy_text {n : Number} (h : n.Valid) : isTruthy n.text = decide (n ≠ .int 0) := by
  obtain ⟨negative, x, htext, hx, -⟩ := exists_parts h
  have hne : n.text ≠ "" := by
    intro hempty
    rw [hempty] at htext
    rcases hx.whole with hzero | ⟨c, cs, hwhole, -⟩
    · simp [Json.Token.Parts.chars, hzero] at htext
    · simp [Json.Token.Parts.chars, hwhole] at htext
  have hnumeric : ∀ c ∈ n.text.toList, isNumeric c = true := fun c hc =>
    Json.Token.isNumeric_of_mem_parts hx (htext ▸ hc)
  rw [isTruthy_of_numeric hne hnumeric]
  simp only [ne_eq, text_eq_zero_iff h]

/-- A number is as true as its text. -/
theorem Number.isTruthy_display {n : Number} (h : n.Valid) :
    isTruthy n.display = !n.toDouble.isZero := by
  obtain ⟨k, hk, hdisplay, hzero⟩ := exists_shown h
  rw [hdisplay, isTruthy_text hk, hzero, decide_not]

/-! ## Values -/

/-- The values that are no containers, with the numbers that JSON holds. -/
def Json.IsScalar : Json → Prop
  | .num n => n.Valid
  | .arr _ | .obj _ => False
  | _ => True

/-- A value is as true as its text. -/
theorem Json.isTruthy_toText {v : Json} (h : v.IsScalar) : isTruthy v.toText = v.toBool := by
  cases v with
  | null => decide
  | bool b => cases b <;> decide
  | num n => exact Number.isTruthy_display h
  | str s => rfl
  | arr items => exact h.elim
  | obj members => exact h.elim

/-! ## Texts of inputs -/

namespace Engine

variable {e : Engine} {t : TaskId} {s : Site} {key : String} {ws ws' : List World} {v v' : Json}

/-- The text of an input is read in the steps in which its value is read. -/
theorem replay_inputText
    (h : e.replay t (ExceptT.run (s.inputValue e.environment key)) ws = some (.done (.ok v))) :
    e.replay t (ExceptT.run (s.inputText e.environment key)) ws = some (.done (.ok v.toText)) :=
  replay_bind_iff.2 ⟨ws, [], .ok v, (List.append_nil ws).symm, h, rfl⟩

theorem replay_inputBool (hpresent : s.hasInput key = true)
    (h : e.replay t (ExceptT.run (s.inputValue e.environment key)) ws = some (.done (.ok v))) :
    e.replay t (ExceptT.run (s.inputBool e.environment key)) ws = some (.done (.ok v.toBool)) := by
  unfold Site.inputBool
  rw [if_pos hpresent]
  exact replay_bind_iff.2 ⟨ws, [], .ok v, (List.append_nil ws).symm, h, rfl⟩

/-- Texts are joined in the steps in which the first is read and then the second. -/
theorem replay_join
    (h : e.replay t (ExceptT.run (s.inputValue e.environment "STRING1")) ws =
      some (.done (.ok v)))
    (h' : e.replay t (ExceptT.run (s.inputValue e.environment "STRING2")) ws' =
      some (.done (.ok v'))) :
    e.replay t (ExceptT.run (Library.join e.environment s)) (ws ++ ws') =
      some (.done (.ok (.str (v.toText ++ v'.toText)))) := by
  refine replay_bind_iff.2 ⟨ws, ws', .ok v.toText, rfl, replay_inputText h, ?_⟩
  exact replay_bind_iff.2
    ⟨ws', [], .ok v'.toText, (List.append_nil ws').symm, replay_inputText h', rfl⟩

end Engine

/-- A value that is no container is as true as its text. So an input that holds it is as true as the
text that is read from it, and as the text that comes of joining it with nothing. -/
theorem Json.truth_of_text {v : Json} (h : v.IsScalar) :
    (Json.str v.toText).toBool = v.toBool ∧
    ∀ (e : Engine) (t : TaskId) (s : Site) (ws : List World),
      (∀ key, s.hasInput key = true →
        e.replay t (ExceptT.run (s.inputValue e.environment key)) ws = some (.done (.ok v)) →
        ∃ text,
          e.replay t (ExceptT.run (s.inputText e.environment key)) ws = some (.done (.ok text)) ∧
          e.replay t (ExceptT.run (s.inputBool e.environment key)) ws =
            some (.done (.ok (Json.str text).toBool))) ∧
      ∀ ws' v',
        e.replay t (ExceptT.run (s.inputValue e.environment "STRING1")) ws =
          some (.done (.ok v)) →
        e.replay t (ExceptT.run (s.inputValue e.environment "STRING2")) ws' =
          some (.done (.ok v')) →
        v'.toText = "" →
        ∃ joined,
          e.replay t (ExceptT.run (Library.join e.environment s)) (ws ++ ws') =
            some (.done (.ok joined)) ∧
          joined.toBool = v.toBool := by
  have htruth : (Json.str v.toText).toBool = v.toBool := by
    change isTruthy v.toText = v.toBool
    exact isTruthy_toText h
  refine ⟨htruth, fun e t s ws => ⟨fun key hpresent hv => ?_, fun ws' v' hv hv' hempty => ?_⟩⟩
  · refine ⟨v.toText, Engine.replay_inputText hv, ?_⟩
    rw [htruth]
    exact Engine.replay_inputBool hpresent hv
  · have hjoin := Engine.replay_join hv hv'
    rw [hempty, String.append_empty] at hjoin
    exact ⟨_, hjoin, htruth⟩

/-- The negative zero shows as `0`, which is false as it is. -/
theorem Json.truth_of_text_of_negative_zero :
    let zero : Json := .num (.real (Double.ofMagnitude true 0))
    let e : Engine := ⟨.empty, ⟨100, 20, 256⟩, none, "main"⟩
    let s := Site.ofInputs ⟨[], []⟩
      [("STRING1", [.ofInt 5, zero]), ("STRING2", [.ofInt 5, .str ""])]
    zero.IsScalar ∧ zero.toText = "0" ∧ (Json.str zero.toText).toBool = zero.toBool ∧
      zero.toBool = false ∧
      (∃ text,
        e.replay 0 (ExceptT.run (s.inputText e.environment "STRING1")) [] =
          some (.done (.ok text)) ∧
        e.replay 0 (ExceptT.run (s.inputBool e.environment "STRING1")) [] =
          some (.done (.ok (Json.str text).toBool))) ∧
      ∃ joined,
        e.replay 0 (ExceptT.run (Library.join e.environment s)) [] = some (.done (.ok joined)) ∧
        joined.toBool = false := by
  intro zero e s
  have hscalar : zero.IsScalar := show (Double.ofMagnitude true 0).isFinite = true by decide
  obtain ⟨htruth, hread⟩ := Json.truth_of_text hscalar
  obtain ⟨hinput, hjoin⟩ := hread e 0 s []
  exact ⟨hscalar, by decide +kernel, htruth, by decide, hinput "STRING1" rfl rfl,
    hjoin [] (.str "") rfl rfl rfl⟩

/-- Containers are not as true as their texts. -/
example : (Json.arr []).toBool = false ∧ (Json.str (Json.arr []).toText).toBool = true := by
  decide

end BlockEngine
