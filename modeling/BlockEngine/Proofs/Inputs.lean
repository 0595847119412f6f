import Mathlib.Tactic.SplitIfs
import BlockEngine.Proofs.Documents
import BlockEngine.Site.Input

/-!
# Inputs as they are written

An input is written as an array that begins with a tag. Whether the array stands for an input is
decided by the tag and the payload behind it, whatever follows them.

* `Input.Payload` : what a payload holds under a tag;
* `Input.decode_eq_ok_iff` : which arrays stand for an input, and for which;
* `Input.isPresent_iff` : which arrays count as an input that is there;
* `Site.input_of_shadow` : a shadow is read in no step, in either mode;
* `Input.decode_grammar` : these together.
-/

namespace BlockEngine

/-! ## Numbers in arrays -/

theorem Json.int64?_eq_some_iff {j : Json} {i : Int} (hi : i < Nat.pow 2 63) :
    j.int64? = some i ↔ j = .ofInt i := by
  constructor
  · intro h
    unfold int64? at h
    split at h
    · next n =>
      cases n with
      | int k =>
        obtain ⟨-, hk⟩ := Option.ite_none_right_eq_some.1 h
        rw [Option.some.inj hk]
        rfl
      | real d => cases h
    · cases h
  · rintro rfl
    exact if_pos hi

theorem Json.uint64?_eq_some_iff {j : Json} {n : Nat} : j.uint64? = some n ↔ j = .ofNat n := by
  constructor
  · intro h
    unfold uint64? at h
    split at h
    · next m =>
      cases m with
      | int k =>
        obtain ⟨hk, hn⟩ := Option.ite_none_right_eq_some.1 h
        have hk : k = n := by
          have := Option.some.inj hn
          omega
        rw [hk]
        rfl
      | real d => cases h
    · cases h
  · rintro rfl
    have hn : (0 : Int) ≤ n := Int.natCast_nonneg n
    simp [ofNat, uint64?, Number.toUInt64?, hn]

/-! ## Tags and kinds -/

namespace InputTag

theorem ofCode?_eq_some_iff {code : Int} {tag : InputTag} :
    ofCode? code = some tag ↔ code = tag.code := by
  constructor
  · intro h
    unfold ofCode? at h
    split_ifs at h with hcode hcode hcode hcode
    all_goals
      cases h
      exact hcode
  · rintro rfl
    cases tag <;> rfl

theorem code_lt (tag : InputTag) : tag.code < Nat.pow 2 63 := by cases tag <;> decide

end InputTag

namespace PrimitiveKind

/-- The ordinals are the numbers below 15. -/
theorem exists_ordinal_iff {n : Nat} : (∃ k : PrimitiveKind, k.ordinal = n) ↔ n < 15 := by
  constructor
  · rintro ⟨k, rfl⟩
    cases k <;> decide
  · intro h
    have hall : ∀ n, n < 15 → ∃ k ∈ all.map (·.1), k.ordinal = n := by decide
    obtain ⟨k, -, hk⟩ := hall n h
    exact ⟨k, hk⟩

theorem ofOrdinal?_eq_some_iff {n : Nat} {k : PrimitiveKind} :
    ofOrdinal? n = some k ↔ k.ordinal = n := by
  constructor
  · intro h
    obtain ⟨p, hp, -⟩ := Option.map_eq_some_iff.1 h
    have hn : n < 15 := (List.getElem?_eq_some_iff.1 hp).1
    have hall : ∀ n, n < 15 → (ofOrdinal? n).map ordinal = some n := by decide
    have hk := hall n hn
    rw [h] at hk
    exact Option.some.inj hk
  · rintro rfl
    cases k <;> decide

end PrimitiveKind

/-! ## Payloads and arrays -/

namespace Input

/-- What a payload holds under a tag: anything is a literal, a text names a block, and an array that
begins with an ordinal is a primitive. -/
inductive Payload : InputTag → Json → InputContent → Prop
  | literal (v : Json) : Payload .literal v (.literal v)
  | block {tag : InputTag} (id : String) : tag ≠ .literal → Payload tag (.str id) (.block id)
  | primitive {tag : InputTag} (k : PrimitiveKind) (more : List Json) :
      tag = .shadow ∨ tag = .obscured →
      Payload tag (.arr (.ofNat k.ordinal :: more)) (.primitive k (.ofNat k.ordinal :: more))

/-- Null is a literal and nothing else. -/
theorem Payload.not_null {tag : InputTag} {payload : Json} {content : InputContent}
    (h : Payload tag payload content) (htag : tag ≠ .literal) : payload.isNull = false := by
  cases h with
  | literal => exact absurd rfl htag
  | block | primitive => rfl

variable {name : String} {raw items : List Json} {tag : InputTag} {payload : Json}
  {content : InputContent} {i : Input}

theorem decodePrimitive_eq_ok_iff : decodePrimitive items = .ok content ↔
    ∃ k more, items = .ofNat (PrimitiveKind.ordinal k) :: more ∧ content = .primitive k items := by
  unfold decodePrimitive
  constructor
  · intro h
    split at h
    · cases h
    · next n hn =>
      obtain ⟨first, hfirst, hn⟩ := Option.bind_eq_some_iff.1 hn
      obtain ⟨more, rfl⟩ := List.head?_eq_some_iff.1 hfirst
      split at h
      · cases h
      · next k hk =>
        rw [Json.uint64?_eq_some_iff.1 hn, ← PrimitiveKind.ofOrdinal?_eq_some_iff.1 hk] at h ⊢
        exact ⟨k, more, rfl, (Except.ok.inj h).symm⟩
  · rintro ⟨k, more, rfl, rfl⟩
    have hn : ((Json.ofNat k.ordinal :: more).head?).bind Json.uint64? = some k.ordinal :=
      Json.uint64?_eq_some_iff.2 rfl
    have hk : PrimitiveKind.ofOrdinal? k.ordinal = some k :=
      PrimitiveKind.ofOrdinal?_eq_some_iff.2 rfl
    rw [hn]
    simp only [hk]

theorem decodePayload_eq_ok_iff :
    decodePayload tag payload = .ok content ↔ Payload tag payload content := by
  constructor
  · intro h
    unfold decodePayload at h
    split at h
    · cases h; exact .literal _
    · next hne => cases h; exact .block _ hne
    · obtain ⟨k, more, rfl, rfl⟩ := decodePrimitive_eq_ok_iff.1 h
      exact .primitive k more (.inl rfl)
    · obtain ⟨k, more, rfl, rfl⟩ := decodePrimitive_eq_ok_iff.1 h
      exact .primitive k more (.inr rfl)
    · cases h
    · cases h
  · rintro (v | ⟨id, hne⟩ | ⟨k, more, htag⟩)
    · rfl
    · cases tag <;> first | rfl | exact absurd rfl hne
    · have h := decodePrimitive_eq_ok_iff.2 ⟨k, more, rfl, rfl⟩
      rcases htag with rfl | rfl <;> exact h

/-- An array has the code of a tag if it begins with it. -/
theorem codeOf_eq_some_iff : codeOf raw = some tag.code ↔ ∃ rest, raw = .ofInt tag.code :: rest := by
  unfold codeOf
  rw [Option.bind_eq_some_iff]
  constructor
  · rintro ⟨first, hfirst, hcode⟩
    rw [Json.int64?_eq_some_iff tag.code_lt] at hcode
    rw [hcode] at hfirst
    exact List.head?_eq_some_iff.1 hfirst
  · rintro ⟨rest, rfl⟩
    exact ⟨_, rfl, (Json.int64?_eq_some_iff tag.code_lt).2 rfl⟩

/-- An array has a tag if it begins with the code of it. -/
theorem tag_eq_some_iff : (codeOf raw).bind InputTag.ofCode? = some tag ↔
    ∃ rest, raw = .ofInt tag.code :: rest := by
  rw [← codeOf_eq_some_iff, Option.bind_eq_some_iff]
  constructor
  · rintro ⟨code, hcode, htag⟩
    rw [hcode, InputTag.ofCode?_eq_some_iff.1 htag]
  · intro hcode
    exact ⟨_, hcode, InputTag.ofCode?_eq_some_iff.2 rfl⟩

/-- The payload of an array, null when there is none. -/
def payloadOf (raw : List Json) : Json := (raw[1]?).getD .null

theorem decodeRaw_eq_ok_iff : decodeRaw raw = .ok i ↔
    (∃ rest, raw = .ofInt i.tag.code :: rest) ∧ Payload i.tag (payloadOf raw) i.content := by
  obtain ⟨tag, content⟩ := i
  rw [← codeOf_eq_some_iff, ← decodePayload_eq_ok_iff]
  unfold decodeRaw
  constructor
  · intro h
    split at h
    · next code hcode =>
      split at h
      · next tag' htag =>
        obtain ⟨content', hcontent, h⟩ := bind_eq_ok_iff.1 h
        obtain ⟨rfl, rfl⟩ := Input.mk.inj (Except.ok.inj h)
        exact ⟨InputTag.ofCode?_eq_some_iff.1 htag ▸ hcode, hcontent⟩
      · cases h
    · cases h
  · rintro ⟨hcode, hcontent⟩
    have htag : InputTag.ofCode? tag.code = some tag := InputTag.ofCode?_eq_some_iff.2 rfl
    simp only [hcode, htag]
    exact bind_eq_ok_iff.2 ⟨content, hcontent, rfl⟩

/-- An array stands for an input if it begins with a tag and the payload holds something under it. -/
theorem decode_eq_ok_iff : decode name raw = .ok i ↔
    (∃ rest, raw = .ofInt i.tag.code :: rest) ∧ Payload i.tag (payloadOf raw) i.content :=
  mapError_eq_ok_iff.trans decodeRaw_eq_ok_iff

/-- An array counts as an input that is there if it begins with a tag; a shadow needs a payload that
is not null. -/
theorem isPresent_iff : isPresent raw = true ↔
    ∃ tag rest, raw = .ofInt (InputTag.code tag) :: rest ∧
      (tag = .shadow → (payloadOf raw).isNull = false) := by
  have hshadow : ((raw[1]?).map (!·.isNull)).getD false = !(payloadOf raw).isNull := by
    unfold payloadOf
    cases raw[1]? <;> rfl
  unfold isPresent
  constructor
  · intro h
    split at h
    · next htag =>
      obtain ⟨rest, hraw⟩ := tag_eq_some_iff.1 htag
      refine ⟨.shadow, rest, hraw, fun _ => ?_⟩
      rw [hshadow] at h
      simpa using h
    · next tag hne htag =>
      obtain ⟨rest, hraw⟩ := tag_eq_some_iff.1 htag
      exact ⟨tag, rest, hraw, fun h => absurd h hne⟩
    · cases h
  · rintro ⟨tag, rest, hraw, hnull⟩
    rw [tag_eq_some_iff.2 ⟨rest, hraw⟩]
    cases tag with
    | shadow => simp only [hshadow, hnull rfl, Bool.not_false]
    | _ => rfl

/-- What stands for an input counts as one that is there. -/
theorem isPresent_of_decode (h : decode name raw = .ok i) : isPresent raw = true := by
  obtain ⟨⟨rest, hraw⟩, hpayload⟩ := decode_eq_ok_iff.1 h
  exact isPresent_iff.2 ⟨i.tag, rest, hraw, fun htag => hpayload.not_null (by rw [htag]; decide)⟩

/-- An array that counts as an input that is there and stands for none has a tag, and a payload that
holds nothing under it. -/
theorem exists_tag_of_isPresent (hpresent : isPresent raw = true)
    (h : ∀ i, decode name raw ≠ .ok i) : ∃ tag rest, raw = .ofInt (InputTag.code tag) :: rest ∧
      ∀ content, ¬ Payload tag (payloadOf raw) content := by
  obtain ⟨tag, rest, hraw, -⟩ := isPresent_iff.1 hpresent
  refine ⟨tag, rest, hraw, fun content hcontent => ?_⟩
  exact h ⟨tag, content⟩ (decode_eq_ok_iff.2 ⟨⟨rest, hraw⟩, hcontent⟩)

end Input

/-! ## Shadows -/

/-- What is read of a content that is read as a reference; a literal is none. -/
def InputContent.reference? : InputContent → Option String
  | .literal _ => none
  | .block id => some id
  | .primitive k items => some (k.reference items)

theorem Input.Payload.exists_reference {payload : Json} {content : InputContent}
    (h : Payload .shadow payload content) : ∃ text, content.reference? = some text := by
  cases h with
  | block id => exact ⟨id, rfl⟩
  | primitive k more => exact ⟨k.reference (.ofNat k.ordinal :: more), rfl⟩

theorem Attempt.bind_of_pure {α β : Type} (a : α) (k : α → Attempt β) :
    ((pure a : Attempt α) >>= k) = k a := rfl

namespace Site

variable {s : Site} {key : String} {raw : List Json} {i : Input} {text : String}

theorem decodedInput_eq_ok (hraw : s.block.rawInput? key = some raw)
    (hi : Input.decode key raw = .ok i) : s.decodedInput key = .ok i := by
  unfold decodedInput Block.input?
  rw [hraw]
  simp only [hi]
  rfl

/-- A shadow is read as a reference in either mode. This is no step of the execution: no block is
evaluated, no variable is looked up, and the state is neither read nor changed. -/
theorem input_of_shadow (hi : s.decodedInput key = .ok i) (htag : i.tag = .shadow)
    (htext : i.content.reference? = some text) (env : Environment) (mode : ReadMode) :
    s.input env key mode = pure (.str text) := by
  obtain ⟨tag, content⟩ := i
  obtain rfl : tag = .shadow := htag
  unfold input
  rw [hi]
  cases content with
  | literal v => cases htext
  | block id =>
    cases htext
    rfl
  | primitive k items =>
    cases htext
    rfl

/-- Whatever a shadow is read as, it is read in no step. -/
theorem readers_of_shadow {env : Environment}
    (hinput : s.input env key .value = pure (.str text)) (hpresent : s.hasInput key = true) :
    s.inputText env key = pure text ∧ s.inputBool env key = pure (isTruthy text) ∧
      s.inputJson env key = pure ((Json.parse? text).getD (.str text)) ∧
      (∃ r, s.inputDouble env key = Attempt.ofExcept r) ∧
      ∃ r, s.inputInt env key = Attempt.ofExcept r := by
  have hvalue : s.inputValue env key = pure (.str text) := hinput
  have hdouble : ∃ r, s.inputDouble env key = Attempt.ofExcept r := by
    unfold inputDouble
    rw [hvalue, Attempt.bind_of_pure]
    cases (Json.str text).toDouble? with
    | some d => exact ⟨.ok d, rfl⟩
    | none => exact ⟨.error (.invalidNumericInput key text), rfl⟩
  refine ⟨?_, ?_, ?_, hdouble, ?_⟩
  · unfold inputText
    rw [hvalue]
    rfl
  · unfold inputBool
    rw [if_pos hpresent, hvalue]
    rfl
  · unfold inputJson
    rw [hvalue]
    rfl
  · obtain ⟨r, hr⟩ := hdouble
    unfold inputInt
    rw [hr]
    cases r with
    | ok d => exact ⟨.ok d.toInt64, rfl⟩
    | error err => exact ⟨.error err, rfl⟩

end Site

/-- The arrays that stand for an input are those of the grammar: a tag, and a payload that holds
something under it. Each of them counts as an input that is there, and what counts as one without
standing for any has a payload outside the grammar. A shadow is read in no step. -/
theorem Input.decode_grammar (name : String) (raw : List Json) :
    (∀ i, decode name raw = .ok i ↔
      (∃ rest, raw = .ofInt i.tag.code :: rest) ∧ Payload i.tag (payloadOf raw) i.content) ∧
    (∀ n, (∃ k : PrimitiveKind, k.ordinal = n) ↔ n < 15) ∧
    (∀ i, decode name raw = .ok i → isPresent raw = true) ∧
    (isPresent raw = true → (∀ i, decode name raw ≠ .ok i) →
      ∃ tag rest, raw = .ofInt (InputTag.code tag) :: rest ∧
        ∀ content, ¬ Payload tag (payloadOf raw) content) ∧
    ∀ (s : Site) (i : Input), s.block.rawInput? name = some raw → decode name raw = .ok i →
      i.tag = .shadow → ∃ text, i.content.reference? = some text ∧
        ∀ env : Environment, (∀ mode, s.input env name mode = pure (.str text)) ∧
          s.inputText env name = pure text ∧ s.inputBool env name = pure (isTruthy text) ∧
          s.inputJson env name = pure ((Json.parse? text).getD (.str text)) ∧
          (∃ r, s.inputDouble env name = Attempt.ofExcept r) ∧
          ∃ r, s.inputInt env name = Attempt.ofExcept r := by
  refine ⟨fun i => decode_eq_ok_iff, fun n => PrimitiveKind.exists_ordinal_iff,
    fun i => isPresent_of_decode, exists_tag_of_isPresent, fun s i hraw hi htag => ?_⟩
  obtain ⟨-, hpayload⟩ := decode_eq_ok_iff.1 hi
  rw [htag] at hpayload
  obtain ⟨text, htext⟩ := hpayload.exists_reference
  have hinput := Site.input_of_shadow (Site.decodedInput_eq_ok hraw hi) htag htext
  have hpresent : s.hasInput name = true := by
    unfold Site.hasInput Block.hasInput
    rw [hraw]
    exact isPresent_of_decode hi
  exact ⟨text, htext, fun env => ⟨hinput env, Site.readers_of_shadow (hinput env .value) hpresent⟩⟩

/-- A block that has nothing but inputs, in a graph. -/
def Site.ofInputs (g : Graph) (inputs : List (String × List Json)) : Site where
  generation := ⟨0, "main", "Main", g⟩
  block := { Block.placeholder "reader" with inputs := inputs }
  depth := 0
  context := ⟨0, none, none⟩

/-- A broadcast under the tag of shadows, with more behind it, reads as its id. -/
theorem Input.decode_grammar_of_broadcast :
    let broadcast : Json := .arr [.ofNat 11, .str "hello", .str "id"]
    let s := Site.ofInputs ⟨[], []⟩ [("MODE", [.ofInt 1, broadcast, .null])]
    ∃ i, s.block.rawInput? "MODE" = some [.ofInt 1, broadcast, .null] ∧
      decode "MODE" [.ofInt 1, broadcast, .null] = .ok i ∧ i.tag = .shadow ∧
      isPresent [.ofInt 1, broadcast, .null] = true ∧
      ∀ env mode, s.input env "MODE" mode = pure (.str "id") := by
  intro broadcast s
  obtain ⟨hdecode, -, hpresent, -, hread⟩ :=
    Input.decode_grammar "MODE" [.ofInt 1, broadcast, .null]
  have hi : decode "MODE" [.ofInt 1, broadcast, .null] =
      .ok ⟨.shadow, .primitive .broadcast [.ofNat 11, .str "hello", .str "id"]⟩ :=
    (hdecode _).2 ⟨⟨_, rfl⟩, .primitive .broadcast _ (.inl rfl)⟩
  obtain ⟨text, htext, hread⟩ := hread s _ rfl hi rfl
  obtain rfl : "id" = text := Option.some.inj htext
  exact ⟨_, rfl, hi, rfl, hpresent _ hi, fun env mode => (hread env).1 mode⟩

end BlockEngine
