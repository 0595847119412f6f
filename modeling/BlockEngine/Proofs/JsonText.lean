import BlockEngine.Proofs.Emptiness
import BlockEngine.Proofs.NumberText

/-!
# Values read back from their texts

The text of a value is made of tokens without blanks between them, and those are read as the value.

* `Json.tokens` : the tokens of the text of a value, and `Json.Token.Reads` : which characters spell
  which tokens, whatever follows;
* `Json.Written.ofJson`, `Json.Written.runsAs` : the tokens of a value are read as what is written
  for it;
* `Json.Fits` : the values that a text of limited nesting can hold, and
  `Json.Written.fits_of_toJson?` : every text holds such a value;
* `Json.parse?_text` : a value is read back from its text.
-/

namespace BlockEngine.Json

/-! ## Strings -/

namespace Token

theorem hexUnit?_hexDigits {n : Nat} (h : n < 32) :
    ∃ a b c d, hexDigits 4 n = [a, b, c, d] ∧ hexUnit? a b c d = some n := by
  have hall : ∀ n, n < 32 → ∃ a b c d, hexDigits 4 n = [a, b, c, d] ∧ hexUnit? a b c d = some n := by
    intro n hn
    refine ⟨hexDigit (n / 16 / 16 / 16), hexDigit (n / 16 / 16), hexDigit (n / 16), hexDigit n, rfl,
      ?_⟩
    revert n
    decide
  exact hall n h

theorem pushUnit_of_small {s : StringState} (hs : s.half = none) {c : Char} (hc : c.toNat < 32) :
    s.pushUnit c.toNat = s.push c := by
  have hlow : ¬ 0xd800 ≤ c.toNat := by omega
  have hhigh : ¬ 0xdc00 ≤ c.toNat := by omega
  simp [StringState.pushUnit, hs, hlow, hhigh, Char.ofNat_toNat]

/-- A character is read back from its escape. -/
theorem scanString_escapeChar {s : StringState} (hs : s.half = none) (c : Char) (rest : List Char) :
    scanString s (escapeChar c ++ rest) = scanString (s.push c) rest := by
  unfold escapeChar
  -- the escapes of one letter
  iterate 7
    split
    · next hc => subst hc; simp [scanString, escaped?]
  split
  · next hc =>
    obtain ⟨a, b, d, e, hdigits, hunit⟩ := hexUnit?_hexDigits hc
    rw [hdigits]
    show scanString s ('\\' :: 'u' :: a :: b :: d :: e :: rest) = _
    rw [scanString, hunit]
    exact congrArg (scanString · rest) (pushUnit_of_small hs hc)
  · next hquote hback _ _ _ _ _ hc =>
    rw [List.cons_append, List.nil_append]
    rw [scanString.eq_5 s c rest hquote (fun _ _ _ _ _ h => absurd h hback)
      fun _ _ h => absurd h hback]
    simp [hback, hc]

/-- The characters of a string are read back, up to its closing quote. -/
theorem scanString_flatMap_escapeChar (reversed cs rest : List Char) :
    scanString ⟨reversed, true, none⟩ (cs.flatMap escapeChar ++ '"' :: rest) =
      some (some (String.ofList (reversed.reverse ++ cs)), rest) := by
  induction cs generalizing reversed with
  | nil => simp [scanString, StringState.text]
  | cons c cs ih =>
    rw [List.flatMap_cons, List.append_assoc, scanString_escapeChar rfl]
    have hpush : StringState.push ⟨reversed, true, none⟩ c = ⟨c :: reversed, true, none⟩ := rfl
    rw [hpush, ih]
    simp

/-- A string is read back from its text. -/
theorem scanOne_quote (s : String) (rest : List Char) :
    scanOne ((quote s).toList ++ rest) = some (.string (some s), rest) := by
  have hchars : (quote s).toList ++ rest = '"' :: (s.toList.flatMap escapeChar ++ '"' :: rest) := by
    simp [quote]
  rw [hchars]
  unfold scanOne
  simp [scanString_flatMap_escapeChar]

/-! ## Numbers -/

theorem head_of_scanNumber {c : Char} {cs rest : List Char} {n : Numeral}
    (h : scanNumber (c :: cs) = some (n, rest)) : c = '-' ∨ c.isDigit = true := by
  refine Decidable.byContradiction fun hc => ?_
  obtain ⟨hminus, hdigit⟩ := not_or.1 hc
  have hzero : c ≠ '0' := by rintro rfl; exact hdigit rfl
  have hdigits : scanDigits (c :: cs) = none := by simp [scanDigits, hdigit]
  simp [scanNumber, scanSign, scanWhole, hminus, hzero, hdigits] at h

theorem scanOne_of_scanNumber {cs rest : List Char} {n : Numeral}
    (h : scanNumber cs = some (n, rest)) : scanOne cs = some (.number n, rest) := by
  cases cs with
  | nil =>
    have hnone : scanNumber [] = none := rfl
    rw [hnone] at h
    cases h
  | cons c cs =>
    have hc := head_of_scanNumber h
    have hne : ∀ d, d ≠ '-' → d.isDigit = false → ∀ tail, c :: cs ≠ d :: tail := by
      rintro d hd hdigit tail heq
      rw [(List.cons.inj heq).1] at hc
      rcases hc with hc | hc
      · exact hd hc
      · rw [hdigit] at hc; cases hc
    rw [scanOne.eq_11]
    · rw [h]; rfl
    all_goals exact fun _ => hne _ (by decide) rfl _

theorem scanOne_of_isMark {c : Char} {t : Token} {rest : List Char}
    (h : (c, t) ∈ [('[', openArray), (']', closeArray), ('\x7b', openObject),
      ('\x7d', closeObject), (',', comma), (':', colon)]) :
    scanOne (c :: rest) = some (t, rest) := by
  simp only [List.mem_cons, Prod.mk.injEq, List.not_mem_nil, or_false] at h
  rcases h with ⟨rfl, rfl⟩ | ⟨rfl, rfl⟩ | ⟨rfl, rfl⟩ | ⟨rfl, rfl⟩ | ⟨rfl, rfl⟩ | ⟨rfl, rfl⟩ <;> rfl

/-! ## Texts made of tokens -/

theorem not_isBlank_of_scanOne {c : Char} {cs rest : List Char} {t : Token}
    (h : scanOne (c :: cs) = some (t, rest)) : isBlank c = false := by
  refine Bool.eq_false_iff.2 fun hc => ?_
  have hblank : BlockEngine.isBlank c = true := by
    simp only [isBlank, Bool.or_eq_true, decide_eq_true_eq] at hc
    rcases hc with ((rfl | rfl) | rfl) | rfl <;> decide
  rw [scanOne_of_isBlank hblank] at h
  cases h

/-- The characters are those of the tokens one after the other, no blanks between them. -/
inductive Spells : List Char → List Token → Prop
  | nil : Spells [] []
  | cons {cs rest : List Char} {t : Token} {ts : List Token} : cs ≠ [] →
    scanOne (cs ++ rest) = some (t, rest) → Spells rest ts → Spells (cs ++ rest) (t :: ts)

theorem scanAll_of_spells {cs : List Char} {ts : List Token} (h : Spells cs ts) {fuel : Nat}
    (hfuel : cs.length ≤ fuel) (done : List Token) :
    scanAll fuel done cs = some (done.reverse ++ ts) := by
  induction h generalizing fuel done with
  | nil => cases fuel <;> simp [scanAll]
  | @cons cs rest t ts hcs hone _ ih =>
    obtain ⟨c, cs, rfl⟩ := List.exists_cons_of_ne_nil hcs
    rw [List.cons_append] at hone hfuel ⊢
    rw [List.length_cons, List.length_append] at hfuel
    obtain ⟨fuel, rfl⟩ : ∃ n, fuel = n + 1 := Nat.exists_eq_add_one.2 (by omega)
    have hrest : rest.length ≤ fuel := by omega
    rw [scanAll, not_isBlank_of_scanOne hone, hone]
    simp [ih hrest]

theorem scan_of_spells {s : String} {ts : List Token} (h : Spells s.toList ts) :
    scan s = some ts := by
  unfold scan
  rw [chars_eq_toList]
  exact scanAll_of_spells h (Nat.le_refl _) []

/-- The characters of a part spell its tokens in front of whatever may follow a number. -/
def Reads (cs : List Char) (ts : List Token) : Prop :=
  ∀ ⦃rest : List Char⦄ ⦃ts' : List Token⦄, NumberEnds rest → Spells rest ts' →
    Spells (cs ++ rest) (ts ++ ts')

theorem numberEnds_cons {c : Char} (hc : c ∈ [',', ']', '\x7d', ':']) (cs : List Char) :
    NumberEnds (c :: cs) := by
  intro d hd
  obtain rfl : c = d := Option.some.inj hd
  simp only [List.mem_cons, List.not_mem_nil, or_false] at hc
  rcases hc with rfl | rfl | rfl | rfl <;> decide

namespace Reads

theorem nil : Reads [] [] := fun _ _ _ h => h

theorem append {cs cs' : List Char} {ts ts' : List Token} (h : Reads cs ts) (h' : Reads cs' ts')
    (hends : ∀ rest, NumberEnds rest → NumberEnds (cs' ++ rest)) :
    Reads (cs ++ cs') (ts ++ ts') := by
  intro rest more hrest hmore
  rw [List.append_assoc, List.append_assoc]
  exact h (hends rest hrest) (h' hrest hmore)

/-- A token in front whose end its own characters tell. -/
theorem cons {cs : List Char} {t : Token} {cs' : List Char} {ts' : List Token} (hcs : cs ≠ [])
    (hone : ∀ rest, scanOne (cs ++ rest) = some (t, rest)) (h : Reads cs' ts') :
    Reads (cs ++ cs') (t :: ts') := by
  intro rest more hrest hmore
  rw [List.append_assoc]
  exact .cons hcs (hone _) (h hrest hmore)

theorem one {cs : List Char} {t : Token} (hcs : cs ≠ [])
    (hone : ∀ rest, scanOne (cs ++ rest) = some (t, rest)) : Reads cs [t] := by
  have h := Reads.nil.cons hcs hone
  rwa [List.append_nil] at h

theorem mark {c : Char} {t : Token} {cs : List Char} {ts : List Token}
    (hc : (c, t) ∈ [('[', openArray), (']', closeArray), ('\x7b', openObject),
      ('\x7d', closeObject), (',', comma), (':', colon)]) (h : Reads cs ts) :
    Reads (c :: cs) (t :: ts) :=
  h.cons (List.cons_ne_nil c []) fun _ => scanOne_of_isMark hc

theorem number {cs : List Char} {n : Numeral}
    (hone : ∀ rest, NumberEnds rest → scanNumber (cs ++ rest) = some (n, rest)) :
    Reads cs [.number n] := by
  have hcs : cs ≠ [] := by
    rintro rfl
    exact absurd (hone [] numberEnds_nil) nofun
  exact fun rest ts hrest hts => .cons hcs (scanOne_of_scanNumber (hone rest hrest)) hts

end Reads
end Token

/-! ## Values as tokens -/

theorem induct {motive : Json → Prop} (null : motive .null) (bool : ∀ b, motive (.bool b))
    (num : ∀ n, motive (.num n)) (str : ∀ s, motive (.str s))
    (arr : ∀ items, (∀ j ∈ items, motive j) → motive (.arr items))
    (obj : ∀ members, (∀ m ∈ members, motive m.2) → motive (.obj members)) (j : Json) :
    motive j :=
  @Json.rec motive (fun items => ∀ j ∈ items, motive j)
    (fun members => ∀ m ∈ members, motive m.2) (fun m => motive m.2)
    null bool num str arr obj nofun (fun _ _ hhead htail => List.forall_mem_cons.2 ⟨hhead, htail⟩)
    nofun (fun _ _ hhead htail => List.forall_mem_cons.2 ⟨hhead, htail⟩) (fun _ _ h => h) j

mutual

/-- The tokens of the text of a value. -/
def tokens : Json → List Token
  | .null => [.null]
  | .bool b => [.bool b]
  | .num n => [.number n.numeral]
  | .str s => [.string (some s)]
  | .arr items => .openArray :: ([Token.comma].intercalate (itemTokens items) ++ [.closeArray])
  | .obj members =>
    .openObject :: ([Token.comma].intercalate (memberTokens members) ++ [.closeObject])

def itemTokens : List Json → List (List Token)
  | [] => []
  | j :: rest => j.tokens :: itemTokens rest

def memberTokens : List (String × Json) → List (List Token)
  | [] => []
  | (k, j) :: rest => (.string (some k) :: .colon :: j.tokens) :: memberTokens rest

end

theorem itemTexts_eq (items : List Json) : itemTexts items = items.map text := by
  induction items with
  | nil => rw [itemTexts, List.map_nil]
  | cons j rest ih => rw [itemTexts, ih, List.map_cons]

theorem itemTokens_eq (items : List Json) : itemTokens items = items.map tokens := by
  induction items with
  | nil => rw [itemTokens, List.map_nil]
  | cons j rest ih => rw [itemTokens, ih, List.map_cons]

/-- A member as it stands in a text. -/
def memberText (m : String × Json) : String := quote m.1 ++ ":" ++ m.2.text

def memberToken (m : String × Json) : List Token := .string (some m.1) :: .colon :: m.2.tokens

theorem memberTexts_eq (members : List (String × Json)) :
    memberTexts members = members.map memberText := by
  induction members with
  | nil => rw [memberTexts, List.map_nil]
  | cons m rest ih => rw [memberTexts, ih, List.map_cons]; rfl

theorem memberTokens_eq (members : List (String × Json)) :
    memberTokens members = members.map memberToken := by
  induction members with
  | nil => rw [memberTokens, List.map_nil]
  | cons m rest ih => rw [memberTokens, ih, List.map_cons]; rfl

theorem intercalate_cons {α : Type} (sep x : List α) (xs : List (List α)) :
    sep.intercalate (x :: xs) = x ++ xs.flatMap (sep ++ ·) := by
  induction xs generalizing x with
  | nil => simp
  | cons y ys ih => simp [List.intercalate_cons_cons, ih]

namespace Token

/-- Parts with commas between them are read one after the other. -/
theorem Reads.intercalate {α : Type} {cs : α → List Char} {ts : α → List Token} {xs : List α}
    (h : ∀ x ∈ xs, Reads (cs x) (ts x)) :
    Reads ([','].intercalate (xs.map cs)) ([comma].intercalate (xs.map ts)) := by
  have htail : ∀ xs : List α, (∀ x ∈ xs, Reads (cs x) (ts x)) →
      Reads ((xs.map cs).flatMap ([','] ++ ·)) ((xs.map ts).flatMap ([comma] ++ ·)) ∧
      ∀ rest, NumberEnds rest → NumberEnds ((xs.map cs).flatMap ([','] ++ ·) ++ rest) := by
    intro xs h
    induction xs with
    | nil => exact ⟨.nil, fun _ h => h⟩
    | cons x xs ih =>
      obtain ⟨hx, hxs⟩ := List.forall_mem_cons.1 h
      obtain ⟨hreads, hends⟩ := ih hxs
      exact ⟨.mark (by simp) (hx.append hreads hends), fun _ _ => numberEnds_cons (by simp) _⟩
  cases xs with
  | nil => exact .nil
  | cons x xs =>
    obtain ⟨hx, hxs⟩ := List.forall_mem_cons.1 h
    obtain ⟨hreads, hends⟩ := htail xs hxs
    rw [List.map_cons, List.map_cons, intercalate_cons, intercalate_cons]
    exact hx.append hreads hends

end Token

/-! ## Reading the tokens -/

namespace Written

mutual

/-- A value as it is written. -/
def ofJson : Json → Written
  | .null => .null
  | .bool b => .bool b
  | .num n => .num n.numeral
  | .str s => .str (some s)
  | .arr items => .arr (ofItems items)
  | .obj members => .obj (ofMembers members)

def ofItems : List Json → List Written
  | [] => []
  | j :: rest => ofJson j :: ofItems rest

def ofMembers : List (String × Json) → List (Option String × Written)
  | [] => []
  | (k, j) :: rest => (some k, ofJson j) :: ofMembers rest

end

theorem ofItems_eq (items : List Json) : ofItems items = items.map ofJson := by
  induction items with
  | nil => rw [ofItems, List.map_nil]
  | cons j rest ih => rw [ofItems, ih, List.map_cons]

theorem ofMembers_eq (members : List (String × Json)) :
    ofMembers members = members.map fun m => (some m.1, ofJson m.2) := by
  induction members with
  | nil => rw [ofMembers, List.map_nil]
  | cons m rest ih => rw [ofMembers, ih, List.map_cons]

theorem State.run_cons {s s' : State} {t : Token} (h : s.step t = some s') (ts : List Token) :
    s.run (t :: ts) = s'.run ts := by
  rw [State.run, h]

/-- Wherever a value may start, its tokens are read as the value. -/
def RunsAs (j : Json) : Prop :=
  ∀ (frames : List Frame) (e : Expect) (ts : List Token), e = .value ∨ e = .itemOrClose →
    State.run ⟨frames, e⟩ (j.tokens ++ ts) = State.run (State.give frames (ofJson j)) ts

theorem run_one {t : Token} {frames : List Frame} {e : Expect} {w : Written}
    (he : e = .value ∨ e = .itemOrClose) (h : State.startValue frames t = some (.give frames w))
    (ts : List Token) : State.run ⟨frames, e⟩ (t :: ts) = State.run (State.give frames w) ts := by
  refine State.run_cons ?_ ts
  rcases he with rfl | rfl
  · exact h
  · cases t <;> first | exact h | cases h

theorem run_items {items : List Json} (h : ∀ j ∈ items, RunsAs j) (done : List Written)
    (frames : List Frame) (ts : List Token) :
    State.run ⟨.array done :: frames, .commaOrClose⟩
        ((items.map tokens).flatMap ([.comma] ++ ·) ++ .closeArray :: ts) =
      State.run (State.give frames (.arr (done.reverse ++ items.map ofJson))) ts := by
  induction items generalizing done with
  | nil => simpa using State.run_cons rfl ts
  | cons j rest ih =>
    obtain ⟨hj, hrest⟩ := List.forall_mem_cons.1 h
    rw [List.map_cons, List.flatMap_cons, List.append_assoc, List.append_assoc]
    refine (State.run_cons rfl _).trans ((hj _ _ _ (.inl rfl)).trans ?_)
    refine (ih hrest (ofJson j :: done)).trans ?_
    simp

theorem run_members {members : List (String × Json)} (h : ∀ m ∈ members, RunsAs m.2)
    (done : List (Option String × Written)) (frames : List Frame) (name : Option String)
    (ts : List Token) :
    State.run ⟨.object done name :: frames, .commaOrClose⟩
        ((members.map memberToken).flatMap ([.comma] ++ ·) ++ .closeObject :: ts) =
      State.run (State.give frames
        (.obj (done.reverse ++ members.map fun m => (some m.1, ofJson m.2)))) ts := by
  induction members generalizing done name with
  | nil => simpa using State.run_cons rfl ts
  | cons m rest ih =>
    obtain ⟨hm, hrest⟩ := List.forall_mem_cons.1 h
    rw [List.map_cons, List.flatMap_cons, List.append_assoc, List.append_assoc]
    refine (State.run_cons rfl _).trans ((State.run_cons rfl _).trans
      ((State.run_cons rfl _).trans ?_))
    refine (hm _ _ _ (.inl rfl)).trans ((ih hrest ((some m.1, ofJson m.2) :: done) none).trans ?_)
    simp

/-- The tokens of a value are read as the value. -/
theorem runsAs (j : Json) : RunsAs j := by
  induction j using Json.induct with
  | null => exact fun _ _ ts he => run_one he rfl ts
  | bool b => exact fun _ _ ts he => run_one he rfl ts
  | num n => exact fun _ _ ts he => run_one he rfl ts
  | str s => exact fun _ _ ts he => run_one he rfl ts
  | arr items ih =>
    intro frames e ts he
    have hopen : State.step ⟨frames, e⟩ .openArray = some ⟨.array [] :: frames, .itemOrClose⟩ := by
      rcases he with rfl | rfl <;> rfl
    rw [tokens, itemTokens_eq, ofJson, ofItems_eq, List.cons_append, List.append_assoc]
    refine (State.run_cons hopen _).trans ?_
    cases items with
    | nil => exact State.run_cons rfl ts
    | cons j rest =>
      obtain ⟨hj, hrest⟩ := List.forall_mem_cons.1 ih
      rw [List.map_cons, intercalate_cons, List.append_assoc]
      exact (hj _ _ _ (.inr rfl)).trans (run_items hrest [ofJson j] frames ts)
  | obj members ih =>
    intro frames e ts he
    have hopen : State.step ⟨frames, e⟩ .openObject = some ⟨frames, .nameOrClose []⟩ := by
      rcases he with rfl | rfl <;> rfl
    rw [tokens, memberTokens_eq, ofJson, ofMembers_eq, List.cons_append, List.append_assoc]
    refine (State.run_cons hopen _).trans ?_
    cases members with
    | nil => exact State.run_cons rfl ts
    | cons m rest =>
      obtain ⟨hm, hrest⟩ := List.forall_mem_cons.1 ih
      rw [List.map_cons, intercalate_cons, List.append_assoc]
      refine (State.run_cons rfl _).trans ((State.run_cons rfl _).trans ?_)
      exact (hm _ _ _ (.inl rfl)).trans (run_members hrest [(some m.1, ofJson m.2)] frames none ts)

theorem itemsToJson?_ofJson {limit : Nat} {items : List Json}
    (h : ∀ j ∈ items, (ofJson j).toJson? limit = some j) :
    itemsToJson? limit (items.map ofJson) = some items := by
  induction items with
  | nil => rfl
  | cons j rest ih =>
    obtain ⟨hj, hrest⟩ := List.forall_mem_cons.1 h
    rw [List.map_cons, itemsToJson?, hj, ih hrest]
    rfl

theorem membersToJson?_ofJson {limit : Nat} {members : List (String × Json)}
    (h : ∀ m ∈ members, (ofJson m.2).toJson? limit = some m.2) :
    membersToJson? limit (members.map fun m => (some m.1, ofJson m.2)) = some members := by
  induction members with
  | nil => rfl
  | cons m rest ih =>
    obtain ⟨hm, hrest⟩ := List.forall_mem_cons.1 h
    rw [List.map_cons, membersToJson?, hm, ih hrest]
    rfl

end Written

/-! ## Values that a text can hold -/

mutual

/-- A text whose containers nest less than `limit` deep can hold the value: its numbers are in
range, its members in key order. -/
def Fits (limit : Nat) : Json → Prop
  | .null | .bool _ | .str _ => True
  | .num n => n.Valid
  | .arr items => 1 < limit ∧ ItemsFit (limit - 1) items
  | .obj members => 1 < limit ∧ Keyed.Ordered members ∧ MembersFit (limit - 1) members

def ItemsFit (limit : Nat) : List Json → Prop
  | [] => True
  | j :: rest => j.Fits limit ∧ ItemsFit limit rest

def MembersFit (limit : Nat) : List (String × Json) → Prop
  | [] => True
  | (_, j) :: rest => j.Fits limit ∧ MembersFit limit rest

end

theorem itemsFit_iff {limit : Nat} {items : List Json} :
    ItemsFit limit items ↔ ∀ j ∈ items, j.Fits limit := by
  induction items with
  | nil => simp [ItemsFit]
  | cons j rest ih => rw [ItemsFit, ih, List.forall_mem_cons]

theorem membersFit_iff {limit : Nat} {members : List (String × Json)} :
    MembersFit limit members ↔ ∀ m ∈ members, m.2.Fits limit := by
  induction members with
  | nil => simp [MembersFit]
  | cons m rest ih => rw [MembersFit, ih, List.forall_mem_cons]

theorem fits_arr_iff {limit : Nat} {items : List Json} :
    (arr items).Fits limit ↔ 1 < limit ∧ ∀ j ∈ items, j.Fits (limit - 1) := by
  rw [Fits, itemsFit_iff]

theorem fits_obj_iff {limit : Nat} {members : List (String × Json)} :
    (obj members).Fits limit ↔
      1 < limit ∧ Keyed.Ordered members ∧ ∀ m ∈ members, m.2.Fits (limit - 1) := by
  rw [Fits, membersFit_iff]

open Token (Reads numberEnds_nil numberEnds_cons scanOne_quote)
open Written (State)

theorem Token.Reads.quote (s : String) : Reads (quote s).toList [.string (some s)] :=
  .one (by simp [Json.quote]) (scanOne_quote s)

/-- The text of a value is made of its tokens. -/
theorem reads_text (j : Json) {limit : Nat} (hj : j.Fits limit) : Reads j.text.toList j.tokens := by
  induction j using Json.induct generalizing limit with
  | null => exact .one (List.cons_ne_nil _ _) fun _ => rfl
  | bool b => cases b <;> exact .one (List.cons_ne_nil _ _) fun _ => rfl
  | num n => exact .number fun rest => Number.scanNumber_text hj
  | str s => exact .quote s
  | arr items ih =>
    obtain ⟨-, hitems⟩ := fits_arr_iff.1 hj
    have hread := Reads.intercalate fun j hj => ih j hj (hitems j hj)
    have hclose := Reads.nil.mark (c := ']') (t := .closeArray) (by simp)
    have htext : (arr items).text.toList =
        '[' :: ([','].intercalate (items.map fun j => j.text.toList) ++ [']']) := by
      simp [text, itemTexts_eq, String.toList_intercalate, Function.comp_def]
    rw [htext, tokens, itemTokens_eq]
    exact (hread.append hclose fun _ _ => numberEnds_cons (by simp) _).mark (by simp)
  | obj members ih =>
    obtain ⟨-, -, hmembers⟩ := fits_obj_iff.1 hj
    have hread : Reads ([','].intercalate (members.map fun m => (memberText m).toList))
        ([.comma].intercalate (members.map memberToken)) := by
      refine Reads.intercalate fun m hm => ?_
      have hname : (memberText m).toList = (quote m.1).toList ++ ':' :: m.2.text.toList := by
        simp [memberText]
      rw [hname]
      exact ((ih m hm (hmembers m hm)).mark (by simp)).cons (by simp [quote]) (scanOne_quote m.1)
    have hclose := Reads.nil.mark (c := '\x7d') (t := .closeObject) (by simp)
    have htext : (obj members).text.toList =
        '\x7b' :: ([','].intercalate (members.map fun m => (memberText m).toList) ++ ['\x7d']) := by
      simp [text, memberTexts_eq, String.toList_intercalate, Function.comp_def]
    rw [htext, tokens, memberTokens_eq]
    exact (hread.append hclose fun _ _ => numberEnds_cons (by simp) _).mark (by simp)

/-- The text of a value is read as the value. -/
theorem read?_text {j : Json} {limit : Nat} (hj : j.Fits limit) :
    Written.read? j.text = some (Written.ofJson j) := by
  have hscan : Token.scan j.text = some j.tokens := by
    refine Token.scan_of_spells ?_
    have h := reads_text j hj numberEnds_nil .nil
    rwa [List.append_nil, List.append_nil] at h
  have hrun : State.run ⟨[], .value⟩ j.tokens = some (Written.ofJson j) := by
    have h := Written.runsAs j [] .value [] (.inl rfl)
    rw [List.append_nil] at h
    rw [h]
    rfl
  rw [Written.read?, hscan]
  exact hrun

namespace Written

/-- What is written for a value stands for the value. -/
theorem toJson?_ofJson {j : Json} {limit : Nat} (hj : j.Fits limit) :
    (ofJson j).toJson? limit = some j := by
  induction j using Json.induct generalizing limit with
  | null => rfl
  | bool b => rfl
  | str s => rfl
  | num n => exact congrArg (Option.map Json.num) (Number.number?_numeral hj)
  | arr items ih =>
    obtain ⟨hlimit, hitems⟩ := fits_arr_iff.1 hj
    have hread := itemsToJson?_ofJson fun j hj => ih j hj (hitems j hj)
    rw [ofJson, ofItems_eq, toJson?, if_neg (Nat.not_le.2 hlimit), hread]
    rfl
  | obj members ih =>
    obtain ⟨hlimit, hordered, hmembers⟩ := fits_obj_iff.1 hj
    have hread := membersToJson?_ofJson fun m hm => ih m hm (hmembers m hm)
    rw [ofJson, ofMembers_eq, toJson?, if_neg (Nat.not_le.2 hlimit), hread]
    exact congrArg (some <| Json.obj ·) hordered.ofList_eq

theorem induct {motive : Written → Prop} (null : motive .null) (bool : ∀ b, motive (.bool b))
    (num : ∀ n, motive (.num n)) (str : ∀ s, motive (.str s))
    (arr : ∀ items, (∀ w ∈ items, motive w) → motive (.arr items))
    (obj : ∀ members, (∀ m ∈ members, motive m.2) → motive (.obj members)) (w : Written) :
    motive w :=
  @Written.rec motive (fun items => ∀ w ∈ items, motive w) (fun members => ∀ m ∈ members, motive m.2)
    (fun m => motive m.2) null bool num str arr obj
    nofun (fun _ _ hhead htail => List.forall_mem_cons.2 ⟨hhead, htail⟩)
    nofun (fun _ _ hhead htail => List.forall_mem_cons.2 ⟨hhead, htail⟩) (fun _ _ h => h) w

theorem mem_of_itemsToJson? {limit : Nat} {items : List Written} {js : List Json} {j : Json}
    (h : itemsToJson? limit items = some js) (hj : j ∈ js) :
    ∃ w ∈ items, w.toJson? limit = some j := by
  induction items generalizing js with
  | nil =>
    obtain rfl : [] = js := Option.some.inj h
    cases hj
  | cons w rest ih =>
    rw [itemsToJson?] at h
    obtain ⟨j', hj', h⟩ := Option.bind_eq_some_iff.1 h
    obtain ⟨js', hjs', h⟩ := Option.bind_eq_some_iff.1 h
    obtain rfl : j' :: js' = js := Option.some.inj h
    rcases List.mem_cons.1 hj with rfl | hj
    · exact ⟨w, List.mem_cons_self, hj'⟩
    · obtain ⟨w', hw', hread⟩ := ih hjs' hj
      exact ⟨w', List.mem_cons_of_mem _ hw', hread⟩

theorem mem_of_membersToJson? {limit : Nat} {members : List (Option String × Written)}
    {js : List (String × Json)} {p : String × Json} (h : membersToJson? limit members = some js)
    (hp : p ∈ js) : ∃ m ∈ members, m.1 = some p.1 ∧ m.2.toJson? limit = some p.2 := by
  induction members generalizing js with
  | nil =>
    obtain rfl : [] = js := Option.some.inj h
    cases hp
  | cons m rest ih =>
    obtain ⟨name, w⟩ := m
    rw [membersToJson?] at h
    obtain ⟨k, hk, h⟩ := Option.bind_eq_some_iff.1 h
    obtain ⟨j', hj', h⟩ := Option.bind_eq_some_iff.1 h
    obtain ⟨js', hjs', h⟩ := Option.bind_eq_some_iff.1 h
    obtain rfl : (k, j') :: js' = js := Option.some.inj h
    rcases List.mem_cons.1 hp with rfl | hp
    · exact ⟨_, List.mem_cons_self, hk, hj'⟩
    · obtain ⟨m', hm', hread⟩ := ih hjs' hp
      exact ⟨m', List.mem_cons_of_mem _ hm', hread⟩

theorem fits_of_toJson? {w : Written} {j : Json} {limit : Nat} (h : w.toJson? limit = some j) :
    j.Fits limit := by
  induction w using Written.induct generalizing j limit with
  | null =>
    obtain rfl : Json.null = j := Option.some.inj h
    trivial
  | bool b =>
    obtain rfl : Json.bool b = j := Option.some.inj h
    trivial
  | num n =>
    obtain ⟨x, hx, rfl⟩ := Option.map_eq_some_iff.1 h
    exact n.valid_of_number? hx
  | str s =>
    obtain ⟨s, -, rfl⟩ := Option.map_eq_some_iff.1 h
    trivial
  | arr items ih =>
    rw [toJson?] at h
    split at h
    · cases h
    · next hlimit =>
      obtain ⟨js, hjs, rfl⟩ := Option.map_eq_some_iff.1 h
      refine fits_arr_iff.2 ⟨Nat.not_le.1 hlimit, fun j hj => ?_⟩
      obtain ⟨w, hw, hread⟩ := mem_of_itemsToJson? hjs hj
      exact ih w hw hread
  | obj members ih =>
    rw [toJson?] at h
    split at h
    · cases h
    · next hlimit =>
      obtain ⟨js, hjs, rfl⟩ := Option.map_eq_some_iff.1 h
      refine fits_obj_iff.2 ⟨Nat.not_le.1 hlimit, Keyed.ordered_ofList js, fun p hp => ?_⟩
      obtain ⟨m, hm, -, hread⟩ := mem_of_membersToJson? hjs (Keyed.mem_of_mem_ofList hp)
      exact ih m hm hread

end Written

/-- The text of a value is a text of the value. -/
theorem parse?_text {j : Json} (hj : j.Fits nestingLimit) : parse? j.text = some j := by
  rw [parse?, read?_text hj]
  exact Written.toJson?_ofJson hj

theorem text_injective {j j' : Json} (hj : j.Fits nestingLimit) (hj' : j'.Fits nestingLimit)
    (h : j.text = j'.text) : j = j' :=
  Option.some.inj ((parse?_text hj).symm.trans (h ▸ parse?_text hj'))

end BlockEngine.Json
