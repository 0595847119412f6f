import Mathlib.Data.List.Forall2
import BlockEngine.Proofs.Conduct
import BlockEngine.Proofs.Inputs
import BlockEngine.Site.Menu

/-!
# What menus read

A menu input is read from the array as it is written: its payload names a block, and a field of that
block holds the selected option.

* `Site.menuSelection_eq_ok_iff` : when an option is selected, and which;
* `Site.menu_names_block` : the tag is not looked at, so a menu reads the block that a payload names
  also where the decoded input is no reference to a block;
* `Site.menuValues_of_required` : a required menu refuses an empty selection before it is parted, so
  that a selection made of delimiters has no item left.
-/

namespace BlockEngine

/-- A list is read item by item, in its order. -/
theorem mapM_eq_ok_iff_forall₂ {ε α β : Type} {f : α → Except ε β} {xs : List α} {ys : List β} :
    xs.mapM f = .ok ys ↔ List.Forall₂ (fun x y => f x = .ok y) xs ys := by
  induction xs generalizing ys with
  | nil => simp [pure, Except.pure, eq_comm]
  | cons x xs ih =>
    rw [List.mapM_cons, bind_eq_ok_iff, List.forall₂_cons_left_iff]
    constructor
    · rintro ⟨y, hy, h⟩
      obtain ⟨ys', hys, h⟩ := bind_eq_ok_iff.1 h
      exact ⟨y, ys', hy, ih.1 hys, (Except.ok.inj h).symm⟩
    · rintro ⟨y, ys', hy, hys, rfl⟩
      exact ⟨y, hy, bind_eq_ok_iff.2 ⟨ys', ih.2 hys, rfl⟩⟩

/-- The option that is selected in a menu block: the field of the declared menu, or else the first
one. -/
def Block.selection (b : Block) : Option Menu → String
  | some m => (b.fieldValue? m.field).getD ""
  | none => ((b.firstField?).map (·.2.value.toText)).getD ""

/-- A text as a payload names a block under the tags of references, and is a literal under the other
one. Under anything else it is no input. -/
theorem Input.decode_of_text {name id : String} {raw : List Json} {i : Input}
    (hid : raw[1]? = some (.str id)) : decode name raw = .ok i ↔
      (∃ rest, raw = .ofInt i.tag.code :: rest) ∧
        i.content = if i.tag = .literal then .literal (.str id) else .block id := by
  have hpayload : payloadOf raw = .str id := by
    unfold payloadOf
    rw [hid]
    rfl
  rw [decode_eq_ok_iff, hpayload]
  refine and_congr_right fun _ => ?_
  obtain ⟨tag, content⟩ := i
  constructor
  · intro h
    cases h with
    | literal => exact (if_pos rfl).symm
    | block _ hne => exact (if_neg hne).symm
  · intro h
    dsimp only at h ⊢
    rw [h]
    by_cases htag : tag = .literal
    · rw [if_pos htag, htag]
      exact .literal _
    · rw [if_neg htag]
      exact .block id htag

theorem Json.str?_eq_some_iff {j : Json} {s : String} : j.str? = some s ↔ j = .str s := by
  cases j <;> simp [str?]

namespace Site

variable {env : Environment} {s : Site} {key selection delimiter : String} {menu : Option Menu}
  {target : MenuTarget}

/-- The selection in the block that a payload names. A required menu takes neither nothing nor a
hyphen for an option. -/
theorem menuSelection_of_block {raw : List Json} {id : String} {b : Block}
    (hraw : s.block.rawInput? key = some raw) (hid : raw[1]? = some (.str id))
    (hb : s.generation.graph.get? id = some b) :
    s.menuSelection key menu =
      if (menu.map (·.isRequired)).getD false &&
          (b.selection menu = "" || b.selection menu = "-") then
        .error (.malformedInput key .menuValueNotFound)
      else .ok (b.selection menu) := by
  have hread : s.menuSelection key menu =
      (s.generation.graph.block id >>= fun b =>
        if (menu.map (·.isRequired)).getD false &&
            (b.selection menu = "" || b.selection menu = "-") then
          .error (.malformedInput key .menuValueNotFound)
        else .ok (b.selection menu)) := by
    unfold menuSelection
    rw [hraw]
    simp only [Option.bind_some, hid, Json.str?]
    cases menu <;> rfl
  rw [hread, Graph.block_eq_ok_iff.2 hb]
  rfl

/-- An option is selected if the payload names a block of the graph and the menu takes the option. -/
theorem menuSelection_eq_ok_iff : s.menuSelection key menu = .ok selection ↔
    ∃ raw id b, s.block.rawInput? key = some raw ∧ raw[1]? = some (.str id) ∧
      s.generation.graph.get? id = some b ∧ b.selection menu = selection ∧
      ((menu.map (·.isRequired)).getD false = true → selection ≠ "" ∧ selection ≠ "-") := by
  constructor
  · intro h
    have hnamed : ∃ raw id b, s.block.rawInput? key = some raw ∧ raw[1]? = some (.str id) ∧
        s.generation.graph.get? id = some b := by
      unfold menuSelection at h
      split at h
      · next id hid =>
        obtain ⟨payload, hpayload, hid⟩ := Option.bind_eq_some_iff.1 hid
        obtain ⟨raw, hraw, hpayload⟩ := Option.bind_eq_some_iff.1 hpayload
        rw [Json.str?_eq_some_iff.1 hid] at hpayload
        obtain ⟨b, hb, -⟩ := bind_eq_ok_iff.1 h
        exact ⟨raw, id, b, hraw, hpayload, Graph.block_eq_ok_iff.1 hb⟩
      · cases h
    obtain ⟨raw, id, b, hraw, hid, hb⟩ := hnamed
    rw [menuSelection_of_block hraw hid hb] at h
    split_ifs at h with hrefused
    obtain rfl := Except.ok.inj h
    refine ⟨raw, id, b, hraw, hid, hb, rfl, fun hrequired => ?_⟩
    simpa [hrequired] using hrefused
  · rintro ⟨raw, id, b, hraw, hid, hb, rfl, htaken⟩
    rw [menuSelection_of_block hraw hid hb, if_neg]
    intro hrefused
    simp only [Bool.and_eq_true, Bool.or_eq_true, decide_eq_true_eq] at hrefused
    obtain ⟨hne, hhyphen⟩ := htaken hrefused.1
    exact hrefused.2.elim hne hhyphen

/-! ## The block a menu reads -/

/-- What a menu reads is in a block that the payload names, whatever stands before it. The decoded
input is a reference to that block under the tags of references alone. -/
theorem menu_names_block (h : (∃ v, s.menuValue env key target = .ok v) ∨
    ∃ vs, s.menuValues env key target delimiter = .ok vs) :
    ∃ raw id b, s.block.rawInput? key = some raw ∧ raw[1]? = some (.str id) ∧
      s.generation.graph.get? id = some b ∧
      s.menuSelection key (s.declaredMenu? env key) = .ok (b.selection (s.declaredMenu? env key)) ∧
      ∀ i, Input.decode key raw = .ok i ↔ (∃ rest, raw = .ofInt i.tag.code :: rest) ∧
        i.content = if i.tag = .literal then .literal (.str id) else .block id := by
  have hselection : ∃ selection, s.menuSelection key (s.declaredMenu? env key) = .ok selection := by
    rcases h with ⟨v, h⟩ | ⟨vs, h⟩
    · obtain ⟨selection, hselection, -⟩ := bind_eq_ok_iff.1 h
      exact ⟨selection, hselection⟩
    · obtain ⟨selection, hselection, -⟩ := bind_eq_ok_iff.1 h
      exact ⟨selection, hselection⟩
  obtain ⟨selection, hselection⟩ := hselection
  obtain ⟨raw, id, b, hraw, hid, hb, rfl, -⟩ := menuSelection_eq_ok_iff.1 hselection
  exact ⟨raw, id, b, hraw, hid, hb, hselection, fun i => Input.decode_of_text hid⟩

end Site

/-- A graph with a single menu block, in which an option is selected. -/
def Graph.ofOption (option : String) : Graph where
  blocks := [{ Block.placeholder "menu" with fields := [("MODE", ⟨.str option, none⟩)] }]
  extra := []

/-- All inputs have a required menu. -/
def requiredMenus : Environment where
  settings := ⟨100, 20, 256⟩
  menu? _ _ := some ⟨"modes", "MODE", .server "rest/modes" true⟩
  entities := none

/-- An array under a tag that there is not is no input, and a menu reads it. -/
theorem menu_reads_unknown_tag :
    let raw : List Json := [.ofInt 4, .str "menu"]
    let s := Site.ofInputs (.ofOption "on") [("MODE", raw)]
    s.menuValue requiredMenus "MODE" .text = .ok (.str "on") ∧
      s.menuValues requiredMenus "MODE" .text "," = .ok [.str "on"] ∧
      Input.decode "MODE" raw = .error (.malformedInput "MODE" (.unknownTag 4)) := by
  refine ⟨?_, ?_, ?_⟩ <;> rfl

/-! ## Required menus -/

namespace Site

variable {env : Environment} {s : Site} {key selection delimiter : String} {target : MenuTarget}

/-- No part of a text holds anything exactly if the text is the delimiter, repeated. -/
theorem filter_splitText_eq_nil_iff (hd : delimiter ≠ "") :
    (splitText selection delimiter).filter (· ≠ "") = [] ↔
      ∃ n, selection.toList = (List.replicate n delimiter.toList).flatten := by
  have hempty : delimiter.isEmpty = false := by simpa using hd
  have hdelimiter : delimiter.toList ≠ [] := by simpa using hd
  rw [← partsBetween_eq_nil_iff hdelimiter]
  unfold splitText
  simp [hempty]

/-- A required menu selects neither nothing nor a hyphen. Its selection is looked at as a whole: the
items are the parts of it that hold anything, and there is none of them exactly if the selection is
made of delimiters. -/
theorem menuValues_of_required {m : Menu} (hm : s.declaredMenu? env key = some m)
    (hrequired : m.isRequired = true) (hd : delimiter ≠ "") :
    (∀ v, s.menuValue env key target = .ok v ↔ ∃ selection,
      s.menuSelection key (some m) = .ok selection ∧ selection ≠ "" ∧ selection ≠ "-" ∧
        convertItem env key selection target = .ok v) ∧
    (∀ vs, s.menuValues env key target delimiter = .ok vs ↔ ∃ selection,
      s.menuSelection key (some m) = .ok selection ∧ selection ≠ "" ∧ selection ≠ "-" ∧
        List.Forall₂ (fun item v => convertItem env key item target = .ok v)
          ((splitText selection delimiter).filter (· ≠ "")) vs) ∧
    (s.menuValues env key target delimiter = .ok [] ↔ ∃ selection n,
      s.menuSelection key (some m) = .ok selection ∧
        selection.toList = (List.replicate n delimiter.toList).flatten) := by
  have hselection : ∀ {selection : String}, s.menuSelection key (some m) = .ok selection →
      selection ≠ "" ∧ selection ≠ "-" := by
    intro selection h
    obtain ⟨-, -, -, -, -, -, -, htaken⟩ := menuSelection_eq_ok_iff.1 h
    exact htaken hrequired
  have hvalues : ∀ vs, s.menuValues env key target delimiter = .ok vs ↔ ∃ selection,
      s.menuSelection key (some m) = .ok selection ∧
        List.Forall₂ (fun item v => convertItem env key item target = .ok v)
          ((splitText selection delimiter).filter (· ≠ "")) vs := by
    intro vs
    unfold menuValues
    rw [hm, bind_eq_ok_iff]
    exact exists_congr fun selection => and_congr_right fun _ => mapM_eq_ok_iff_forall₂
  have htaken : ∀ {selection : String} {p : Prop}, s.menuSelection key (some m) = .ok selection →
      (p ↔ selection ≠ "" ∧ selection ≠ "-" ∧ p) := by
    intro selection p h
    obtain ⟨hne, hhyphen⟩ := hselection h
    exact ⟨fun hp => ⟨hne, hhyphen, hp⟩, fun hp => hp.2.2⟩
  refine ⟨fun v => ?_, fun vs => ?_, ?_⟩
  · unfold menuValue
    rw [hm, bind_eq_ok_iff]
    exact exists_congr fun selection => and_congr_right htaken
  · rw [hvalues]
    exact exists_congr fun selection => and_congr_right htaken
  · rw [hvalues]
    refine exists_congr fun selection => ?_
    rw [List.forall₂_nil_right_iff, filter_splitText_eq_nil_iff hd, exists_and_left]

end Site

/-- A hyphen is refused by itself and taken as one of several items; of two empty items nothing is
left. -/
theorem required_menu_lets_through :
    let s option := Site.ofInputs (.ofOption option) [("MODE", [.ofInt 1, .str "menu"])]
    (s "-").menuValue requiredMenus "MODE" .text =
        .error (.malformedInput "MODE" .menuValueNotFound) ∧
      (s "-,a").menuValues requiredMenus "MODE" .text "," = .ok [.str "-", .str "a"] ∧
      (s ",").menuValues requiredMenus "MODE" .text "," = .ok [] := by
  refine ⟨?_, ?_, ?_⟩ <;> rfl

end BlockEngine
