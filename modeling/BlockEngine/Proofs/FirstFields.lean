import BlockEngine.Proofs.Menus
import BlockEngine.Proofs.RoundTrip

/-!
# The first field of a block

A menu input whose menu is not declared reads the first field of its menu block. Fields are kept by
name, so this is the field of the least name, wherever it stands in the text.

* `Graph.firstField?_of_parse` : the first field of a block that was read from a text;
* `Site.menuSelection_of_parse` : what an undeclared menu reads;
* `menu_reads_field_written_last` : a text in which this field is not the first one written.
-/

namespace BlockEngine

/-- At the head of keyed pairs is the pair of the least key. -/
theorem Keyed.Ordered.head?_eq_some_iff {α : Type} {m : Keyed α} (h : Ordered m) {p : String × α} :
    m.head? = some p ↔ p ∈ m ∧ ∀ q ∈ m, q = p ∨ p.1 < q.1 := by
  cases m with
  | nil => exact ⟨nofun, fun hp => nomatch hp.1⟩
  | cons a rest =>
    have hleast := (List.pairwise_cons.1 h).1
    rw [List.head?_cons, Option.some.injEq]
    constructor
    · rintro rfl
      refine ⟨List.mem_cons_self, fun q hq => ?_⟩
      rcases List.mem_cons.1 hq with rfl | hq
      · exact .inl rfl
      · exact .inr (hleast q hq)
    · rintro ⟨hp, hall⟩
      rcases List.mem_cons.1 hp with rfl | hp
      · rfl
      · refine (hall a List.mem_cons_self).resolve_right fun hlt => ?_
        exact String.lt_irrefl _ (String.lt_trans hlt (hleast p hp))

/-- The first field of a block is the field of the least name. -/
theorem Graph.firstField?_of_parse {content : String} {g : Graph} (h : Graph.parse content = .ok g)
    {b : Block} (hb : b ∈ g.blocks) {p : String × Field} :
    b.firstField? = some p ↔ p ∈ b.fields ∧ ∀ q ∈ b.fields, q = p ∨ p.1 < q.1 :=
  ((held_of_parse h).blocks b hb).fields.head?_eq_some_iff

/-- An undeclared menu reads the field of the least name of the block that its input names. -/
theorem Site.menuSelection_of_parse {content : String} {s : Site}
    (h : Graph.parse content = .ok s.generation.graph) {key id : String} {raw : List Json}
    (hraw : s.block.rawInput? key = some raw) (hid : raw[1]? = some (.str id)) {b : Block}
    (hb : s.generation.graph.get? id = some b) {p : String × Field} (hp : p ∈ b.fields)
    (hleast : ∀ q ∈ b.fields, q = p ∨ p.1 < q.1) :
    s.menuSelection key none = .ok p.2.value.toText := by
  have hfirst : b.firstField? = some p :=
    (Graph.firstField?_of_parse h (List.mem_of_find?_eq_some hb)).2 ⟨hp, hleast⟩
  rw [menuSelection_of_block hraw hid hb]
  simp [Block.selection, hfirst]

/-- The field `b` is written first, and the field `a` is read. -/
theorem menu_reads_field_written_last :
    ∃ content g b, Graph.parse content = .ok g ∧ b ∈ g.blocks ∧
      content = "\x7b\"target\":\x7b\"blocks\":\x7b\"m\":\x7b\"opcode\":\"x_y\",\"topLevel\":false," ++
        "\"fields\":\x7b\"b\":[\"first\"],\"a\":[\"second\"]\x7d\x7d\x7d\x7d\x7d" ∧
      (b.firstField?).map (·.1) = some "a" := by
  let content := "\x7b\"target\":\x7b\"blocks\":\x7b\"m\":\x7b\"opcode\":\"x_y\",\"topLevel\":false," ++
    "\"fields\":\x7b\"b\":[\"first\"],\"a\":[\"second\"]\x7d\x7d\x7d\x7d\x7d"
  have hread : (Graph.parse content).toOption.map
      (fun g => g.blocks.map fun b => (b.firstField?).map (·.1)) = some [some "a"] := by
    decide +kernel
  cases hg : Graph.parse content with
  | error _ => rw [hg] at hread; cases hread
  | ok g =>
    rw [hg] at hread
    have hfields : g.blocks.map (fun b => (b.firstField?).map (·.1)) = [some "a"] :=
      Option.some.inj hread
    obtain ⟨b, hb, hfirst⟩ := List.mem_map.1 (hfields ▸ List.mem_singleton_self _)
    exact ⟨content, g, b, hg, hb, rfl, hfirst⟩

end BlockEngine
