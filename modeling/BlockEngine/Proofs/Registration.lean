import BlockEngine.Registry
import BlockEngine.Proofs.GraphText

/-!
# Which registered blocks documents can name

A document names a block by the text of its opcode. Registration takes ids with underscores, while a
text is split at its first one.

* `Opcode.name_ofText_text` : when the text of an opcode is read with the opcode's own name;
* `Registry.registerEach` : the registry after requests in any order, those turned down included;
* `Registry.extension?_registerEach` : an extension that was taken in stays as it is;
* `Registry.lookup_text_iff` : which registered blocks are found by the text of their opcode.
-/

namespace BlockEngine

/-! ## Opcodes -/

namespace Opcode

/-- A text with an underscore names what stands behind the first one. -/
theorem name_ofText {raw : String} {pre post : List Char} (hpre : '_' ∉ pre)
    (h : raw.toList = pre ++ '_' :: post) : (ofText raw).name.toList = post := by
  rw [← String.ofList_toList (s := raw), h, ofText_append hpre, String.toList_ofList]

/-- An opcode is read back from its text if that is split where it was put together. -/
theorem ofText_text_of_split {o : Opcode} (hext : '_' ∉ o.extension.toList)
    (hname : o.extension = "" → '_' ∉ o.name.toList) : ofText o.text = o := by
  refine (ofText_text hext).2 ?_
  by_cases hempty : o.extension = ""
  · exact .inr (hname hempty)
  · exact .inl hempty

/-- The text of an opcode is read with the opcode's own name only then. -/
theorem name_ofText_text {o : Opcode} :
    (ofText o.text).name = o.name ↔
      '_' ∉ o.extension.toList ∧ (o.extension = "" → '_' ∉ o.name.toList) := by
  constructor
  · intro hname
    -- An underscore further left would leave a name of another length.
    have hsplit : ∀ pre post, '_' ∉ pre → o.text.toList = pre ++ '_' :: post →
        o.name.toList.length = post.length := fun pre post hpre h => by
      rw [← hname, name_ofText hpre h]
    refine ⟨fun hmem => ?_, fun hempty hmem => ?_⟩
    · obtain ⟨pre, post, hext, hpre⟩ := List.eq_append_cons_of_mem hmem
      have hne : ¬ o.extension.isEmpty = true := fun h => by
        rw [String.isEmpty_iff.1 h] at hmem
        exact List.not_mem_nil hmem
      have hlength := hsplit pre (post ++ '_' :: o.name.toList) hpre
        (by rw [text, if_neg hne]; simp [hext])
      rw [List.length_append, List.length_cons] at hlength
      omega
    · obtain ⟨pre, post, hown, hpre⟩ := List.eq_append_cons_of_mem hmem
      have hlength := hsplit pre post hpre (by rw [text, hempty]; exact hown)
      rw [hown, List.length_append, List.length_cons] at hlength
      omega
  · rintro ⟨hext, hname⟩
    rw [ofText_text_of_split hext hname]

/-- The underscore of an extension's id is taken for the one behind it. -/
example : ofText (text ⟨"my-ext_2", "print"⟩) = ⟨"my-ext", "2_print"⟩ := by
  decide +kernel

end Opcode

/-! ## Requests to register -/

namespace Registry

variable {κ ρ : Type} {r r' : Registry κ ρ} {e : Extension κ ρ} {b : BlockSpec κ ρ} {name : String}

/-- The registry after requests one after the other. One that is turned down changes nothing. -/
def registerEach (r : Registry κ ρ) (es : List (Extension κ ρ)) : Registry κ ρ :=
  es.foldl (fun r e => (r.register e).toOption.getD r) r

theorem extension?_of_register (h : r.register e = .ok r') (id : String) :
    r'.extension? id = if id = e.id then some e else r.extension? id := by
  unfold register at h
  split at h
  · cases h
  · split at h
    · cases h
    · obtain rfl := Except.ok.inj h
      exact Keyed.get?_insert ..

/-- A request changes nothing about the extensions that are there. -/
theorem extension?_of_some {id : String} (h : r.extension? id = some e) (e' : Extension κ ρ) :
    ((r.register e').toOption.getD r).extension? id = some e := by
  cases hreg : r.register e' with
  | error err => exact h
  | ok r' =>
    have hnew : id ≠ e'.id := by
      rintro rfl
      unfold register at hreg
      rw [h] at hreg
      split at hreg <;> cases hreg
    exact (extension?_of_register hreg id).trans ((if_neg hnew).trans h)

/-- An extension that was taken in stays as it is. -/
theorem extension?_registerEach {id : String} (h : r.extension? id = some e)
    (es : List (Extension κ ρ)) : (r.registerEach es).extension? id = some e := by
  induction es generalizing r with
  | nil => exact h
  | cons e' es ih => exact ih (extension?_of_some h e')

theorem opcode_of_block? (h : e.block? name = some b) : b.opcode = name := by
  simpa using List.find?_some h

/-! ## Lookup -/

/-- Whatever requests came before and after the one that took an extension in, a block of it is
found by the text of its opcode exactly if that text is split where it was put together: the id has
no underscore, and if it is empty the name of the block has none either. -/
theorem lookup_text_iff (r : Registry κ ρ) {before after : List (Extension κ ρ)}
    (hreg : (r.registerEach before).register e = .ok r') (hb : e.block? name = some b) :
    (r'.registerEach after).lookup (.ofText (Opcode.text ⟨e.id, name⟩)) = .ok b ↔
      '_' ∉ e.id.toList ∧ (e.id = "" → '_' ∉ name.toList) := by
  have hext : (r'.registerEach after).extension? e.id = some e :=
    extension?_registerEach ((extension?_of_register hreg e.id).trans (if_pos rfl)) after
  constructor
  · intro hlookup
    refine (Opcode.name_ofText_text (o := ⟨e.id, name⟩)).1 ?_
    unfold lookup at hlookup
    split at hlookup
    · cases hlookup
    · split at hlookup
      · cases hlookup
      · next hfound =>
        obtain rfl := Except.ok.inj hlookup
        exact (opcode_of_block? hfound).symm.trans (opcode_of_block? hb)
  · rintro ⟨hid, hname⟩
    rw [Opcode.ofText_text_of_split (o := ⟨e.id, name⟩) hid hname]
    simp only [lookup, hext, hb]

end Registry
end BlockEngine
