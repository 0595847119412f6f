import BlockEngine.Proofs.Chains

/-!
# Named values of a block and the blocks around it

A named value is looked up on a block, then on the block around it, and so on. Links may lead in
circles; the look-up has no list of the blocks it has seen, it only counts.

* `Graph.Ancestry` : the blocks from one on, each around the one before, up to the first seen again;
* `World.valueFrom?_of_circle` : nothing is found on blocks that have nothing and lead to each other;
* `World.value?_closest` : what is found is the value of the closest block that has one.
-/

namespace BlockEngine

/-- The blocks from one on, each around the one before, up to where there is none or to the first
that has been seen. -/
inductive Graph.Ancestry (g : Graph) : List String → Option Block → List Block → Prop
  | outermost {seen : List String} : Ancestry g seen none []
  | seen {seen : List String} {b : Block} : b.id ∈ seen → Ancestry g seen (some b) []
  | next {seen : List String} {b : Block} {bs : List Block} :
      b.id ∉ seen → Ancestry g (b.id :: seen) (g.parentOf? b.id) bs →
      Ancestry g seen (some b) (b :: bs)

namespace Graph

variable {g : Graph} {a b : Block} {cur : Option Block} {seen : List String} {id : String}
  {bs bs' : List Block}

theorem Ancestry.unique (h : g.Ancestry seen cur bs) (h' : g.Ancestry seen cur bs') : bs' = bs := by
  induction h generalizing bs' with
  | outermost =>
    cases h'
    rfl
  | seen hb =>
    cases h' with
    | seen => rfl
    | next hnew => exact absurd hb hnew
  | next hnew _ ih =>
    cases h' with
    | seen hb => exact absurd hb hnew
    | next _ hrest => rw [ih hrest]

/-- At least the block itself is in its ancestry. -/
theorem Ancestry.eq_nil_iff (h : g.Ancestry [] cur bs) : bs = [] ↔ cur = none := by
  cases h with
  | outermost => exact ⟨fun _ => rfl, fun _ => rfl⟩
  | seen hb => cases hb
  | next => exact ⟨nofun, nofun⟩

theorem parentOf?_of_get? (h : g.get? b.id = some b) : g.parentOf? b.id = b.parent.bind g.get? := by
  unfold parentOf?
  rw [h]
  rfl

theorem get?_of_parentOf? (h : g.parentOf? id = some b) : g.get? b.id = some b := by
  obtain ⟨a, -, hparent⟩ := Option.bind_eq_some_iff.1 h
  obtain ⟨parent, -, hb⟩ := Option.bind_eq_some_iff.1 hparent
  exact get?_id_of_get? hb

/-- There is an ancestry: the blocks that have not been seen become fewer and fewer. -/
theorem Fueled.exists_ancestry {fuel : Nat} (h : g.Fueled fuel seen)
    (hcur : ∀ b, cur = some b → g.get? b.id = some b) : ∃ bs, g.Ancestry seen cur bs := by
  induction fuel generalizing seen cur with
  | zero => exact absurd h.pos (Nat.lt_irrefl 0)
  | succ fuel ih =>
    cases cur with
    | none => exact ⟨[], .outermost⟩
    | some b =>
      by_cases hseen : b.id ∈ seen
      · exact ⟨[], .seen hseen⟩
      · obtain ⟨bs, hbs⟩ := ih (h.next (hcur b rfl) hseen) fun c hc => get?_of_parentOf? hc
        exact ⟨b :: bs, .next hseen hbs⟩

end Graph

namespace World

variable {w : World} {g : Generation} {key : String} {fuel : Nat} {b : Block} {cur : Option Block}
  {seen : List String} {bs : List Block}

/-- What a look-up does at a block. -/
theorem valueFrom?_succ (hb : g.graph.get? b.id = some b) :
    w.valueFrom? g key (fuel + 1) (some b) =
      (w.ownValue? g.number b.id key).or
        (w.valueFrom? g key fuel (g.graph.parentOf? b.id)) := by
  rw [valueFrom?, Graph.parentOf?_of_get? hb]
  cases w.ownValue? g.number b.id key <;> rfl

theorem valueFrom?_none : w.valueFrom? g key fuel none = none := by
  cases fuel <;> rfl

/-- Blocks that have no value and lead to none but each other have nothing to be found, however long
the look-up goes on. -/
theorem valueFrom?_of_circle (hlacks : ∀ id ∈ seen, w.ownValue? g.number id key = none)
    (hcircle : ∀ id ∈ seen, ∀ b, g.graph.parentOf? id = some b → b.id ∈ seen)
    (hb : g.graph.get? b.id = some b) (hseen : b.id ∈ seen) :
    w.valueFrom? g key fuel (some b) = none := by
  induction fuel generalizing b with
  | zero => rfl
  | succ fuel ih =>
    rw [valueFrom?_succ hb, hlacks _ hseen, Option.none_or]
    cases hparent : g.graph.parentOf? b.id with
    | none => exact valueFrom?_none
    | some c => exact ih (Graph.get?_of_parentOf? hparent) (hcircle _ hseen c hparent)

/-- A look-up that has seen only blocks without a value goes through the ancestry from there on: its
fuel lasts until a block is seen again, and all that follows then has been seen as well. -/
theorem valueFrom?_of_ancestry (h : g.graph.Ancestry seen cur bs) (hfuel : g.graph.Fueled fuel seen)
    (hcur : ∀ b, cur = some b → g.graph.get? b.id = some b)
    (hlacks : ∀ id ∈ seen, w.ownValue? g.number id key = none)
    (hleads : ∀ id ∈ seen, ∀ b, g.graph.parentOf? id = some b → b.id ∈ seen ∨ cur = some b) :
    w.valueFrom? g key fuel cur = bs.findSome? fun b => w.ownValue? g.number b.id key := by
  induction h generalizing fuel with
  | outermost => exact valueFrom?_none
  | @seen seen b hseen =>
    refine valueFrom?_of_circle hlacks (fun id hid c hc => ?_) (hcur b rfl) hseen
    rcases hleads id hid c hc with hmem | heq
    · exact hmem
    · exact Option.some.inj heq ▸ hseen
  | @next seen b bs hnew _ ih =>
    have hb := hcur b rfl
    obtain ⟨fuel, rfl⟩ := Nat.exists_eq_succ_of_ne_zero hfuel.pos.ne'
    rw [valueFrom?_succ hb, List.findSome?_cons]
    cases hown : w.ownValue? g.number b.id key with
    | some v => rfl
    | none =>
      refine ih (hfuel.next hb hnew) (fun c hc => Graph.get?_of_parentOf? hc)
        (List.forall_mem_cons.2 ⟨hown, hlacks⟩)
        (List.forall_mem_cons.2 ⟨fun c hc => .inr hc, fun id hid c hc => .inl ?_⟩)
      rcases hleads id hid c hc with hmem | heq
      · exact List.mem_cons_of_mem _ hmem
      · exact Option.some.inj heq ▸ List.mem_cons_self

/-- Whatever the links of a graph and the named values of its blocks: a look-up finds the value of the
closest block that has one, and none exactly if no block of the ancestry has one. -/
theorem value?_closest (w : World) (g : Generation) (id key : String) :
    ∃ bs, (∀ bs', g.graph.Ancestry [] (g.graph.get? id) bs' ↔ bs' = bs) ∧
      (bs = [] ↔ g.graph.get? id = none) ∧
      (∀ v, w.value? g id key = some v ↔
        ∃ nearer b farther, bs = nearer ++ b :: farther ∧
          (∀ a ∈ nearer, w.ownValue? g.number a.id key = none) ∧
          w.ownValue? g.number b.id key = some v) ∧
      (w.value? g id key = none ↔ ∀ b ∈ bs, w.ownValue? g.number b.id key = none) := by
  have hfuel := Graph.Fueled.start g.graph
  have hcur : ∀ b, g.graph.get? id = some b → g.graph.get? b.id = some b :=
    fun b hb => Graph.get?_id_of_get? hb
  obtain ⟨bs, hbs⟩ := hfuel.exists_ancestry hcur
  have hvalue : w.value? g id key = bs.findSome? fun b => w.ownValue? g.number b.id key :=
    valueFrom?_of_ancestry hbs hfuel hcur nofun nofun
  refine ⟨bs, fun bs' => ⟨fun h => hbs.unique h, fun h => h ▸ hbs⟩, hbs.eq_nil_iff, fun v => ?_, ?_⟩
  · rw [hvalue, List.findSome?_eq_some_iff]
    constructor
    · rintro ⟨nearer, b, farther, rfl, hv, hnone⟩
      exact ⟨nearer, b, farther, rfl, hnone, hv⟩
    · rintro ⟨nearer, b, farther, rfl, hnone, hv⟩
      exact ⟨nearer, b, farther, rfl, hv, hnone⟩
  · rw [hvalue, List.findSome?_eq_none_iff]

end World
end BlockEngine
