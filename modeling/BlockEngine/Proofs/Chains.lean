import BlockEngine.Proofs.Unwinding
import Mathlib.Data.List.Chain
import Mathlib.Data.List.Perm.Subperm

/-!
# Chains along the links of a graph

A graph lists the ids along its links, and the interpreter runs the blocks along them. Both stop at a
block that they come to again, each with a guard of its own; only the interpreter looks at depths.

* `Graph.IsChain` : the ids from one on, along links, as far as they lead to new blocks;
* `Graph.isChain_chain` : this is what a graph lists;
* `Site.Placed` : a block as its graph has it, within the depth limit;
* `Engine.Handles` : the blocks whose handlers a chain has run, and where it stands;
* `Engine.handles_iff` : any stage of a chain is such;
* `Engine.handle_follows_chain` : the handlers that a chain runs are those of a prefix of the list.
-/

namespace BlockEngine

/-! ## What a graph lists -/

namespace Graph

variable {g : Graph} {a b : Block} {cur : Option Block} {seen : List String} {fuel : Nat}
  {id : String}

/-- A block names the other one as the next. -/
def Links (g : Graph) (id next : String) : Prop := ∃ b, g.get? id = some b ∧ b.next = some next

/-- The links lead from a block to no block that is there and has not been visited. -/
def DeadEnd (g : Graph) (visited : List String) (id : String) : Prop :=
  ∃ b, g.get? id = some b ∧
    (b.next = none ∨ ∃ next, b.next = some next ∧ (g.get? next = none ∨ next ∈ visited))

/-- The ids from one on, each once and linked to the one before, as far as the links lead. -/
structure IsChain (g : Graph) (start : String) (ids : List String) : Prop where
  nodup : ids.Nodup
  linked : ids.IsChain g.Links
  head : ∀ b, g.get? start = some b → ids.head? = some start
  absent : g.get? start = none → ids = []
  ends : ∀ last ∈ ids.getLast?, g.DeadEnd ids last

theorem mem_ids_of_get? (h : g.get? id = some b) : id ∈ g.ids := by
  rw [← id_of_get? h]
  exact List.mem_map_of_mem (List.mem_of_find?_eq_some h)

theorem get?_id_of_get? (h : g.get? id = some b) : g.get? b.id = some b := by
  rw [id_of_get? h, h]

/-- Where a link leads. -/
theorem links_of_bind (ha : g.get? a.id = some a) (h : a.next.bind g.get? = some b) :
    g.Links a.id b.id ∧ g.get? b.id = some b := by
  obtain ⟨next, hnext, hb⟩ := Option.bind_eq_some_iff.1 h
  obtain rfl := id_of_get? hb
  exact ⟨⟨a, ha, hnext⟩, hb⟩

theorem deadEnd_of_bind {visited : List String} (ha : g.get? a.id = some a)
    (h : ∀ b, a.next.bind g.get? = some b → b.id ∈ visited) : g.DeadEnd visited a.id := by
  refine ⟨a, ha, ?_⟩
  cases hnext : a.next with
  | none => exact .inl rfl
  | some next =>
    refine .inr ⟨next, rfl, ?_⟩
    cases hb : g.get? next with
    | none => exact .inl rfl
    | some b => exact .inr (id_of_get? hb ▸ h b (by rw [hnext]; exact hb))

/-- What is left of the fuel of a chain that has seen blocks of the graph, each once. -/
structure Fueled (g : Graph) (fuel : Nat) (seen : List String) : Prop where
  nodup : seen.Nodup
  known : seen ⊆ g.ids
  left : fuel + seen.length = g.size + 1

namespace Fueled

theorem start (g : Graph) : g.Fueled (g.size + 1) [] := ⟨List.nodup_nil, nofun, rfl⟩

theorem pos (h : g.Fueled fuel seen) : 0 < fuel := by
  have hle : seen.length ≤ g.ids.length := (h.nodup.subperm h.known).length_le
  have hsize : g.ids.length = g.size := List.length_map _
  have := h.left
  omega

theorem next (h : g.Fueled (fuel + 1) seen) (hb : g.get? b.id = some b) (hnew : b.id ∉ seen) :
    g.Fueled fuel (b.id :: seen) where
  nodup := List.nodup_cons.2 ⟨hnew, h.nodup⟩
  known := List.cons_subset.2 ⟨mem_ids_of_get? hb, h.known⟩
  left := by
    have := h.left
    rw [List.length_cons]
    omega

end Fueled

theorem chainFrom_of_seen (h : b.id ∈ seen) : g.chainFrom fuel seen (some b) = [] := by
  cases fuel with
  | zero => rfl
  | succ fuel => exact if_pos (List.contains_iff_mem.2 h)

theorem chainFrom_of_new (h : b.id ∉ seen) :
    g.chainFrom (fuel + 1) seen (some b) =
      b.id :: g.chainFrom fuel (b.id :: seen) (b.next.bind g.get?) :=
  if_neg fun hmem => h (List.contains_iff_mem.1 hmem)

theorem chainFrom_none : g.chainFrom fuel seen none = [] := by
  cases fuel <;> rfl

/-- The ids along the links from a block on, as far as they have not been seen. -/
structure Along (g : Graph) (seen : List String) (cur : Option Block) (ids : List String) :
    Prop where
  nodup : ids.Nodup
  fresh : ∀ id ∈ ids, id ∉ seen
  linked : ids.IsChain g.Links
  head : ∀ b, cur = some b → b.id ∉ seen → ids.head? = some b.id
  empty : (∀ b, cur = some b → b.id ∈ seen) → ids = []
  ends : ∀ last ∈ ids.getLast?, g.DeadEnd (seen ++ ids) last

theorem Along.nil (h : ∀ b, cur = some b → b.id ∈ seen) : g.Along seen cur [] where
  nodup := List.nodup_nil
  fresh := nofun
  linked := .nil
  head b hb hnew := absurd (h b hb) hnew
  empty _ := rfl
  ends := nofun

/-- A new block, and those along the links after it. -/
theorem Along.cons {ids : List String} (hb : g.get? b.id = some b) (hnew : b.id ∉ seen)
    (h : g.Along (b.id :: seen) (b.next.bind g.get?) ids) :
    g.Along seen (some b) (b.id :: ids) := by
  have hvisited : ∀ id, id ∈ (b.id :: seen) ++ ids → id ∈ seen ++ b.id :: ids := by
    simp only [List.cons_append, List.mem_cons, List.mem_append]
    tauto
  refine ⟨List.nodup_cons.2 ⟨fun hmem => h.fresh _ hmem List.mem_cons_self, h.nodup⟩, ?_, ?_, ?_,
    ?_, ?_⟩
  · rintro id (_ | ⟨_, hid⟩) hseen
    · exact hnew hseen
    · exact h.fresh id hid (List.mem_cons_of_mem _ hseen)
  · refine List.isChain_cons.2 ⟨fun id hid => ?_, h.linked⟩
    by_cases hend : ∀ c, b.next.bind g.get? = some c → c.id ∈ b.id :: seen
    · rw [h.empty hend] at hid
      cases hid
    · obtain ⟨c, hc⟩ := not_forall.1 hend
      obtain ⟨hc, hcnew⟩ := Classical.not_imp.1 hc
      obtain rfl := Option.some.inj ((h.head c hc hcnew).symm.trans hid)
      exact (links_of_bind hb hc).1
  · rintro c ⟨⟩ -
    rfl
  · intro hseen
    exact absurd (hseen b rfl) hnew
  · intro last hlast
    cases hids : ids with
    | nil =>
      subst hids
      obtain rfl := Option.some.inj hlast
      refine deadEnd_of_bind hb fun c hc => hvisited _ ?_
      rw [List.append_nil]
      by_contra hcnew
      exact nomatch h.head c hc hcnew
    | cons id ids' =>
      rw [hids, List.getLast?_cons_cons, ← hids] at hlast
      obtain ⟨x, hx, hend⟩ := h.ends last hlast
      rw [← hids]
      exact ⟨x, hx, hend.imp_right fun ⟨n, hn, h⟩ => ⟨n, hn, h.imp_right (hvisited n)⟩⟩

/-- With fuel left, a graph lists the blocks along the links. -/
theorem along_chainFrom (h : g.Fueled fuel seen)
    (hcur : ∀ b, cur = some b → g.get? b.id = some b) :
    g.Along seen cur (g.chainFrom fuel seen cur) := by
  induction fuel generalizing seen cur with
  | zero => exact absurd h.pos (Nat.lt_irrefl 0)
  | succ fuel ih =>
    cases cur with
    | none =>
      rw [chainFrom_none]
      exact .nil nofun
    | some b =>
      by_cases hb : b.id ∈ seen
      · rw [chainFrom_of_seen hb]
        refine .nil ?_
        rintro _ ⟨⟩
        exact hb
      · rw [chainFrom_of_new hb]
        exact .cons (hcur b rfl) hb
          (ih (h.next (hcur b rfl) hb) fun c hc => (links_of_bind (hcur b rfl) hc).2)

/-- A graph lists the ids along the links, cycles included. -/
theorem isChain_chain (g : Graph) (start : String) : g.IsChain start (g.chain start) := by
  have h : g.Along [] (g.get? start) (g.chain start) :=
    along_chainFrom (.start g) fun b hb => get?_id_of_get? hb
  refine ⟨h.nodup, h.linked, fun b hb => ?_, fun hnone => h.empty ?_, h.ends⟩
  · exact (h.head b hb List.not_mem_nil).trans (congrArg some (id_of_get? hb))
  · rw [hnone]
    nofun

end Graph

/-! ## Blocks in their graph -/

namespace Site

variable {limit depth : Nat} {s c : Site} {id : String}

/-- A block as its graph has it, at a depth within the limit. -/
structure Placed (limit : Nat) (s : Site) : Prop where
  block : s.generation.graph.get? s.id = some s.block
  depth : s.depth ≤ limit

/-- An execution starts in its graph. -/
theorem Placed.root {g : Generation} {context : Context} (h : Site.root g context id = .ok s) :
    s.Placed limit := by
  unfold Site.root at h
  cases hb : g.graph.block id with
  | error err =>
    rw [hb] at h
    cases h
  | ok b =>
    rw [hb] at h
    obtain rfl := Except.ok.inj h
    exact ⟨Graph.get?_id_of_get? (Graph.block_eq_ok_iff.1 hb), Nat.zero_le _⟩

/-- It stays there wherever it goes. -/
theorem Placed.goTo (h : s.goTo limit id depth = .ok c) : c.Placed limit := by
  obtain ⟨hdepth, b, hb, rfl⟩ := goTo_eq_ok_iff.1 h
  exact ⟨Graph.get?_id_of_get? hb, hdepth⟩

theorem Placed.next? (h : s.next? limit = some c) : c.Placed limit := by
  obtain ⟨id, -, hid⟩ := next?_eq_some_iff.1 h
  exact .goTo hid

/-- The depth, which does not change along a chain, keeps no block from its next one. -/
theorem Placed.map_next? (hs : s.Placed limit) :
    (s.next? limit).map Site.block = s.block.next.bind s.generation.graph.get? := by
  unfold Site.next?
  cases s.block.next with
  | none => rfl
  | some id =>
    change ((s.goTo limit id s.depth).toOption).map Site.block = s.generation.graph.get? id
    unfold Site.goTo Graph.block
    rw [if_neg (Nat.not_lt.2 hs.depth)]
    cases s.generation.graph.get? id <;> rfl

end Site

/-! ## The handlers that a chain runs -/

namespace Engine

variable {e : Engine} {t : TaskId} {b s : Site} {visited : List String} {w : World}
  {ws : List World} {inv : List (Site × List World)} {r : Except EngineError Signal}
  {q : Execution (Except EngineError Signal)}
  {x : BlockSpec StatementHandler ExpressionHandler} {run : StatementHandler}
  {read : ExpressionHandler}

/-- What follows the handler of an expression that stands as a statement. -/
def afterExpression (b : Site) : Except EngineError Json → Execution (Except EngineError Signal)
  | .ok v => (keep b valueKey v).bind fun _ => .done (.ok .proceed)
  | .error err => .done (.error (b.annotate err))

/-- A chain that comes to an expression evaluates it, and ends. -/
theorem step_of_reporter (hx : e.lookup b = .ok x) (hread : x.behaviour = .reporter read)
    (hnew : b.id ∉ visited) (t : TaskId) (w : World) :
    e.step t w (.run (.chain visited b) .done) =
      some ((ExceptT.run (read e.environment b)).bind (afterExpression b), w) := by
  obtain ⟨name, behaviour, menus⟩ := x
  obtain rfl : behaviour = .reporter read := hread
  rw [step_chain]
  congr 2
  unfold chainTurn
  rw [if_neg (by simpa using hnew), hx]
  change (((ExceptT.run (read e.environment b)).bind _).bind _).bind _ = _
  rw [Execution.bind_assoc, Execution.bind_assoc]
  congr 1
  funext r
  cases r with
  | error err => rfl
  | ok v =>
    change (((keep b valueKey v).bind _).bind _).bind _ = _
    rw [Execution.bind_assoc, Execution.bind_assoc]
    rfl

theorem step_of_unknown {err : EngineError} (hx : e.lookup b = .error err) (hnew : b.id ∉ visited)
    (t : TaskId) (w : World) :
    e.step t w (.run (.chain visited b) .done) = some (.done (.error err), w) := by
  rw [step_chain]
  unfold chainTurn
  rw [if_neg (by simpa using hnew), hx]
  rfl

theorem step_of_visited (h : b.id ∈ visited) (t : TaskId) (w : World) :
    e.step t w (.run (.chain visited b) .done) = some (.done (.ok .proceed), w) := by
  rw [step_chain]
  unfold chainTurn
  rw [if_pos (List.contains_iff_mem.2 h)]
  rfl

/-- A block is a command, and its handler has returned that the chain goes on. -/
def Passes (e : Engine) (t : TaskId) (b : Site) (ws : List World) : Prop :=
  ∃ run, e.IsCommand b run ∧
    e.replay t (ExceptT.run (run e.environment b)) ws = some (.done (.ok .proceed))

/-- A block has ended its chain: a hat or an expression did, or a command stopped or failed. -/
inductive Cuts (e : Engine) (t : TaskId) (b : Site) :
    List World → Except EngineError Signal → Prop
  | hat {x : BlockSpec StatementHandler ExpressionHandler} {run : StatementHandler}
      {ws : List World} {r : Except EngineError Signal} :
      e.lookup b = .ok x → x.behaviour = .hat run →
      e.replay t (ExceptT.run (run e.environment b)) ws = some (.done r) →
      Cuts e t b ws (r.mapError b.annotate)
  | expression {x : BlockSpec StatementHandler ExpressionHandler} {read : ExpressionHandler}
      {ws kept : List World} {v : Json} :
      e.lookup b = .ok x → x.behaviour = .reporter read →
      e.replay t (ExceptT.run (read e.environment b)) ws = some (.done (.ok v)) →
      e.replay t (keep b valueKey v) kept = some (.done ()) →
      Cuts e t b (ws ++ kept) (.ok .proceed)
  | expressionFails {x : BlockSpec StatementHandler ExpressionHandler} {read : ExpressionHandler}
      {ws : List World} {err : EngineError} :
      e.lookup b = .ok x → x.behaviour = .reporter read →
      e.replay t (ExceptT.run (read e.environment b)) ws = some (.done (.error err)) →
      Cuts e t b ws (.error (b.annotate err))
  | stop {run : StatementHandler} {ws : List World} :
      e.IsCommand b run →
      e.replay t (ExceptT.run (run e.environment b)) ws = some (.done (.ok .stop)) →
      Cuts e t b ws (.ok .stop)
  | fails {run : StatementHandler} {ws : List World} {err : EngineError} :
      e.IsCommand b run →
      e.replay t (ExceptT.run (run e.environment b)) ws = some (.done (.error err)) →
      Cuts e t b ws (.error (b.annotate err))

/-- Such a block does not let the chain go on. -/
theorem Cuts.not_passes (h : e.Cuts t b ws r) : ¬ e.Passes t b ws := by
  rintro ⟨run, ⟨x, hx, hrun⟩, hpasses⟩
  have hcommand : ∀ {y : BlockSpec StatementHandler ExpressionHandler}, e.lookup b = .ok y →
      y.behaviour = .command run := fun hy => by
    rw [← Except.ok.inj (hx.symm.trans hy)]
    exact hrun
  have hresult : ∀ {run' : StatementHandler} {r : Except EngineError Signal}, e.IsCommand b run' →
      e.replay t (ExceptT.run (run' e.environment b)) ws = some (.done r) → r = .ok .proceed := by
    rintro run' r ⟨y, hy, hrun'⟩ hr
    obtain rfl := Behaviour.command.inj (hrun'.symm.trans (hcommand hy))
    exact Execution.done.inj (Option.some.inj (hr.symm.trans hpasses))
  cases h with
  | hat hy hhat _ => cases hhat.symm.trans (hcommand hy)
  | expression hy hread _ _ => cases hread.symm.trans (hcommand hy)
  | expressionFails hy hread _ => cases hread.symm.trans (hcommand hy)
  | stop hb hr => cases hresult hb hr
  | fails hb hr => cases hresult hb hr

/-- A block is in its handler, or keeps the result of it. -/
inductive Busy (e : Engine) (t : TaskId) (visited : List String) (b : Site) :
    List World → Execution (Except EngineError Signal) → Prop
  | command {run : StatementHandler} {ws : List World}
      {p : Execution (Except EngineError Signal)} :
      e.IsCommand b run → e.replay t (ExceptT.run (run e.environment b)) ws = some p →
      (∀ r, p ≠ .done r) → Busy e t visited b ws (p.bind (e.afterCommand visited b .done))
  | hat {x : BlockSpec StatementHandler ExpressionHandler} {run : StatementHandler}
      {ws : List World} {p : Execution (Except EngineError Signal)} :
      e.lookup b = .ok x → x.behaviour = .hat run →
      e.replay t (ExceptT.run (run e.environment b)) ws = some p → (∀ r, p ≠ .done r) →
      Busy e t visited b ws (p.bind fun r => .done (r.mapError b.annotate))
  | expression {x : BlockSpec StatementHandler ExpressionHandler} {read : ExpressionHandler}
      {ws : List World} {p : Execution (Except EngineError Json)} :
      e.lookup b = .ok x → x.behaviour = .reporter read →
      e.replay t (ExceptT.run (read e.environment b)) ws = some p → (∀ r, p ≠ .done r) →
      Busy e t visited b ws (p.bind (afterExpression b))
  | keeps {x : BlockSpec StatementHandler ExpressionHandler} {read : ExpressionHandler}
      {ws kept : List World} {v : Json} {p : Execution Unit} :
      e.lookup b = .ok x → x.behaviour = .reporter read →
      e.replay t (ExceptT.run (read e.environment b)) ws = some (.done (.ok v)) →
      e.replay t (keep b valueKey v) kept = some p → (∀ r, p ≠ .done r) →
      Busy e t visited b (ws ++ kept) (p.bind fun _ => .done (.ok .proceed))

/-- Where a chain stands that is at a block with others behind it: the blocks whose handlers it has
run from there on, each with the steps of its handler, and what is left to do. -/
inductive Handles (e : Engine) (t : TaskId) : List String → Site → List World →
    List (Site × List World) → Execution (Except EngineError Signal) → Prop
  | due {visited : List String} {b : Site} :
      Handles e t visited b [] [] (.run (.chain visited b) .done)
  | again {visited : List String} {b : Site} {w : World} :
      b.id ∈ visited → Handles e t visited b [w] [] (.done (.ok .proceed))
  | unknown {visited : List String} {b : Site} {w : World} {err : EngineError} :
      b.id ∉ visited → e.lookup b = .error err →
      Handles e t visited b [w] [] (.done (.error err))
  | busy {visited : List String} {b : Site} {w : World} {ws : List World}
      {q : Execution (Except EngineError Signal)} :
      b.id ∉ visited → e.Busy t visited b ws q → Handles e t visited b (w :: ws) [(b, ws)] q
  | cut {visited : List String} {b : Site} {w : World} {ws : List World}
      {r : Except EngineError Signal} :
      b.id ∉ visited → e.Cuts t b ws r → Handles e t visited b (w :: ws) [(b, ws)] (.done r)
  | last {visited : List String} {b : Site} {w : World} {ws : List World} :
      b.id ∉ visited → e.Passes t b ws → b.next? e.settings.maxDepth = none →
      Handles e t visited b (w :: ws) [(b, ws)] (.done (.ok .proceed))
  | next {visited : List String} {b next : Site} {w : World} {ws ws' : List World}
      {inv : List (Site × List World)} {q : Execution (Except EngineError Signal)} :
      b.id ∉ visited → e.Passes t b ws → b.next? e.settings.maxDepth = some next →
      Handles e t (b.id :: visited) next ws' inv q →
      Handles e t visited b (w :: (ws ++ ws')) ((b, ws) :: inv) q

theorem handles_of_command (hcommand : e.IsCommand b run) (hnew : b.id ∉ visited)
    (h : e.replay t ((ExceptT.run (run e.environment b)).bind (e.afterCommand visited b .done)) ws =
      some q)
    (ih : ∀ next ws' q, b.next? e.settings.maxDepth = some next → ws'.length ≤ ws.length →
      e.replay t (.run (.chain (b.id :: visited) next) .done) ws' = some q →
      ∃ inv, e.Handles t (b.id :: visited) next ws' inv q) :
    ∃ inv, e.Handles t visited b (w :: ws) inv q := by
  rcases replay_bind_cases h with ⟨p, hp, hgoing, rfl⟩ | ⟨ws₁, ws₂, r, rfl, hr, hrest⟩
  · exact ⟨_, .busy hnew (.command hcommand hp hgoing)⟩
  · match r with
    | .error err =>
      obtain ⟨rfl, rfl⟩ := replay_of_done hrest
      rw [List.append_nil]
      exact ⟨_, .cut hnew (.fails hcommand hr)⟩
    | .ok .stop =>
      obtain ⟨rfl, rfl⟩ := replay_of_done hrest
      rw [List.append_nil]
      exact ⟨_, .cut hnew (.stop hcommand hr)⟩
    | .ok .proceed =>
      unfold afterCommand at hrest
      cases hnext : b.next? e.settings.maxDepth with
      | none =>
        simp only [hnext] at hrest
        obtain ⟨rfl, rfl⟩ := replay_of_done hrest
        rw [List.append_nil]
        exact ⟨_, .last hnew ⟨run, hcommand, hr⟩ hnext⟩
      | some next =>
        simp only [hnext] at hrest
        obtain ⟨inv, hinv⟩ := ih next ws₂ q hnext (by simp) hrest
        exact ⟨_, .next hnew ⟨run, hcommand, hr⟩ hnext hinv⟩

theorem handles_of_hat (hx : e.lookup b = .ok x) (hrun : x.behaviour = .hat run)
    (hnew : b.id ∉ visited)
    (h : e.replay t ((ExceptT.run (run e.environment b)).bind
      fun r => .done (r.mapError b.annotate)) ws = some q) :
    ∃ inv, e.Handles t visited b (w :: ws) inv q := by
  rcases replay_bind_cases h with ⟨p, hp, hgoing, rfl⟩ | ⟨ws₁, ws₂, r, rfl, hr, hrest⟩
  · exact ⟨_, .busy hnew (.hat hx hrun hp hgoing)⟩
  · obtain ⟨rfl, rfl⟩ := replay_of_done hrest
    rw [List.append_nil]
    exact ⟨_, .cut hnew (.hat hx hrun hr)⟩

theorem handles_of_reporter (hx : e.lookup b = .ok x) (hread : x.behaviour = .reporter read)
    (hnew : b.id ∉ visited)
    (h : e.replay t ((ExceptT.run (read e.environment b)).bind (afterExpression b)) ws = some q) :
    ∃ inv, e.Handles t visited b (w :: ws) inv q := by
  rcases replay_bind_cases h with ⟨p, hp, hgoing, rfl⟩ | ⟨ws₁, ws₂, v, rfl, hv, hrest⟩
  · exact ⟨_, .busy hnew (.expression hx hread hp hgoing)⟩
  · cases v with
    | error err =>
      obtain ⟨rfl, rfl⟩ := replay_of_done hrest
      rw [List.append_nil]
      exact ⟨_, .cut hnew (.expressionFails hx hread hv)⟩
    | ok v =>
      rcases replay_bind_cases hrest with ⟨p, hp, hgoing, rfl⟩ | ⟨kept, ws₃, _, rfl, hkept, hend⟩
      · exact ⟨_, .busy hnew (.keeps hx hread hv hp hgoing)⟩
      · obtain ⟨rfl, rfl⟩ := replay_of_done hend
        rw [List.append_nil]
        exact ⟨_, .cut hnew (.expression hx hread hv hkept)⟩

/-- However far a chain has run, it has run the handlers of some blocks. -/
theorem handles_of_replay {n : Nat} (hn : ws.length ≤ n)
    (h : e.replay t (.run (.chain visited b) .done) ws = some q) :
    ∃ inv, e.Handles t visited b ws inv q := by
  induction n generalizing visited b ws q with
  | zero =>
    obtain rfl := List.length_eq_zero_iff.1 (Nat.le_zero.1 hn)
    obtain rfl := Option.some.inj h
    exact ⟨_, .due⟩
  | succ n ih =>
    cases ws with
    | nil =>
      obtain rfl := Option.some.inj h
      exact ⟨_, .due⟩
    | cons w ws =>
      by_cases hnew : b.id ∈ visited
      · rw [replay_cons (step_of_visited hnew t w)] at h
        obtain ⟨rfl, rfl⟩ := replay_of_done h
        exact ⟨_, .again hnew⟩
      · cases hx : e.lookup b with
        | error err =>
          rw [replay_cons (step_of_unknown hx hnew t w)] at h
          obtain ⟨rfl, rfl⟩ := replay_of_done h
          exact ⟨_, .unknown hnew hx⟩
        | ok x =>
          cases hrun : x.behaviour with
          | command run =>
            have hcommand : e.IsCommand b run := ⟨x, hx, hrun⟩
            rw [replay_cons (hcommand.step hnew t w .done)] at h
            exact handles_of_command hcommand hnew h fun next ws' q' _ hle hrest =>
              ih (hle.trans (Nat.le_of_succ_le_succ hn)) hrest
          | hat run =>
            rw [replay_cons (step_of_hat hx hrun hnew t w .done)] at h
            exact handles_of_hat hx hrun hnew h
          | reporter read =>
            rw [replay_cons (step_of_reporter hx hrun hnew t w)] at h
            exact handles_of_reporter hx hrun hnew h

theorem Busy.step (h : e.Busy t visited b ws q) (hnew : b.id ∉ visited) (w : World) :
    e.replay t (.run (.chain visited b) .done) (w :: ws) = some q := by
  cases h with
  | command hcommand hp _ =>
    rw [replay_cons (hcommand.step hnew t w .done), replay_bind_of_some hp]
  | hat hx hrun hp _ => rw [replay_cons (step_of_hat hx hrun hnew t w .done), replay_bind_of_some hp]
  | expression hx hread hp _ =>
    rw [replay_cons (step_of_reporter hx hread hnew t w), replay_bind_of_some hp]
  | keeps hx hread hv hp _ =>
    rw [replay_cons (step_of_reporter hx hread hnew t w), replay_bind_of_done hv]
    exact replay_bind_of_some hp _

theorem Cuts.step (h : e.Cuts t b ws r) (hnew : b.id ∉ visited) (w : World) :
    e.replay t (.run (.chain visited b) .done) (w :: ws) = some (.done r) := by
  cases h with
  | hat hx hrun hr =>
    rw [replay_cons (step_of_hat hx hrun hnew t w .done), replay_bind_of_some hr]
    rfl
  | expression hx hread hv hkept =>
    rw [replay_cons (step_of_reporter hx hread hnew t w), replay_bind_of_done hv]
    exact replay_bind_of_some hkept _
  | expressionFails hx hread herr =>
    rw [replay_cons (step_of_reporter hx hread hnew t w), replay_bind_of_some herr]
    rfl
  | stop hcommand hr =>
    rw [replay_cons (hcommand.step hnew t w .done), replay_bind_of_some hr]
    rfl
  | fails hcommand hr =>
    rw [replay_cons (hcommand.step hnew t w .done), replay_bind_of_some hr]
    rfl

theorem Handles.replay (h : e.Handles t visited b ws inv q) :
    e.replay t (.run (.chain visited b) .done) ws = some q := by
  induction h with
  | due => rfl
  | again hmem => rw [replay_cons (step_of_visited hmem t _), replay_nil]
  | unknown hnew hx => rw [replay_cons (step_of_unknown hx hnew t _), replay_nil]
  | busy hnew hbusy => exact hbusy.step hnew _
  | cut hnew hcuts => exact hcuts.step hnew _
  | last hnew hpasses hnext =>
    obtain ⟨run, hcommand, hr⟩ := hpasses
    rw [replay_cons (hcommand.step hnew t _ .done), replay_bind_of_some hr, Execution.done_bind]
    simp only [afterCommand, hnext]
  | next hnew hpasses hnext _ ih =>
    obtain ⟨run, hcommand, hr⟩ := hpasses
    rw [replay_cons (hcommand.step hnew t _ .done), replay_bind_of_done hr]
    simp only [afterCommand, hnext]
    exact ih

/-- What a chain has done at any stage is that it has run the handlers of some blocks. -/
theorem handles_iff :
    e.replay t (ExceptT.run (Attempt.handle s)) ws = some q ↔
      ∃ inv, e.Handles t [] s ws inv q :=
  ⟨fun h => handles_of_replay (Nat.le_refl _) h, fun ⟨_, h⟩ => h.replay⟩

/-! ## The chain of the graph -/

/-- The ids of the blocks whose handlers have run. -/
def idsOf (inv : List (Site × List World)) : List String := inv.map (·.1.id)

/-- How a chain ended that could go along some ids: it has run all of them, or a block ended it, or
it has come to a block without a handler. -/
inductive Concludes (e : Engine) (t : TaskId) (g : Generation) (ids : List String) :
    List (Site × List World) → Except EngineError Signal → Prop
  | whole {inv : List (Site × List World)} :
      (∀ x ∈ inv, e.Passes t x.1 x.2) → idsOf inv = ids → Concludes e t g ids inv (.ok .proceed)
  | cut {inv : List (Site × List World)} {b : Site} {ws : List World}
      {r : Except EngineError Signal} :
      (∀ x ∈ inv, e.Passes t x.1 x.2) → e.Cuts t b ws r → ¬ e.Passes t b ws →
      Concludes e t g ids (inv ++ [(b, ws)]) r
  | unknown {inv : List (Site × List World)} {b : Site} {err : EngineError} :
      (∀ x ∈ inv, e.Passes t x.1 x.2) → idsOf inv ++ [b.id] <+: ids →
      b.generation = g → b.Placed e.settings.maxDepth → e.lookup b = .error err →
      Concludes e t g ids inv (.error err)

/-- The handlers that a chain has run are those of blocks of its graph, in the order of the ids; all
of them but the last have returned that the chain goes on. -/
structure Follows (e : Engine) (t : TaskId) (g : Generation) (ids : List String)
    (inv : List (Site × List World)) (q : Execution (Except EngineError Signal)) : Prop where
  ordered : idsOf inv <+: ids
  placed : ∀ x ∈ inv, x.1.generation = g ∧ x.1.Placed e.settings.maxDepth
  passed : ∀ x ∈ inv.dropLast, e.Passes t x.1 x.2
  concludes : ∀ r, q = .done r → e.Concludes t g ids inv r

theorem Concludes.cons {g : Generation} {ids : List String} (h : e.Passes t b ws)
    (hrest : e.Concludes t g ids inv r) : e.Concludes t g (b.id :: ids) ((b, ws) :: inv) r := by
  cases hrest with
  | whole hpassed hids =>
    exact .whole (List.forall_mem_cons.2 ⟨h, hpassed⟩) (congrArg (b.id :: ·) hids)
  | cut hpassed hcuts hlast => exact .cut (List.forall_mem_cons.2 ⟨h, hpassed⟩) hcuts hlast
  | unknown hpassed hprefix hg hplaced hx =>
    exact .unknown (List.forall_mem_cons.2 ⟨h, hpassed⟩) (List.cons_prefix_cons.2 ⟨rfl, hprefix⟩)
      hg hplaced hx

theorem Follows.cons {g : Generation} {ids : List String} (hg : b.generation = g)
    (hb : b.Placed e.settings.maxDepth) (h : e.Passes t b ws) (hrest : e.Follows t g ids inv q) :
    e.Follows t g (b.id :: ids) ((b, ws) :: inv) q where
  ordered := List.cons_prefix_cons.2 ⟨rfl, hrest.ordered⟩
  placed := List.forall_mem_cons.2 ⟨⟨hg, hb⟩, hrest.placed⟩
  passed := by
    cases inv with
    | nil => exact nofun
    | cons y inv => exact List.forall_mem_cons.2 ⟨h, hrest.passed⟩
  concludes r hr := (hrest.concludes r hr).cons h

/-- A block is the only one that has run. -/
theorem Follows.one {g : Generation} {ids : List String} (hg : b.generation = g)
    (hb : b.Placed e.settings.maxDepth)
    (h : ∀ r, q = .done r → e.Concludes t g (b.id :: ids) [(b, ws)] r) :
    e.Follows t g (b.id :: ids) [(b, ws)] q where
  ordered := List.cons_prefix_cons.2 ⟨rfl, List.nil_prefix⟩
  placed := List.forall_mem_cons.2 ⟨⟨hg, hb⟩, nofun⟩
  passed := nofun
  concludes := h

theorem Follows.none {g : Generation} {ids : List String}
    (h : ∀ r, q = .done r → e.Concludes t g ids [] r) : e.Follows t g ids [] q where
  ordered := List.nil_prefix
  placed := nofun
  passed := nofun
  concludes := h

theorem Busy.not_done (h : e.Busy t visited b ws q) (r : Except EngineError Signal) :
    q ≠ .done r := by
  have hbind : ∀ {α : Type} {p : Execution α} {k : α → Execution (Except EngineError Signal)},
      (∀ a, p ≠ .done a) → p.bind k ≠ .done r := by
    rintro α p k hp heq
    cases p with
    | done a => exact hp a rfl
    | _ => cases heq
  cases h with
  | command _ _ hp => exact hbind hp
  | hat _ _ _ hp => exact hbind hp
  | expression _ _ _ hp => exact hbind hp
  | keeps _ _ _ _ hp => exact hbind hp

/-- With the blocks visited on both sides the same, a chain goes along what its graph lists. -/
theorem Handles.follows (h : e.Handles t visited b ws inv q) (hb : b.Placed e.settings.maxDepth)
    {fuel : Nat} (hfuel : b.generation.graph.Fueled fuel visited) :
    e.Follows t b.generation (b.generation.graph.chainFrom fuel visited (some b.block)) inv q := by
  induction h generalizing fuel with
  | due => exact .none nofun
  | @again visited b w hmem =>
    refine .none ?_
    rintro _ ⟨⟩
    exact .whole nofun (Graph.chainFrom_of_seen hmem).symm
  | @unknown visited b w err hnew hx =>
    obtain ⟨fuel, rfl⟩ := Nat.exists_eq_add_one.2 hfuel.pos
    rw [Graph.chainFrom_of_new (b := b.block) hnew]
    refine .none ?_
    rintro _ ⟨⟩
    exact .unknown nofun (List.cons_prefix_cons.2 ⟨rfl, List.nil_prefix⟩) rfl hb hx
  | @busy visited b w ws q hnew hbusy =>
    obtain ⟨fuel, rfl⟩ := Nat.exists_eq_add_one.2 hfuel.pos
    rw [Graph.chainFrom_of_new (b := b.block) hnew]
    exact .one rfl hb fun r hr => absurd hr (hbusy.not_done r)
  | @cut visited b w ws r hnew hcuts =>
    obtain ⟨fuel, rfl⟩ := Nat.exists_eq_add_one.2 hfuel.pos
    rw [Graph.chainFrom_of_new (b := b.block) hnew]
    refine .one rfl hb ?_
    rintro _ ⟨⟩
    change e.Concludes t b.generation _ ([] ++ [(b, ws)]) r
    exact .cut (List.forall_mem_nil _) hcuts hcuts.not_passes
  | @last visited b w ws hnew hpasses hnext =>
    obtain ⟨fuel, rfl⟩ := Nat.exists_eq_add_one.2 hfuel.pos
    rw [Graph.chainFrom_of_new (b := b.block) hnew, ← hb.map_next?, hnext]
    refine .one rfl hb ?_
    rintro _ ⟨⟩
    exact .whole (List.forall_mem_cons.2 ⟨hpasses, nofun⟩)
      (congrArg (b.id :: ·) Graph.chainFrom_none.symm)
  | @next visited b next w ws ws' inv q hnew hpasses hnext _ ih =>
    obtain ⟨fuel, rfl⟩ := Nat.exists_eq_add_one.2 hfuel.pos
    have hg : next.generation = b.generation := Site.generation_next? hnext
    rw [Graph.chainFrom_of_new (b := b.block) hnew, ← hb.map_next?, hnext, ← hg]
    refine .cons hg.symm hb hpasses (ih (.next? hnext) ?_)
    rw [hg]
    exact hfuel.next hb.block hnew

/-- A graph lists ids along its links, each once, as far as they lead to new blocks. The handlers
that a chain runs from a block on are those of the first of the ids: of all of them, or up to the
first block that does not let the chain go on. -/
theorem handle_follows_chain (e : Engine) (t : TaskId) (g : Graph) (start : String) :
    g.IsChain start (g.chain start) ∧
      ∀ s : Site, s.generation.graph = g → s.id = start → s.Placed e.settings.maxDepth → ∀ ws q,
        (e.replay t (ExceptT.run (Attempt.handle s)) ws = some q ↔
          ∃ inv, e.Handles t [] s ws inv q) ∧
        ∀ inv, e.Handles t [] s ws inv q →
          (idsOf inv).Nodup ∧ e.Follows t s.generation (g.chain start) inv q := by
  refine ⟨g.isChain_chain start, ?_⟩
  rintro s rfl rfl hs ws q
  refine ⟨handles_iff, fun inv hinv => ?_⟩
  have hfollows : e.Follows t s.generation (s.generation.graph.chain s.id) inv q := by
    unfold Graph.chain
    rw [hs.block]
    exact hinv.follows hs (.start _)
  exact ⟨hfollows.ordered.sublist.nodup (Graph.isChain_chain _ _).nodup, hfollows⟩

/-- Two statements that are linked in a circle. -/
theorem handle_follows_chain_of_circle :
    let e : Engine := ⟨(Registry.empty.registerAll Library.core).1, ⟨100, 20, 3⟩, none, "main"⟩
    let b (id next : String) : Block := {
      id, opcode := ⟨"control", "if"⟩, shadow := false, topLevel := true, parent := none
      next := some next, fields := [], inputs := [], mutation := none, extra := [], defined := true }
    let g : Graph := ⟨[b "a" "b", b "b" "a"], []⟩
    let s : Site := ⟨⟨0, "tab", "Tab", g⟩, b "a" "b", 0, ⟨0, some "tab", none⟩⟩
    let w : World := .start 8
    s.Placed e.settings.maxDepth ∧
      e.replay 1 (ExceptT.run (Attempt.handle s)) [w, w, w] = some (.done (.ok .proceed)) ∧
      ∃ inv, e.Handles 1 [] s [w, w, w] inv (.done (.ok .proceed)) ∧
        e.Follows 1 s.generation ["a", "b"] inv (.done (.ok .proceed)) := by
  intro e b g s w
  have hs : s.Placed e.settings.maxDepth := ⟨rfl, Nat.zero_le _⟩
  have hchain : g.chain "a" = ["a", "b"] := rfl
  have hruns : e.replay 1 (ExceptT.run (Attempt.handle s)) [w, w, w] =
      some (.done (.ok .proceed)) := rfl
  obtain ⟨hstages, hfollows⟩ :=
    (handle_follows_chain e 1 g "a").2 s rfl rfl hs [w, w, w] (.done (.ok .proceed))
  obtain ⟨inv, hinv⟩ := hstages.1 hruns
  exact ⟨hs, hruns, inv, hinv, hchain ▸ (hfollows inv hinv).2⟩

end Engine
end BlockEngine
