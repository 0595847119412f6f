import BlockEngine.Proofs.Resolving
import BlockEngine.Proofs.Rules

/-!
# Interpretation ends

Blocks that do no more than resolve inputs come to an end on every graph, whatever its links are.
A nested block is one deeper than the block it is nested in, and the depth is limited; a chain stays
at its depth, and runs no block twice. Nobody may listen to the results of blocks, since reactions
can go on for ever.

* `World.Untold` : nobody listens to the results of the blocks of a tab;
* `Engine.Settles` : after finitely many steps an execution is done, whatever others do meanwhile;
* `Engine.settles_chain` : chains, by the blocks not visited; `Engine.settles_site` : all blocks, by
  the depth that is left;
* `Engine.Turns` : the turns of a chain, with the blocks run before;
* `Engine.interpretation_bounded` : interpretation ends, within the limits.
-/

namespace BlockEngine

variable {α β : Type}

/-! ## States -/

/-- A sound state in which nobody listens to the results of the blocks of a tab. -/
structure World.Untold (w : World) (tab : String) : Prop where
  sound : w.locks.Sound
  unheard : ∀ block l x, w.locks.lock? l = some x → x.tab = tab →
    x.key = (LockKey.value block).text → x.subscriptions = []

theorem World.locks_deliver (w : World) (l : LockId) (v : Json) :
    (w.deliver l v).2.locks = (w.locks.deliver l v).2 :=
  congrArg View.locks (World.view_deliver w l v)

theorem World.locks_storeValue (w : World) (n : Nat) (block key : String) (v : Json) :
    (w.storeValue n block key v).locks = w.locks :=
  (congrArg View.locks (World.view_storeValue w n block key v)).trans
    (View.locks_modifyGeneration ..)

namespace World.Untold

variable {w w' : World} {tab : String}

theorem of_locks (h : w.Untold tab) (hlocks : w'.locks = w.locks) : w'.Untold tab where
  sound := hlocks ▸ h.sound
  unheard := hlocks ▸ h.unheard

theorem deliver (h : w.Untold tab) (l : LockId) (v : Json) : (w.deliver l v).2.Untold tab := by
  have hlocks := World.locks_deliver w l v
  refine ⟨hlocks ▸ h.sound.deliver l v, fun block l' x' hx' htab hkey => ?_⟩
  rw [hlocks] at hx'
  obtain ⟨x, hx, value, ws, rfl, -⟩ := LockTable.lock?_deliver hx'
  exact h.unheard block l' x hx htab hkey

/-- A signal of the lock for the results of a block, as it was once found, calls no reactions. -/
theorem reactions (h : w.Untold tab) {t : LockTable Reaction} (hs : t.Sound)
    (hle : t.Le w.locks) {block : String} {l : LockId}
    (hl : t.find? tab (LockKey.value block).text = some l) (v : Json) :
    (w.locks.deliver l v).1.2 = [] := by
  obtain ⟨x, hx, htab, hkey, -⟩ := hs.find?_spec hl
  obtain ⟨x', hx', htab', hkey', -⟩ := hle.lock l x hx
  rw [LockTable.deliver_of_some hx',
    h.unheard block l x' hx' (htab'.trans htab) (hkey'.trans hkey)]
  rfl

end World.Untold

/-! ## Executions that end -/

/-- The next step of an execution begins a block. -/
def Execution.Begins : Execution α → Site → Prop
  | .evaluate s _, c | .run (.chain _ s) _, c => c = s
  | _, _ => False

namespace Engine

variable {e : Engine} {u : TaskId} {tab : String} {d : Nat} {t t' : LockTable Reaction}

/-- After finitely many steps an execution is done, in whatever states the steps are performed: what
others do between two steps may come and go, but nobody listens to the results of the blocks of the
tab, and locks grow from `t` on. No block is begun deeper than `d`. -/
inductive Settles (e : Engine) (u : TaskId) (tab : String) (d : Nat) :
    LockTable Reaction → Execution α → Prop
  | done {t : LockTable Reaction} (a : α) : Settles e u tab d t (.done a)
  | step {t : LockTable Reaction} {p : Execution α} :
      (∀ c, p.Begins c → c.depth ≤ d) →
      (∀ w, w.Untold tab → t.Le w.locks → ∃ p' w', e.step u w p = some (p', w') ∧
        w'.Untold tab ∧ w.locks.Le w'.locks) →
      (∀ w p' w', w.Untold tab → t.Le w.locks → e.step u w p = some (p', w') →
        Settles e u tab d w.locks p') →
      Settles e u tab d t p

namespace Settles

variable {p : Execution α} {k : α → Execution β}

theorem mono (h : Settles e u tab d t p) (hle : t.Le t') : Settles e u tab d t' p := by
  cases h with
  | done a => exact .done a
  | step hdepth hnext hrest =>
    exact .step hdepth (fun w hw hle' => hnext w hw (hle.trans hle')) fun w p' w' hw hle' =>
      hrest w p' w' hw (hle.trans hle')

/-- Executions in sequence; of the first one it is known how it can end. -/
theorem bind_of_ends {P : α → Prop} (h : Settles e u tab d t p) (hp : p.Ends P)
    (hk : ∀ a t', P a → t.Le t' → Settles e u tab d t' (k a)) :
    Settles e u tab d t (p.bind k) := by
  induction h with
  | done a => exact hk a _ hp (.refl _)
  | @step t p hdepth hnext hrest ih =>
    by_cases hdone : ∃ a, p = .done a
    · obtain ⟨a, rfl⟩ := hdone
      exact hk a t hp (.refl t)
    · have hstep (w : World) := step_bind e u w k fun a ha => hdone ⟨a, ha⟩
      refine .step (fun c hc => hdepth c ?_) (fun w hw hle => ?_) fun w q w' hw hle hq => ?_
      · cases p with
        | done a => exact absurd ⟨a, rfl⟩ hdone
        | run r g => cases r <;> exact hc
        | _ => exact hc
      · obtain ⟨p', w', hp', hafter⟩ := hnext w hw hle
        exact ⟨p'.bind k, w', by rw [hstep, hp']; rfl, hafter⟩
      · rw [hstep] at hq
        obtain ⟨⟨p', w''⟩, hp', heq⟩ := Option.map_eq_some_iff.1 hq
        obtain ⟨rfl, rfl⟩ := Prod.mk.inj heq
        exact ih w p' w'' hw hle hp' (hp.step hp') fun a t' ha hle' =>
          hk a t' ha (hle.trans hle')

theorem bind (h : Settles e u tab d t p) (hk : ∀ a t', t.Le t' → Settles e u tab d t' (k a)) :
    Settles e u tab d t (p.bind k) :=
  h.bind_of_ends (.anything p) fun a t' _ => hk a t'

theorem act {f : World → World} {k : World → Execution α} (hf : ∀ w, (f w).locks = w.locks)
    (hk : ∀ w, w.Untold tab → t.Le w.locks → Settles e u tab d w.locks (k w)) :
    Settles e u tab d t (.act f k) := by
  refine .step nofun (fun w hw _ => ⟨_, _, rfl, hw.of_locks (hf w), ?_⟩) fun w p' w' hw hle h => ?_
  · rw [hf]
    exact .refl _
  · obtain ⟨rfl, rfl⟩ := Prod.mk.inj (Option.some.inj h)
    exact hk w hw hle

/-- A signal of a lock that nobody listens to. -/
theorem signal {l : LockId} {v : Json} {k : Nat → Execution α}
    (hl : ∀ w : World, w.Untold tab → t.Le w.locks → (w.locks.deliver l v).1.2 = [])
    (hk : ∀ n t', t.Le t' → Settles e u tab d t' (k n)) :
    Settles e u tab d t (.signal l v k) := by
  refine .step nofun (fun w hw _ => ⟨_, (w.deliver l v).2, rfl, hw.deliver l v, ?_⟩)
    fun w p' w' hw hle h => ?_
  · rw [World.locks_deliver]
    exact .deliver w.locks l v
  · rw [step_signal, hl w hw hle] at h
    obtain ⟨rfl, rfl⟩ := Prod.mk.inj (Option.some.inj h)
    exact hk _ _ hle

theorem evaluate {s : Site} {k : Except EngineError Json → Execution α} (hs : s.depth ≤ d)
    (hk : ∀ t', t.Le t' → Settles e u tab d t' ((ExceptT.run (e.evaluation s)).bind k)) :
    Settles e u tab d t (.evaluate s k) := by
  refine .step (fun c hc => ?_) (fun w hw _ => ⟨_, _, rfl, hw, .refl _⟩) fun w p' w' _ hle h => ?_
  · obtain rfl : c = s := hc
    exact hs
  · obtain ⟨rfl, rfl⟩ := Prod.mk.inj (Option.some.inj h)
    exact hk _ hle

theorem run {visited : List String} {s : Site} {k : Except EngineError Signal → Execution α}
    (hs : s.depth ≤ d)
    (hk : ∀ t', t.Le t' →
      Settles e u tab d t' ((ExceptT.run (e.chainTurn visited s)).bind (afterTurn k))) :
    Settles e u tab d t (.run (.chain visited s) k) := by
  refine .step (fun c hc => ?_) (fun w hw _ => ⟨_, _, rfl, hw, .refl _⟩) fun w p' w' _ hle h => ?_
  · obtain rfl : c = s := hc
    exact hs
  · obtain ⟨rfl, rfl⟩ := Prod.mk.inj (Option.some.inj h)
    exact hk _ hle

/-- Attempts in sequence. -/
theorem attempt_bind {a : Attempt α} {k : α → Attempt β}
    (h : Settles e u tab d t (ExceptT.run a))
    (hk : ∀ x t', t.Le t' → Settles e u tab d t' (ExceptT.run (k x))) :
    Settles e u tab d t (ExceptT.run (a >>= k)) := by
  refine bind h fun r t' hle => ?_
  cases r with
  | ok x => exact hk x t' hle
  | error err => exact .done _

theorem look : Settles e u tab d t Execution.look := act (fun _ => rfl) fun _ _ _ => .done _

theorem signalKey (block : String) (v : Json) :
    Settles e u tab d t (Execution.signalKey tab (LockKey.value block).text v) := by
  refine act (fun _ => rfl) fun w hw _ => ?_
  cases hl : w.locks.find? tab (LockKey.value block).text with
  | some l =>
    simp only [Execution.done_bind, hl]
    exact signal (fun w' hw' hle => hw'.reactions hw.sound hle hl v) fun _ _ _ => .done _
  | none =>
    simp only [Execution.done_bind, hl]
    exact .done _

/-- The result of a block is told to nobody. -/
theorem keep {s : Site} (hs : s.tab = tab) (v : Json) :
    Settles e u tab d t (Engine.keep s valueKey v) := by
  subst hs
  refine act (fun w => World.locks_storeValue ..) fun w hw _ => ?_
  change Settles e u s.tab d w.locks (if valueKey = valueKey then
    (Execution.signalKey s.tab (LockKey.value s.id).text v).bind fun _ => .done () else .done ())
  rw [if_pos rfl]
  exact bind (signalKey s.id v) fun _ _ _ => .done _

/-! ### Blocks by the blocks nested in them -/

variable {s : Site}

/-- All blocks that can be nested in a block settle, as expressions and as chains. -/
def Nested (e : Engine) (u : TaskId) (tab : String) (d : Nat) (s : Site) : Prop :=
  ∀ c : Site, c.generation = s.generation → c.depth = s.depth + 1 →
    c.depth ≤ e.settings.maxDepth → ∀ t,
      Settles e u tab d t (ExceptT.run (Attempt.evaluate c)) ∧
      Settles e u tab d t (ExceptT.run (Attempt.handle c))

theorem Nested.of_child (h : Nested e u tab d s) {id : String} {c : Site}
    (hc : s.child e.settings.maxDepth id = .ok c) (t : LockTable Reaction) :
    Settles e u tab d t (ExceptT.run (Attempt.evaluate c)) ∧
      Settles e u tab d t (ExceptT.run (Attempt.handle c)) := by
  obtain ⟨hlimit, b, -, rfl⟩ := Site.goTo_eq_ok_iff.1 hc
  exact h { s with block := b, depth := s.depth + 1 } rfl rfl hlimit t

/-- What comes after something that is known. -/
theorem ofExcept_bind {x : Except EngineError α} {k : α → Attempt β}
    (hk : ∀ a, x = .ok a → Settles e u tab d t (ExceptT.run (k a))) :
    Settles e u tab d t (ExceptT.run (Attempt.ofExcept x >>= k)) := by
  cases x with
  | ok a => exact hk a rfl
  | error err => exact .done _

theorem variableValue (name id : String) :
    Settles e u tab d t (ExceptT.run (Site.variableValue name id)) := by
  refine act (fun _ => rfl) fun w _ _ => ?_
  cases hv : w.vars.value? id with
  | none =>
    simp only [Function.comp_apply, Execution.done_bind, ExceptT.bindCont, hv]
    exact .done _
  | some v =>
    simp only [Function.comp_apply, Execution.done_bind, ExceptT.bindCont, hv]
    exact .done _

theorem input (h : Nested e u tab d s) (key : String) (mode : ReadMode) (t : LockTable Reaction) :
    Settles e u tab d t (ExceptT.run (s.input e.environment key mode)) := by
  refine ofExcept_bind fun i _ => ?_
  simp only
  split
  · exact .done _
  · exact .done _
  · exact ofExcept_bind fun c hc => (h.of_child hc t).1
  · exact .done _
  · split
    · exact .done _
    · exact variableValue _ _

theorem handleInput (h : Nested e u tab d s) (key : String) (t : LockTable Reaction) :
    Settles e u tab d t (ExceptT.run (s.handleInput e.environment key)) := by
  refine ofExcept_bind fun body hbody => ?_
  cases body with
  | none => exact .done _
  | some c =>
    obtain ⟨id, hc⟩ := Site.child_of_inputBlock? hbody
    exact (h.of_child hc t).2

theorem of_resolves (h : Nested e u tab d s) {p : Execution α} (hp : p.Resolves e.environment s)
    (t : LockTable Reaction) : Settles e u tab d t p := by
  induction hp generalizing t with
  | done a => exact .done a
  | act hf _ ih => exact act hf fun w _ _ => ih w _
  | input _ ih => exact bind (input h _ _ t) fun r t' _ => ih r t'
  | statement _ ih => exact bind (handleInput h _ t) fun r t' _ => ih r t'

theorem annotated (s : Site) {a : Attempt α} (h : Settles e u tab d t (ExceptT.run a)) :
    Settles e u tab d t (ExceptT.run (Attempt.annotated s a)) := bind h fun _ _ _ => .done _

theorem lift {p : Execution α} (h : Settles e u tab d t p) :
    Settles e u tab d t (ExceptT.run (monadLift p : Attempt α)) := bind h fun _ _ _ => .done _

/-- A block as an expression. -/
theorem evaluation (he : e.Resolves) (hs : s.tab = tab) (h : Nested e u tab d s)
    (t : LockTable Reaction) : Settles e u tab d t (ExceptT.run (e.evaluation s)) := by
  refine ofExcept_bind fun b hb => attempt_bind (annotated s ?_) fun v t' _ =>
    attempt_bind (lift (keep hs v)) fun _ _ _ => .done _
  have hresolves := he _ b (Engine.lookup_eq_ok hb)
  cases hk : b.behaviour with
  | reporter run =>
    rw [hk] at hresolves
    exact of_resolves h (hresolves _ _) t
  | command run | hat run =>
    rw [hk] at hresolves
    exact attempt_bind (of_resolves h (hresolves _ _) t) fun _ _ _ => .done _

/-- A block in its chain. -/
theorem chainTurn (he : e.Resolves) (hs : s.tab = tab) (h : Nested e u tab d s)
    (visited : List String) (t : LockTable Reaction) :
    Settles e u tab d t (ExceptT.run (e.chainTurn visited s)) := by
  unfold Engine.chainTurn
  split
  · exact .done _
  · refine ofExcept_bind fun b hb => ?_
    have hresolves := he _ b (Engine.lookup_eq_ok hb)
    cases hk : b.behaviour with
    | command run =>
      rw [hk] at hresolves
      refine attempt_bind (annotated s (of_resolves h (hresolves _ _) t)) fun x _ _ => ?_
      cases x with
      | stop => exact .done _
      | proceed => cases s.next? e.settings.maxDepth <;> exact .done _
    | hat run =>
      rw [hk] at hresolves
      exact attempt_bind (annotated s (of_resolves h (hresolves _ _) t)) fun _ _ _ => .done _
    | reporter run =>
      rw [hk] at hresolves
      exact attempt_bind (annotated s (of_resolves h (hresolves _ _) t)) fun v _ _ =>
        attempt_bind (lift (keep hs v)) fun _ _ _ => .done _

end Settles

/-! ## Chains -/

/-- The turn of a chain of which there is a next turn: the block was not visited before, and the
next turn is for the block linked to it. -/
def GoesOn (e : Engine) (visited : List String) (s : Site) (next : Routine) : Prop :=
  s.id ∉ visited ∧ ∃ c, s.next? e.settings.maxDepth = some c ∧ next = .chain (s.id :: visited) c

theorem ends_chainTurn (e : Engine) (visited : List String) (s : Site) :
    (ExceptT.run (e.chainTurn visited s)).Ends fun r =>
      ∀ next, r = .ok (.again next) → e.GoesOn visited s next := by
  let P (r : Except EngineError Turned) : Prop :=
    ∀ next, r = .ok (.again next) → e.GoesOn visited s next
  have herror (err : EngineError) : P (.error err) := fun _ h => nomatch h
  have hover (x : Signal) : (ExceptT.run (pure (.over x) : Attempt Turned)).Ends P :=
    fun _ h => nomatch h
  change (ExceptT.run (e.chainTurn visited s)).Ends P
  unfold chainTurn
  split
  · exact hover _
  · next hnew =>
    have hnew : s.id ∉ visited := by simpa using hnew
    refine Attempt.ends_bind herror fun b => ?_
    split
    · refine Attempt.ends_bind herror fun x => ?_
      cases x with
      | stop => exact hover _
      | proceed =>
        cases hc : s.next? e.settings.maxDepth with
        | none => exact hover _
        | some c =>
          intro next h
          obtain rfl := Turned.again.inj (Except.ok.inj h)
          exact ⟨hnew, c, hc, rfl⟩
    · exact Attempt.ends_bind herror fun _ => hover _
    · exact Attempt.ends_bind herror fun _ => Attempt.ends_bind herror fun _ => hover _

theorem mem_ids_of_next {s c : Site} {limit : Nat} (h : s.next? limit = some c) :
    c.id ∈ s.generation.graph.ids := by
  obtain ⟨id, -, hid⟩ := Site.next?_eq_some_iff.1 h
  obtain ⟨-, b, hb, rfl⟩ := Site.goTo_eq_ok_iff.1 hid
  exact List.mem_map_of_mem (List.mem_of_find?_eq_some hb)

theorem length_unvisited_lt {ids visited : List String} {id : String} (hid : id ∈ ids)
    (hnew : id ∉ visited) :
    (ids.filter (· ∉ id :: visited)).length < (ids.filter (· ∉ visited)).length := by
  have hfilter : ids.filter (· ∉ id :: visited) =
      (ids.filter (· ∉ visited)).filter (· ≠ id) := by
    rw [List.filter_filter]
    refine List.filter_congr fun x _ => ?_
    simp
  rw [hfilter, List.length_filter_lt_length_iff_exists]
  exact ⟨id, List.mem_filter.2 ⟨hid, by simpa using hnew⟩, by simp⟩

/-- A chain settles, since every turn visits one more block. -/
theorem settles_chain (he : e.Resolves) {g : Generation} {n : Nat} (hg : g.tab = tab) (hd : n ≤ d)
    (hnested : ∀ s : Site, s.generation = g → s.depth = n → Settles.Nested e u tab d s)
    {ids : List String} (hids : g.graph.ids ⊆ ids) (fuel : Nat) {visited : List String} {s : Site}
    (hs : s.generation = g) (hdepth : s.depth = n) (hid : s.id ∈ ids)
    (hfuel : (ids.filter (· ∉ visited)).length < fuel)
    {k : Except EngineError Signal → Execution α}
    (hk : ∀ r t', t.Le t' → Settles e u tab d t' (k r)) :
    Settles e u tab d t (.run (.chain visited s) k) := by
  induction fuel generalizing visited s t with
  | zero => exact absurd hfuel (Nat.not_lt_zero _)
  | succ fuel ih =>
    subst hs hdepth
    refine .run hd fun t' hle => ?_
    refine .bind_of_ends (.chainTurn he hg (hnested s rfl rfl) visited t')
      (ends_chainTurn e visited s) fun r t'' hr hle' => ?_
    have hk' (r : Except EngineError Signal) (t' : LockTable Reaction) (h : t''.Le t') :
        Settles e u tab d t' (k r) := hk r t' ((hle.trans hle').trans h)
    cases r with
    | error err => exact hk' _ _ (.refl _)
    | ok x =>
      cases x with
      | «over» signal => exact hk' _ _ (.refl _)
      | again next =>
        obtain ⟨hnew, c, hc, rfl⟩ := hr next rfl
        refine ih (Site.generation_next? hc) (Site.depth_next? hc) (hids (mem_ids_of_next hc))
          ?_ hk'
        exact Nat.lt_of_lt_of_le (length_unvisited_lt hid hnew) (Nat.le_of_lt_succ hfuel)

/-- A block settles if all do that can be nested in it or in the blocks of its chain. -/
theorem settles_of_nested (he : e.Resolves) {s : Site} (hs : s.tab = tab) (hdepth : s.depth ≤ d)
    (hnested : ∀ s' : Site, s'.generation = s.generation → s'.depth = s.depth →
      Settles.Nested e u tab d s') (t : LockTable Reaction) :
    Settles e u tab d t (ExceptT.run (Attempt.evaluate s)) ∧
      Settles e u tab d t (ExceptT.run (Attempt.handle s)) := by
  constructor
  · refine .evaluate hdepth fun t' _ => ?_
    rw [Execution.bind_done]
    exact .evaluation he hs (hnested s rfl rfl) t'
  · exact settles_chain he hs hdepth hnested (List.subset_cons_self s.id _) _ rfl rfl
      List.mem_cons_self (Nat.lt_succ_self _) fun r t' _ => .done r

/-- All blocks settle, by the depth that is left below them. -/
theorem settles_site (he : e.Resolves) (hd : e.settings.maxDepth ≤ d) (n : Nat) {s : Site}
    (hs : s.tab = tab) (hdepth : s.depth ≤ d) (hn : e.settings.maxDepth < s.depth + n)
    (t : LockTable Reaction) :
    Settles e u tab d t (ExceptT.run (Attempt.evaluate s)) ∧
      Settles e u tab d t (ExceptT.run (Attempt.handle s)) := by
  induction n generalizing s t with
  | zero =>
    -- Nothing can be nested in the block.
    refine settles_of_nested he hs hdepth (fun s' _ hd' c _ hc hlimit => ?_) t
    omega
  | succ n ih =>
    refine settles_of_nested he hs hdepth (fun s' hg hd' c hcg hc hlimit t => ?_) t
    refine ih ?_ (Nat.le_trans hlimit hd) (by omega) t
    rw [Site.tab, hcg, hg]
    exact hs

/-! ## What it is to settle -/

/-- An execution that ends. Nobody listens meanwhile to the results of the blocks of a tab. -/
structure Halts (e : Engine) (u : TaskId) (tab : String) (d : Nat) (p : Execution α) : Prop where
  /-- It ends where nobody else does anything. -/
  alone : ∀ w : World, w.Untold tab → ∃ fuel a w', e.poll u fuel w p = (.done a, w')
  /-- It ends whatever others do between its steps, which are performed in the states `σ`. -/
  amid : ∀ σ : Nat → World, (∀ n, (σ n).Untold tab) → (∀ n, (σ n).locks.Le (σ (n + 1)).locks) →
    ∃ n a, e.replay u p ((List.range n).map σ) = some (.done a)
  /-- Until then it begins no block deeper than `d`. -/
  shallow : ∀ ws q c, (∀ w ∈ ws, w.Untold tab) →
    (ws.Pairwise fun w w' => w.locks.Le w'.locks) →
    e.replay u p ws = some q → q.Begins c → c.depth ≤ d

namespace Settles

variable {p q : Execution α}

theorem alone (h : Settles e u tab d t p) {w : World} (hw : w.Untold tab) (hle : t.Le w.locks) :
    ∃ fuel a w', e.poll u fuel w p = (.done a, w') := by
  induction h generalizing w with
  | done a => exact ⟨0, a, w, rfl⟩
  | step _ hnext _ ih =>
    obtain ⟨p', w', hstep, hw', hle'⟩ := hnext w hw hle
    obtain ⟨fuel, a, w'', hpoll⟩ := ih w p' w' hw hle hstep hw' hle'
    refine ⟨fuel + 1, a, w'', ?_⟩
    rw [poll, hstep]
    exact hpoll

theorem amid (h : Settles e u tab d t p) {σ : Nat → World} (hσ : ∀ n, (σ n).Untold tab)
    (hle : ∀ n, (σ n).locks.Le (σ (n + 1)).locks) (hfirst : t.Le (σ 0).locks) :
    ∃ n a, e.replay u p ((List.range n).map σ) = some (.done a) := by
  induction h generalizing σ with
  | done a => exact ⟨0, a, rfl⟩
  | step _ hnext _ ih =>
    obtain ⟨p', w', hstep, -⟩ := hnext (σ 0) (hσ 0) hfirst
    obtain ⟨n, a, hreplay⟩ := ih (σ 0) p' w' (hσ 0) hfirst hstep (fun n => hσ (n + 1))
      (fun n => hle (n + 1)) (hle 0)
    refine ⟨n + 1, a, ?_⟩
    rw [List.range_succ_eq_map, List.map_cons, List.map_map, replay, hstep]
    exact hreplay

theorem shallow (h : Settles e u tab d t p) {ws : List World} (hws : ∀ w ∈ ws, w.Untold tab)
    (hle : ∀ w ∈ ws, t.Le w.locks) (hchain : ws.Pairwise fun w w' => w.locks.Le w'.locks)
    (hq : e.replay u p ws = some q) {c : Site} (hc : q.Begins c) : c.depth ≤ d := by
  induction h generalizing ws with
  | done a =>
    cases ws with
    | nil =>
      obtain rfl := Option.some.inj hq
      cases hc
    | cons w ws => cases hq
  | step hdepth _ _ ih =>
    cases ws with
    | nil =>
      obtain rfl := Option.some.inj hq
      exact hdepth c hc
    | cons w ws =>
      obtain ⟨⟨p', w'⟩, hstep, hrest⟩ := Option.bind_eq_some_iff.1 hq
      obtain ⟨hafter, hchain⟩ := List.pairwise_cons.1 hchain
      exact ih w p' w' (hws w List.mem_cons_self) (hle w List.mem_cons_self) hstep
        (fun w hw => hws w (List.mem_cons_of_mem _ hw)) hafter hchain hrest

/-- What settles from the empty table on ends. -/
theorem halts (h : Settles e u tab d .empty p) : Halts e u tab d p where
  alone _ hw := h.alone hw (.of_empty _)
  amid _ hσ hle := h.amid hσ hle (.of_empty _)
  shallow _ _ _ hws hchain hq hc := h.shallow hws (fun _ _ => .of_empty _) hchain hq hc

end Settles

/-! ## Turns -/

/-- The turns of the chain that begins with a block: the blocks it has run, and what comes next. -/
inductive Turns (e : Engine) (u : TaskId) (s : Site) : List Site → Routine → Prop
  | start : Turns e u s [] (.chain [] s)
  | turn {ran : List Site} {visited : List String} {c : Site} {next : Routine} {ws : List World} :
      Turns e u s ran (.chain visited c) →
      e.replay u (ExceptT.run (e.chainTurn visited c)) ws = some (.done (.ok (.again next))) →
      Turns e u s (ran ++ [c]) next

/-- A chain has run no block twice, and stays at its depth. -/
theorem Turns.once {s : Site} {ran : List Site} {r : Routine} (h : Turns e u s ran r) :
    (ran.map Site.id).Nodup ∧
      ∃ c, r = .chain (ran.map Site.id).reverse c ∧ c.depth = s.depth := by
  induction h with
  | start => exact ⟨List.nodup_nil, s, rfl, rfl⟩
  | @turn ran visited c next ws _ hreplay ih =>
    obtain ⟨hnodup, c', hr, hdepth⟩ := ih
    obtain ⟨rfl, rfl⟩ := Routine.chain.inj hr
    have hends := (ends_chainTurn e (ran.map Site.id).reverse c).replay hreplay
    obtain ⟨hnew, c', hc', rfl⟩ := hends next rfl
    rw [List.mem_reverse] at hnew
    refine ⟨?_, c', ?_, (Site.depth_next? hc').trans hdepth⟩
    · rw [List.map_append, List.nodup_append]
      refine ⟨hnodup, by simp, ?_⟩
      rintro x hx y hy rfl
      exact hnew (List.mem_singleton.1 hy ▸ hx)
    · rw [List.map_append, List.reverse_append]
      rfl

/-- The turn of a block visited before ends the chain without running the block. -/
theorem chainTurn_of_visited {visited : List String} {s : Site} (h : s.id ∈ visited) :
    ExceptT.run (e.chainTurn visited s) = .done (.ok (.over .proceed)) := by
  unfold chainTurn
  rw [if_pos (List.contains_iff_mem.2 h)]
  rfl

end Engine

/-! ## References to nested blocks -/

theorem Attempt.ofExcept_ok_bind (x : α) (k : α → Attempt β) :
    (Attempt.ofExcept (.ok x) >>= k) = k x := rfl

namespace Site

variable {env : Environment} {s : Site} {key id : String} {i : Input} {b : Block}

/-- The block `b` nested in a block. -/
def nest (s : Site) (b : Block) : Site := { s with block := b, depth := s.depth + 1 }

/-- The error of a reference to a block that would be nested too deep. -/
def tooDeep (env : Environment) (id : String) : EngineError :=
  .malformedGraph (.tooDeep env.settings.maxDepth id)

theorem child_of_deep (h : env.settings.maxDepth < s.depth + 1) :
    s.child env.settings.maxDepth id = .error (tooDeep env id) := if_pos h

theorem child_of_shallow (h : s.depth + 1 ≤ env.settings.maxDepth)
    (hb : s.generation.graph.get? id = some b) :
    s.child env.settings.maxDepth id = .ok (s.nest b) := goTo_eq_ok_iff.2 ⟨h, b, hb, rfl⟩

/-- A reference is read by going to the block and evaluating it. -/
theorem inputValue_of_block (hi : s.block.input? key = .ok (some i)) (hid : i.content = .block id)
    (hmode : i.alwaysReference = false) :
    s.inputValue env key =
      (Attempt.ofExcept (s.child env.settings.maxDepth id) >>= Attempt.evaluate) := by
  have hdecoded : s.decodedInput key = .ok i := by
    unfold decodedInput
    rw [hi]
    rfl
  unfold inputValue input
  rw [hdecoded]
  obtain ⟨tag, content⟩ := i
  obtain rfl : content = .block id := hid
  refine (Attempt.ofExcept_ok_bind _ _).trans ?_
  simp only [hmode]
  rfl

/-- A reference is handled by going to the block and running its chain. -/
theorem handleInput_of_block (hi : s.block.input? key = .ok (some i))
    (hid : i.content = .block id) (hpresent : s.hasInput key = true) :
    s.handleInput env key =
      (Attempt.ofExcept (s.child env.settings.maxDepth id) >>= Attempt.handle) := by
  unfold handleInput inputBlock?
  obtain ⟨tag, content⟩ := i
  obtain rfl : content = .block id := hid
  rw [if_pos hpresent, hi]
  cases hc : s.child env.settings.maxDepth id with
  | ok c =>
    simp only [bind, Except.bind, hc]
    rfl
  | error err =>
    simp only [bind, Except.bind, hc]
    rfl

end Site

/-! ## Failing blocks -/

namespace Engine

variable {e : Engine} {u : TaskId} {s : Site} {ws : List World} {err : EngineError}

/-- The handler of a block fails with an error after steps in some states. -/
def Fails (e : Engine) (u : TaskId) (s : Site) (ws : List World) (err : EngineError) : Prop :=
  ∃ b, e.lookup s = .ok b ∧
    match b.behaviour with
    | .reporter run => e.replay u (ExceptT.run (run e.environment s)) ws = some (.done (.error err))
    | .command run | .hat run =>
      e.replay u (ExceptT.run (run e.environment s)) ws = some (.done (.error err))

/-- An attempt fails if its first part does. -/
theorem replay_bind_error {a : Attempt α} {k : α → Attempt β}
    (h : e.replay u (ExceptT.run a) ws = some (.done (.error err))) :
    e.replay u (ExceptT.run (a >>= k)) ws = some (.done (.error err)) :=
  replay_bind_iff.2 ⟨ws, [], .error err, (List.append_nil ws).symm, h, rfl⟩

theorem replay_annotated (s : Site) {a : Attempt α}
    (h : e.replay u (ExceptT.run a) ws = some (.done (.error err))) :
    e.replay u (ExceptT.run (Attempt.annotated s a)) ws = some (.done (.error (s.annotate err))) :=
  replay_bind_iff.2 ⟨ws, [], .error err, (List.append_nil ws).symm, h, rfl⟩

/-- An expression fails with the error of its handler, under the name of its block. -/
theorem Fails.evaluate (h : e.Fails u s ws err) (w : World) :
    e.replay u (ExceptT.run (Attempt.evaluate s)) (w :: ws) =
      some (.done (.error (s.annotate err))) := by
  obtain ⟨b, hb, hrun⟩ := h
  change e.replay u ((ExceptT.run (e.evaluation s)).bind .done) ws = _
  rw [Execution.bind_done]
  unfold evaluation
  rw [hb, Attempt.ofExcept_ok_bind]
  refine replay_bind_error (replay_annotated s ?_)
  cases hk : b.behaviour with
  | reporter run =>
    rw [hk] at hrun
    exact hrun
  | command run | hat run =>
    rw [hk] at hrun
    exact replay_bind_error hrun

/-- A chain fails with the error of a handler, under the name of its block. -/
theorem Fails.chain (h : e.Fails u s ws err) {visited : List String} (hnew : s.id ∉ visited)
    (w : World) :
    e.replay u (ExceptT.run (Attempt.routine (.chain visited s))) (w :: ws) =
      some (.done (.error (s.annotate err))) := by
  obtain ⟨b, hb, hrun⟩ := h
  change e.replay u ((ExceptT.run (e.chainTurn visited s)).bind (afterTurn .done)) ws = _
  refine replay_bind_iff.2 ⟨ws, [], .error (s.annotate err), (List.append_nil ws).symm, ?_, rfl⟩
  unfold chainTurn
  rw [if_neg (by simpa using hnew), hb, Attempt.ofExcept_ok_bind]
  cases hk : b.behaviour with
  | command run | hat run | reporter run =>
    rw [hk] at hrun
    exact replay_bind_error (replay_annotated s hrun)

/-! ## The theorem -/

/-- How a block is interpreted by the task `u`, whatever the links of its graph are. -/
structure Bounded (e : Engine) (u : TaskId) (s : Site) : Prop where
  /-- As an expression the block comes to an end. No block is begun too deep. -/
  evaluates : e.Halts u s.tab (max e.settings.maxDepth s.depth) (ExceptT.run (Attempt.evaluate s))
  /-- So does the chain that begins with the block. -/
  handles : e.Halts u s.tab (max e.settings.maxDepth s.depth) (ExceptT.run (Attempt.handle s))
  /-- A block nested in it within the limit runs, one deeper. -/
  nested : ∀ key i id b, s.block.input? key = .ok (some i) → i.content = .block id →
    s.generation.graph.get? id = some b → s.depth + 1 ≤ e.settings.maxDepth →
    (i.alwaysReference = false →
      s.inputValue e.environment key = Attempt.evaluate (s.nest b)) ∧
    (s.hasInput key = true → s.handleInput e.environment key = Attempt.handle (s.nest b))
  /-- A reference to a block that would be nested too deep fails. -/
  tooDeep : ∀ key i id, s.block.input? key = .ok (some i) → i.content = .block id →
    e.settings.maxDepth < s.depth + 1 →
    (i.alwaysReference = false → ExceptT.run (s.inputValue e.environment key) =
      .done (.error (.malformedGraph (.tooDeep e.settings.maxDepth id)))) ∧
    (s.hasInput key = true → ExceptT.run (s.handleInput e.environment key) =
      .done (.error (.malformedGraph (.tooDeep e.settings.maxDepth id))))
  /-- When its handler fails so, the block does, in either way, with its own name in the error. -/
  fails : ∀ ws id w, e.Fails u s ws (.malformedGraph (.tooDeep e.settings.maxDepth id)) →
    let named := EngineError.atBlock s.tab s.id s.block.opcode
      (.malformedGraph (.tooDeep e.settings.maxDepth id))
    e.replay u (ExceptT.run (Attempt.evaluate s)) (w :: ws) = some (.done (.error named)) ∧
    ∀ visited, s.id ∉ visited →
      e.replay u (ExceptT.run (Attempt.routine (.chain visited s))) (w :: ws) =
        some (.done (.error named))
  /-- The chain stays at its depth and runs no block twice; it ends before one that it has run. -/
  once : ∀ ran r, e.Turns u s ran r → (ran.map Site.id).Nodup ∧
    ∃ c, r = .chain (ran.map Site.id).reverse c ∧ c.depth = s.depth ∧
      (c.id ∈ ran.map Site.id → ExceptT.run (e.turn r) = .done (.ok (.over .proceed)))

/-- The interpretation of blocks that resolve inputs ends, within the limits of depth and chains. -/
theorem interpretation_bounded (he : e.Resolves) (u : TaskId) (s : Site) : e.Bounded u s := by
  have hsettles := settles_site (u := u) he (Nat.le_max_left e.settings.maxDepth s.depth)
    (e.settings.maxDepth + 1) rfl (Nat.le_max_right _ _) (by omega) .empty
  refine ⟨hsettles.1.halts, hsettles.2.halts, ?_, ?_, ?_, ?_⟩
  · intro key i id b hi hid hb hdepth
    have hchild : s.child e.environment.settings.maxDepth id = .ok (s.nest b) :=
      Site.child_of_shallow hdepth hb
    refine ⟨fun hmode => ?_, fun hpresent => ?_⟩
    · rw [Site.inputValue_of_block hi hid hmode, hchild]
      rfl
    · rw [Site.handleInput_of_block hi hid hpresent, hchild]
      rfl
  · intro key i id hi hid hdepth
    have hchild : s.child e.environment.settings.maxDepth id = .error _ :=
      Site.child_of_deep hdepth
    refine ⟨fun hmode => ?_, fun hpresent => ?_⟩
    · rw [Site.inputValue_of_block hi hid hmode, hchild]
      rfl
    · rw [Site.handleInput_of_block hi hid hpresent, hchild]
      rfl
  · intro ws id w hfails
    exact ⟨hfails.evaluate w, fun visited hnew => hfails.chain hnew w⟩
  · intro ran r hturns
    obtain ⟨hnodup, c, rfl, hdepth⟩ := hturns.once
    exact ⟨hnodup, c, rfl, hdepth, fun hran => chainTurn_of_visited (List.mem_reverse.2 hran)⟩

/-- A block that is linked to itself by all its links and inputs. -/
theorem interpretation_bounded_of_loop :
    let e : Engine := ⟨(Registry.empty.registerAll Library.resolving).1, ⟨100, 20, 3⟩, none, "main"⟩
    let b : Block := {
      id := "a", opcode := ⟨"operator", "add"⟩, shadow := false, topLevel := true
      parent := some "a", next := some "a", fields := []
      inputs := [("NUM1", [.num (.int 2), .str "a"]), ("NUM2", [.num (.int 2), .str "a"])]
      mutation := none, extra := [], defined := true }
    let s : Site := ⟨⟨0, "tab", "Tab", ⟨[b], []⟩⟩, b, 0, ⟨0, some "tab", none⟩⟩
    (e.Resolves ∧ e.Bounded 1 s) ∧
      (∃ fuel r w', e.poll 1 fuel (.start 8) (ExceptT.run (Attempt.handle s)) = (.done r, w')) ∧
      ExceptT.run (({ s with depth := 3 } : Site).inputValue e.environment "NUM1") =
        .done (.error (.malformedGraph (.tooDeep 3 "a"))) := by
  intro e b s
  have he : e.Resolves := resolves_of_library (List.Subset.refl _) rfl
  have huntold : (World.start 8).Untold "tab" := ⟨.empty, nofun⟩
  have hdeep := (interpretation_bounded he 1 { s with depth := 3 }).tooDeep "NUM1"
    ⟨.reference, .block "a"⟩ "a" rfl rfl (by decide)
  exact ⟨⟨he, interpretation_bounded he 1 s⟩,
    (interpretation_bounded he 1 s).handles.alone _ huntold, hdeep.1 rfl⟩

end Engine
end BlockEngine
