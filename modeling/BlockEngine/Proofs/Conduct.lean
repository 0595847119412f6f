import BlockEngine.Proofs.Effects

/-!
# Block code

What the code of blocks is made of, as executions that conduct themselves.

* `Does` : an execution that keeps its stage and answers as stated; `Plays` : the same of an attempt;
* one lemma for each of the steps that blocks are made of.
-/

namespace BlockEngine

variable {α β : Type} {e : Engine} {t : TaskId} {γ : Stage} {v v' : View}

/-- An execution that conducts itself, keeps its stage and answers as `P` says. -/
def Does (e : Engine) (t : TaskId) (γ : Stage) (v : View) (p : Execution α)
    (P : View → α → Prop) : Prop :=
  Conducts e t (fun γ' v' a => γ' = γ ∧ v ≤ v' ∧ P v' a) γ v p

/-- An attempt that conducts itself, keeps its stage and answers as `P` says if it succeeds. -/
def Plays (e : Engine) (t : TaskId) (γ : Stage) (v : View) (a : Attempt α)
    (P : View → α → Prop) : Prop :=
  Does e t γ v (ExceptT.run a) fun v' r => ∀ x, r = .ok x → P v' x

/-- Nothing is claimed of an answer. -/
abbrev anything : View → α → Prop := fun _ _ => True

/-! ## Composition -/

namespace Does

variable {P : View → α → Prop} {R : View → β → Prop} {p : Execution α}

theorem pure {a : α} (h : P v a) : Does e t γ v (.done a) P := .done ⟨rfl, View.le_refl v, h⟩

theorem bind (h : Does e t γ v p P) {k : α → Execution β}
    (hk : ∀ v' a, v ≤ v' → P v' a → Does e t γ v' (k a) R) : Does e t γ v (p.bind k) R := by
  refine Conducts.bind h fun γ' v' a ⟨hγ, hle, ha⟩ => ?_
  subst hγ
  exact Conducts.weaken (hk v' a hle ha) fun γ'' v'' b ⟨hγ', hle', hb⟩ =>
    ⟨hγ', View.le_trans hle hle', hb⟩

theorem weaken (h : Does e t γ v p P) {P' : View → α → Prop}
    (hP : ∀ v' a, v ≤ v' → P v' a → P' v' a) : Does e t γ v p P' :=
  Conducts.weaken h fun _ v' a ⟨hγ, hle, ha⟩ => ⟨hγ, hle, hP v' a hle ha⟩

theorem act {f : World → World} {k : World → Execution α}
    (heff : ∀ w, v ≤ w.view → w.view.Sound e → Effect e t γ w.view γ (f w).view)
    (hk : ∀ w, v ≤ w.view → w.view.Sound e → v ≤ (f w).view → Does e t γ (f w).view (k w) P) :
    Does e t γ v (.act f k) P := by
  refine Conducts.act (fun _ => γ) heff fun w hle hs => ?_
  have hle' := View.le_trans hle ((heff w hle hs).le hs)
  exact Conducts.weaken (hk w hle hs hle') fun γ' v' a ⟨hγ, hle'', ha⟩ =>
    ⟨hγ, View.le_trans hle' hle'', ha⟩

theorem look : Does e t γ v Execution.look fun v' w => v' = w.view ∧ w.view.Sound e :=
  .act (fun _ _ _ => .idle) fun _ _ hs _ => .pure ⟨rfl, hs⟩

theorem change {f : World → World}
    (heff : ∀ w, v ≤ w.view → w.view.Sound e → Effect e t γ w.view γ (f w).view) :
    Does e t γ v (Execution.change f) anything :=
  .act heff fun _ _ _ _ => .pure trivial

theorem atomically {f : World → α × World}
    (heff : ∀ w, v ≤ w.view → w.view.Sound e → Effect e t γ w.view γ (f w).2.view)
    (hP : ∀ w, v ≤ w.view → w.view.Sound e → P (f w).2.view (f w).1) :
    Does e t γ v (Execution.atomically f) P :=
  .act heff fun w hle hs _ => .pure (hP w hle hs)

theorem signalLock {tab : String} {l : LockId} (h : v.IsPlain tab l) (x : Json) :
    Does e t γ v (Execution.signalLock l x) anything :=
  Conducts.signal h fun _ _ hle => .done ⟨rfl, hle, trivial⟩

theorem sleep (n : Nat) : Does e t γ v (Execution.sleep n) anything :=
  look.bind fun _ _ _ _ => Conducts.time fun _ hle => .done ⟨rfl, hle, trivial⟩

end Does

namespace Plays

variable {P : View → α → Prop} {R : View → β → Prop} {a : Attempt α}

theorem pure {x : α} (h : P v x) : Plays e t γ v (pure x) P :=
  Does.pure fun _ hx => Except.ok.inj hx ▸ h

theorem throw (err : EngineError) : Plays e t γ v (throw err : Attempt α) P :=
  Does.pure fun _ hx => by cases hx

theorem bind (h : Plays e t γ v a P) {k : α → Attempt β}
    (hk : ∀ v' x, v ≤ v' → P v' x → Plays e t γ v' (k x) R) : Plays e t γ v (a >>= k) R := by
  refine Does.bind h fun v' r hle hr => ?_
  cases r with
  | ok x => exact hk v' x hle (hr x rfl)
  | error err => exact Does.pure fun _ hx => by cases hx

theorem weaken (h : Plays e t γ v a P) {P' : View → α → Prop}
    (hP : ∀ v' x, v ≤ v' → P v' x → P' v' x) : Plays e t γ v a P' :=
  Does.weaken h fun v' _ hle hr x hx => hP v' x hle (hr x hx)

theorem any (h : Plays e t γ v a P) : Plays e t γ v a anything :=
  h.weaken fun _ _ _ _ => trivial

/-- The answer of an attempt does not matter afterwards. -/
theorem andThen (h : Plays e t γ v a P) {k : α → Attempt β}
    (hk : ∀ v' x, v ≤ v' → Plays e t γ v' (k x) R) : Plays e t γ v (a >>= k) R :=
  h.bind fun v' x hle _ => hk v' x hle

theorem ofExcept {x : Except EngineError α} (h : ∀ y, x = .ok y → P v y) :
    Plays e t γ v (Attempt.ofExcept x) P :=
  Does.pure h

theorem lift {p : Execution α} (h : Does e t γ v p P) : Plays e t γ v (monadLift p) P :=
  Does.bind h fun _ _ _ ha => Does.pure fun _ hy => Except.ok.inj hy ▸ ha

theorem annotated {s : Site} (h : Plays e t γ v a P) :
    Plays e t γ v (Attempt.annotated s a) P := by
  refine Does.bind h fun v' r hle hr => Does.pure fun x hx => ?_
  cases r with
  | ok y => exact hr x hx
  | error err => cases hx

end Plays

/-! ## Sites -/

/-- A site of the generation that a thread acts for. -/
structure Site.AtHome (s : Site) (γ : Stage) (v : View) : Prop where
  home : γ.home = some s.generation
  known : v.Known s.generation

namespace Site.AtHome

variable {s s' : Site}

theorem mono (h : s.AtHome γ v) (hle : v ≤ v') : s.AtHome γ v' := ⟨h.home, h.known.mono hle⟩

theorem of_eq (h : s.AtHome γ v) (hg : s'.generation = s.generation) : s'.AtHome γ v :=
  ⟨hg ▸ h.home, hg ▸ h.known⟩

end Site.AtHome

theorem Graph.id_of_get? {g : Graph} {id : String} {c : Block} (h : g.get? id = some c) :
    c.id = id := by
  simpa using List.find?_some h

theorem Graph.block_eq_ok_iff {g : Graph} {id : String} {b : Block} :
    g.block id = .ok b ↔ g.get? id = some b := by
  unfold block
  cases g.get? id with
  | none => simp
  | some c => simp

/-- Where a block can be gone to: the depth is within the limit, and the block is there. -/
theorem Site.goTo_eq_ok_iff {s c : Site} {limit depth : Nat} {id : String} :
    s.goTo limit id depth = .ok c ↔ depth ≤ limit ∧
      ∃ b, s.generation.graph.get? id = some b ∧ c = { s with block := b, depth } := by
  unfold goTo
  by_cases hdeep : limit < depth
  · rw [if_pos hdeep]
    exact ⟨nofun, fun h => absurd h.1 (Nat.not_le_of_lt hdeep)⟩
  · rw [if_neg hdeep]
    simp only [← Graph.block_eq_ok_iff]
    cases s.generation.graph.block id with
    | error err => exact ⟨nofun, fun ⟨_, _, hb, _⟩ => nomatch hb⟩
    | ok b =>
      constructor
      · intro h
        exact ⟨Nat.le_of_not_lt hdeep, b, rfl, (Except.ok.inj h).symm⟩
      · rintro ⟨-, b', hb, rfl⟩
        obtain rfl := Except.ok.inj hb
        rfl

theorem Site.next?_eq_some_iff {s c : Site} {limit : Nat} :
    s.next? limit = some c ↔ ∃ id, s.block.next = some id ∧ s.goTo limit id s.depth = .ok c := by
  unfold next?
  rw [Option.bind_eq_some_iff]
  refine exists_congr fun id => and_congr_right fun _ => ?_
  cases s.goTo limit id s.depth <;> simp [Except.toOption]

/-- The block plugged into an input is a child. -/
theorem Site.child_of_inputBlock? {env : Environment} {s c : Site} {key : String}
    (h : s.inputBlock? env key = .ok (some c)) :
    ∃ id, s.child env.settings.maxDepth id = .ok c := by
  unfold inputBlock? at h
  split at h
  · cases hi : s.block.input? key with
    | error err => rw [hi] at h; exact absurd h (by simp [bind, Except.bind])
    | ok i =>
      rw [hi] at h
      simp only [bind, Except.bind] at h
      split at h
      · next id =>
        cases hc : s.child env.settings.maxDepth id with
        | error err => rw [hc] at h; exact absurd h (by simp)
        | ok c' =>
          rw [hc] at h
          obtain rfl := Option.some.inj (Except.ok.inj h)
          exact ⟨id, hc⟩
      · exact absurd (Except.ok.inj h) (by simp)
  · exact absurd (Except.ok.inj h) (by simp)

theorem Site.generation_goTo {s s' : Site} {limit depth : Nat} {id : String}
    (h : s.goTo limit id depth = .ok s') : s'.generation = s.generation := by
  obtain ⟨-, b, -, rfl⟩ := goTo_eq_ok_iff.1 h
  rfl

theorem Site.generation_child {s s' : Site} {limit : Nat} {id : String}
    (h : s.child limit id = .ok s') : s'.generation = s.generation :=
  generation_goTo h

theorem Site.generation_next? {s s' : Site} {limit : Nat} (h : s.next? limit = some s') :
    s'.generation = s.generation := by
  obtain ⟨id, -, hid⟩ := next?_eq_some_iff.1 h
  exact generation_goTo hid

theorem Site.depth_next? {s c : Site} {limit : Nat} (h : s.next? limit = some c) :
    c.depth = s.depth := by
  obtain ⟨id, -, hid⟩ := next?_eq_some_iff.1 h
  obtain ⟨-, b, -, rfl⟩ := goTo_eq_ok_iff.1 hid
  rfl

theorem Site.generation_inputBlock? {env : Environment} {s s' : Site} {key : String}
    (h : s.inputBlock? env key = .ok (some s')) : s'.generation = s.generation := by
  obtain ⟨id, hid⟩ := child_of_inputBlock? h
  exact generation_child hid

namespace Plays

variable {s : Site} {P : View → α → Prop}

theorem evaluate (hs : s.AtHome γ v) : Plays e t γ v (Attempt.evaluate s) anything :=
  Conducts.evaluate hs.home hs.known fun _ _ hle => .done ⟨rfl, hle, fun _ _ => trivial⟩

theorem routine {r : Routine} (hs : s.AtHome γ v) (hr : r.Coherent v s.generation) :
    Plays e t γ v (Attempt.routine r) anything :=
  Conducts.run hs.home hs.known hr fun _ _ hle => .done ⟨rfl, hle, fun _ _ => trivial⟩

theorem handle (hs : s.AtHome γ v) : Plays e t γ v (Attempt.handle s) anything :=
  routine hs rfl

end Plays

/-! ## Values and variables -/

namespace GenerationState

theorem value?_store (s : GenerationState) (block key : String) (x : Json)
    (block' key' : String) : (s.store block key x).value? block' key' =
      if block' = block ∧ key' = key then some x else s.value? block' key' := by
  unfold value? store
  rw [Keyed.get?_insert]
  by_cases hb : block' = block
  · subst hb
    rw [if_pos rfl, Option.bind_some, Keyed.get?_insert]
    by_cases hk : key' = key
    · simp [hk]
    · cases hs : Keyed.get? block' s.values <;> simp [hk, Keyed.get?]
  · simp [hb]

theorem keepsTasks_store (block key : String) (x : Json) : KeepsTasks (·.store block key x) :=
  fun _ => ⟨rfl, rfl, rfl⟩

theorem keepsNames_store (block : String) {key : String} (hkey : IsReserved key) (x : Json) :
    KeepsNames (·.store block key x) := fun s block' key' hkey' => by
  rw [value?_store, if_neg]
  rintro ⟨-, rfl⟩
  exact hkey' hkey

end GenerationState

theorem World.view_storeValue (w : World) (n : Nat) (block key : String) (x : Json) :
    (w.storeValue n block key x).view = w.view.modifyGeneration n (·.store block key x) :=
  World.view_modifyGeneration ..

namespace Does

theorem signalKey (tab : String) {key : String} (hkey : IsPlainKey key) (x : Json) :
    Does e t γ v (Execution.signalKey tab key x) anything := by
  refine bind look fun v₁ w _ ⟨hv, hs⟩ => ?_
  cases hl : w.locks.find? tab key with
  | none => exact pure trivial
  | some l =>
    obtain ⟨y, hy, htab, hykey, -⟩ := hs.locks.find?_spec hl
    exact bind (signalLock ⟨y, hv ▸ hy, htab, hykey ▸ hkey⟩ x) fun _ _ _ _ => pure trivial

theorem setValue (g : Generation) (block : String) {key : String} (hkey : IsReserved key)
    (x : Json) : Does e t γ v (Execution.setValue g block key x) anything := by
  unfold Execution.setValue
  refine bind (change fun w _ _ => ?_) fun v₁ _ _ _ => ?_
  · rw [World.view_storeValue]
    exact .touch (GenerationState.keepsTasks_store block key x)
      (GenerationState.keepsNames_store block hkey x) fun _ => rfl
  · split
    · exact bind (signalKey g.tab (isPlainKey_value block) x) fun _ _ _ _ => pure trivial
    · exact pure trivial

theorem keep (s : Site) {key : String} (hkey : IsReserved key) (x : Json) :
    Does e t γ v (Engine.keep s key x) anything :=
  setValue _ _ hkey _

theorem signalLocks {ls : List LockId} (h : ∀ l ∈ ls, ∃ tab, v.IsPlain tab l) (x : Json) :
    Does e t γ v (Execution.signalLocks x ls) anything := by
  induction ls generalizing v with
  | nil => exact pure trivial
  | cons l ls ih =>
    obtain ⟨tab, hl⟩ := h l List.mem_cons_self
    refine bind (signalLock hl x) fun v' _ hle _ => ih fun l' hl' => ?_
    obtain ⟨tab', h'⟩ := h l' (List.mem_cons_of_mem _ hl')
    exact ⟨tab', h'.mono hle⟩

theorem signalAllTabs {key : String} (hkey : IsPlainKey key) (x : Json) :
    Does e t γ v (Execution.signalAllTabs key x) anything := by
  unfold Execution.signalAllTabs
  refine bind look fun v₁ w _ ⟨hv, hs⟩ => bind (signalLocks (fun l hl => ?_) x) fun _ _ _ _ =>
    pure trivial
  obtain ⟨p, hp, hq⟩ := List.mem_filterMap.1 hl
  obtain ⟨y, hy, -, hk, -⟩ := hs.locks.held p hp _ (Keyed.mem_of_get? hq)
  exact ⟨y.tab, y, hv ▸ hy, rfl, hk ▸ hkey⟩

theorem writeVariable (id : String) (x : Json) :
    Does e t γ v (Execution.writeVariable id x) anything :=
  bind (P := anything) (atomically (fun _ _ _ => .idle) fun _ _ _ => trivial) fun _ _ _ _ =>
    bind (signalAllTabs (isPlainKey_variableWrite id) x) fun _ _ _ _ => pure trivial

theorem draw : Does e t γ v Execution.draw anything :=
  atomically (fun _ _ _ => .draw (Nat.le_succ _)) fun _ _ _ => trivial

/-! ## Tasks -/

theorem spawn {s : Site} {c : Context} {j : Job} (hb : j.isBody = false) (hj : j.Coherent v)
    (hc : j.RunsIn c) (hhand : γ.hand.isSome = true) (ho : j.owner = s.generation.number) :
    Does e t γ v (Execution.spawn s c j) anything := by
  refine atomically (fun w hle _ => ?_) fun _ _ _ => trivial
  rw [World.view_spawn, ← ho]
  exact .spawn (Nat.le_refl _) hb (hj.mono hle) hc (.inr hhand)

theorem spawnIn {s : Site} {job : Context → Job} (hb : ∀ c, (job c).isBody = false)
    (hj : ∀ c, (job c).Coherent v) (hc : ∀ c, (job c).RunsIn c)
    (ho : ∀ c, (job c).owner = s.generation.number) :
    Does e t γ v (Execution.spawnIn s job) anything := by
  refine atomically (fun w hle _ => ?_) fun _ _ _ => trivial
  simp only [World.fresh]
  rw [World.view_spawn, ← ho (s.context.child w.issued)]
  exact .spawn (Nat.le_succ _) (hb _) ((hj _).mono hle) (hc _)
    (.inl ⟨Nat.le_refl _, Nat.lt_succ_self _⟩)

theorem spawnNext {s : Site} (h : v.Known s.generation) (limit : Nat) :
    Does e t γ v (Execution.spawnNext limit s) anything := by
  unfold Execution.spawnNext
  cases hn : s.next? limit with
  | none => exact pure trivial
  | some next =>
    have hg := Site.generation_next? hn
    have hnext : v.Known next.generation := hg ▸ h
    exact spawnIn (fun _ => rfl) (fun _ => hnext) (fun _ => rfl) fun _ =>
      congrArg Generation.number hg

theorem spawnChain {s chain : Site} (h : v.Known s.generation)
    (hg : chain.generation = s.generation) :
    Does e t γ v (Execution.spawnChain s chain) anything := by
  have hchain : v.Known chain.generation := hg ▸ h
  exact spawnIn (fun _ => rfl) (fun _ => hchain) (fun _ => rfl) fun _ =>
    congrArg Generation.number hg

/-! ## Locks -/

theorem obtainLock {s : Site} (hs : s.AtHome γ v) (key : LockKey) :
    Does e t γ v (Execution.obtainLock s key) fun v' l =>
      ∃ x, v'.locks.lock? l = some x ∧ x.tab = s.tab ∧ x.key = key.text ∧ x.released = false :=
  atomically (fun _ hle _ => .obtain hs.home (hs.known.mono hle)) fun _ _ hw =>
    hw.locks.obtain_spec ..

theorem obtainFor {s : Site} (hs : s.AtHome γ v) (key : LockKey) :
    Does e t γ v (Execution.obtainLock s key) fun v' l => v'.IsLockOf s.tab key l :=
  (obtainLock hs key).weaken fun _ _ _ ⟨x, hx, htab, hk, _⟩ => ⟨x, hx, htab, hk⟩

theorem listen {s : Site} {l : LockId} {r : Reaction} {key : LockKey} (hs : s.AtHome γ v)
    (hl : v.IsLockOf s.tab key l) (hr : r.Coherent e.environment v l)
    (hhome : r.home? = none ∨ r.home? = some s.generation) :
    Does e t γ v (Execution.listen s l r) anything := by
  refine change fun w hle _ => ?_
  simp only [World.addListener, World.view_modifyGeneration, World.view_withLocks]
  exact .listen (hr.mono hle) hhome hs.home (hs.known.mono hle) (hl.mono hle)

end Does

/-! ## Inputs -/

namespace Plays

variable {s : Site}

/-- A look at the state, of which nothing is kept but the answer. -/
theorem look : Plays e t γ v (monadLift Execution.look : Attempt World) fun v' w =>
    v' = w.view ∧ w.view.Sound e :=
  lift .look

theorem exec {p : Execution α} (h : Does e t γ v p anything) :
    Plays e t γ v (monadLift p : Attempt α) anything :=
  lift h

theorem variableValue (name id : String) :
    Plays e t γ v (Site.variableValue name id) anything := by
  refine andThen look fun v₁ w _ => ?_
  cases w.vars.value? id with
  | none => exact throw _
  | some x => exact pure trivial

theorem input (hs : s.AtHome γ v) (key : String) (mode : ReadMode) :
    Plays e t γ v (s.input e.environment key mode) anything := by
  refine andThen (P := anything) (ofExcept fun _ _ => trivial) fun v₁ i hle => ?_
  simp only
  generalize (if i.alwaysReference then ReadMode.reference else mode) = m
  split
  · exact pure trivial
  · exact pure trivial
  · refine bind (P := fun _ c => c.generation = s.generation)
      (ofExcept fun c hc => Site.generation_child hc) fun v₂ c hle' hc => ?_
    exact evaluate ((hs.mono (View.le_trans hle hle')).of_eq hc)
  · exact pure trivial
  · split
    · exact pure trivial
    · exact variableValue ..

theorem inputValue (hs : s.AtHome γ v) (key : String) :
    Plays e t γ v (s.inputValue e.environment key) anything :=
  input hs key .value

theorem inputText (hs : s.AtHome γ v) (key : String) :
    Plays e t γ v (s.inputText e.environment key) anything :=
  andThen (inputValue hs key) fun _ _ _ => pure trivial

theorem inputDouble (hs : s.AtHome γ v) (key : String) :
    Plays e t γ v (s.inputDouble e.environment key) anything := by
  refine andThen (inputValue hs key) fun _ x _ => ?_
  cases x.toDouble? with
  | none => exact throw _
  | some d => exact pure trivial

theorem inputInt (hs : s.AtHome γ v) (key : String) :
    Plays e t γ v (s.inputInt e.environment key) anything :=
  andThen (inputDouble hs key) fun _ _ _ => pure trivial

theorem inputBool (hs : s.AtHome γ v) (key : String) :
    Plays e t γ v (s.inputBool e.environment key) anything := by
  unfold Site.inputBool
  split
  · exact andThen (inputValue hs key) fun _ _ _ => pure trivial
  · exact pure trivial

/-- The body plugged into an input is of the same generation. -/
theorem inputBlock (s : Site) (key : String) :
    Plays e t γ v (Attempt.ofExcept (s.inputBlock? e.environment key)) fun _ b =>
      ∀ body, b = some body → body.generation = s.generation :=
  ofExcept fun _ hb _ hbody => Site.generation_inputBlock? (hbody ▸ hb)

theorem handleInput (hs : s.AtHome γ v) (key : String) :
    Plays e t γ v (s.handleInput e.environment key) anything := by
  refine bind (inputBlock s key) fun v₁ b hle hb => ?_
  cases b with
  | none => exact pure trivial
  | some body => exact handle ((hs.mono hle).of_eq (hb body rfl))

end Plays

end BlockEngine
