import BlockEngine.Proofs.Conduct

/-!
# The blocks of the core library

Every handler of the core library conducts itself as the code of a block: `StatementHandler.Orderly`
and `ExpressionHandler.Orderly`, one lemma for each handler. `Engine.orderly_of_core` collects them
for an engine with the core library.
-/

namespace BlockEngine

variable {e : Engine} {t : TaskId} {γ : Stage} {v v' : View}

/-- A handler that conducts itself as the code of a block, wherever it runs. -/
def StatementHandler.Orderly (e : Engine) (run : StatementHandler) : Prop :=
  ∀ (t : TaskId) (γ : Stage) (v : View) (s : Site), s.AtHome γ v →
    Plays e t γ v (run e.environment s) anything

def ExpressionHandler.Orderly (e : Engine) (run : ExpressionHandler) : Prop :=
  ∀ (t : TaskId) (γ : Stage) (v : View) (s : Site), s.AtHome γ v →
    Plays e t γ v (run e.environment s) anything

namespace Library

open Plays (andThen bind pure throw ofExcept exec lift look inputValue inputText inputDouble
  inputInt inputBool inputBlock handleInput input)

/-! ## Control -/

theorem plays_withBody {s : Site} {k : Site → Attempt Signal}
    (hk : ∀ v' body, v ≤ v' → body.generation = s.generation → Plays e t γ v' (k body) anything) :
    Plays e t γ v (withBody e.environment s k) anything := by
  refine bind (inputBlock s bodyInput) fun v' b hle hb => ?_
  cases b with
  | none => exact pure trivial
  | some body => exact hk v' body hle (hb body rfl)

theorem plays_inputDuration {s : Site} (hs : s.AtHome γ v) (key : String) :
    Plays e t γ v (inputDuration e.environment s key) anything := by
  refine andThen (inputInt hs key) fun v' amount _ => ?_
  simp only
  cases duration? (s.block.field "UNIT") amount.toNat with
  | none => exact throw _
  | some n => exact pure trivial

theorem plays_runLoop {s body : Site} (hs : s.AtHome γ v)
    (hb : body.generation = s.generation) (interval : Nat) (rule : LoopRule) :
    Plays e t γ v (runLoop e.environment s body interval rule) anything :=
  Plays.routine hs ⟨rfl, hb⟩

theorem orderly_forever : StatementHandler.Orderly e forever := fun _ _ _ _ hs =>
  plays_withBody fun _ _ hle hb => plays_runLoop (hs.mono hle) hb ..

theorem orderly_repeatTimes : StatementHandler.Orderly e repeatTimes := fun _ _ _ s hs =>
  plays_withBody fun v₁ body hle hb => by
    refine andThen (inputInt (hs.mono hle) _) fun v₂ n hle' => ?_
    split
    · exact pure trivial
    · exact plays_runLoop (hs.mono (View.le_trans hle hle')) hb ..

theorem orderly_repeatWhile : StatementHandler.Orderly e repeatWhile := fun _ _ _ s hs =>
  plays_withBody fun v₁ body hle hb => by
    split
    · exact plays_runLoop (hs.mono hle) hb ..
    · exact pure trivial

theorem orderly_schedule : StatementHandler.Orderly e schedule := fun _ _ _ _ hs =>
  plays_withBody fun _ _ hle hb =>
    andThen (plays_inputDuration (hs.mono hle) _) fun _ _ hle' =>
      plays_runLoop (hs.mono (View.le_trans hle hle')) hb ..

theorem orderly_ifThen : StatementHandler.Orderly e ifThen := fun _ _ _ s hs =>
  andThen (inputBool hs _) fun v₁ holds hle => by
    split
    · exact handleInput (hs.mono hle) _
    · exact pure trivial

theorem orderly_ifElse : StatementHandler.Orderly e ifElse := fun _ _ _ _ hs =>
  andThen (inputBool hs _) fun _ _ hle => handleInput (hs.mono hle) _

theorem orderly_wait : StatementHandler.Orderly e wait := fun _ _ _ s hs =>
  andThen (inputInt hs _) fun v₁ seconds hle => by
    split
    · exact throw _
    · exact andThen (exec (.sleep _)) fun _ _ _ => pure trivial

theorem orderly_waitUntil : StatementHandler.Orderly e waitUntil := fun _ _ _ s hs =>
  bind (lift (.obtainFor hs (.event s.id))) fun _ _ hle hl =>
    Plays.routine (hs.mono hle) ⟨rfl, hl.plain (isPlainKey_event s.id)⟩

theorem orderly_stop : StatementHandler.Orderly e fun _ _ => return .stop := fun _ _ _ _ _ =>
  pure trivial

theorem orderly_stopTimeout : StatementHandler.Orderly e stopTimeout := fun _ _ _ s hs =>
  andThen (plays_inputDuration hs _) fun _ timeout _ => by
    refine andThen (exec (.spawnIn (fun _ => rfl) ?_ ?_ fun _ => rfl)) fun _ _ _ => pure trivial
    · exact fun _ => trivial
    · exact fun _ => trivial

theorem orderly_watchInput (input : String) (kind : WatchKind) :
    StatementHandler.Orderly e (watchInput input kind) := fun _ _ _ s hs =>
  plays_withBody fun v₁ body hle hb => by
    split
    · refine bind (lift (.obtainFor (hs.mono hle) (.event s.id))) fun v₂ lock hle' hl => ?_
      have hs₂ := hs.mono (View.le_trans hle hle')
      refine andThen (exec (.listen hs₂ hl ?_ (.inr rfl))) fun v₃ _ hle'' => ?_
      · exact ⟨hs₂.known, hl, hb⟩
      refine andThen (exec (.spawnIn (fun _ => rfl) ?_ ?_ fun _ => rfl)) fun _ _ _ => pure trivial
      · exact fun _ => ⟨hs₂.known.mono hle'', (hl.mono hle'').plain (isPlainKey_event s.id)⟩
      · exact fun _ => trivial
    · exact pure trivial

/-! ## Variables -/

theorem orderly_readVariable : ExpressionHandler.Orderly e readVariable := fun _ _ _ _ _ =>
  andThen look fun _ _ _ => pure trivial

theorem orderly_readKept : ExpressionHandler.Orderly e readKept := fun _ _ _ s _ =>
  andThen look fun _ w _ => by
    cases s.parent? e.environment.settings.maxDepth <;> exact pure trivial

theorem orderly_setVariable : StatementHandler.Orderly e setVariable := fun _ _ _ s hs =>
  andThen (inputValue hs _) fun v₁ item hle => by
    split
    · exact andThen (exec (.writeVariable _ _)) fun _ _ _ => pure trivial
    · exact pure trivial

theorem orderly_changeVariable : StatementHandler.Orderly e changeVariable := fun _ _ _ _ hs =>
  andThen (inputDouble hs _) fun _ _ _ =>
    andThen look fun _ _ _ =>
      andThen (exec (.writeVariable _ _)) fun _ _ _ => pure trivial

theorem does_listenToVariable {s : Site} {r : Reaction} (hs : s.AtHome γ v)
    (hr : ∀ v' l, v ≤ v' → v'.IsLockOf s.tab (.variableWrite (variableId s)) l →
      r.Coherent e.environment v' l)
    (hhome : r.home? = none ∨ r.home? = some s.generation) :
    Does e t γ v (listenToVariable s r) anything :=
  .bind (.obtainFor hs (.variableWrite (variableId s))) fun v₁ l hle hl =>
    .listen (hs.mono hle) hl (hr v₁ l hle hl) hhome

theorem orderly_onChange : StatementHandler.Orderly e onChange := fun _ _ _ s hs => by
  refine andThen (exec (does_listenToVariable hs ?_ (.inr rfl))) fun _ _ _ => pure trivial
  exact fun _ _ hle hl => ⟨hs.known.mono hle, hl⟩

theorem orderly_onChangeTo : StatementHandler.Orderly e onChangeTo := fun _ _ _ s hs =>
  andThen (P := anything) (ofExcept fun _ _ => trivial) fun v₁ operator hle => by
    refine andThen (exec (does_listenToVariable (hs.mono hle) ?_ (.inr rfl))) fun _ _ _ =>
      pure trivial
    exact fun _ _ hle' hl => ⟨hs.known.mono (View.le_trans hle hle'), hl⟩

theorem orderly_linkVariable (field : String) (asTruth : Bool) :
    StatementHandler.Orderly e (linkVariable field asTruth) := fun _ _ _ s hs =>
  andThen (input hs _ _) fun v₁ source hle => by
    simp only
    split
    · exact throw _
    · refine andThen (P := anything) (ofExcept fun _ _ => trivial) fun v₂ _ hle' => ?_
      refine bind (lift (.obtainFor (hs.mono (View.le_trans hle hle')) (.value _)))
        fun v₃ lock hle'' hl => ?_
      have hs₃ := hs.mono (View.le_trans hle (View.le_trans hle' hle''))
      refine andThen (exec (.listen hs₃ hl ?_ (.inl rfl))) fun _ _ _ => pure trivial
      exact ⟨_, _, hl⟩

/-! ## Broadcasts and texts -/

theorem does_send {s : Site} (hs : s.AtHome γ v) (message : String) :
    Does e t γ v (send s message) anything :=
  .bind (.obtainFor hs (.broadcast message)) fun _ _ _ hl =>
    .signalLock (hl.plain (isPlainKey_broadcast message)) _

theorem orderly_broadcast : StatementHandler.Orderly e broadcast := fun _ _ _ _ hs =>
  andThen (input hs _ _) fun _ _ hle =>
    andThen (exec (does_send (hs.mono hle) _)) fun _ _ _ => pure trivial

theorem orderly_gotBroadcast : StatementHandler.Orderly e gotBroadcast := fun _ _ _ s hs =>
  bind (lift (.obtainFor hs (.broadcast _))) fun v₁ lock hle hl => by
    refine andThen (exec (.listen (hs.mono hle) hl ?_ (.inr rfl))) fun _ _ _ => pure trivial
    exact ⟨hs.known.mono hle, hl⟩

theorem orderly_print : StatementHandler.Orderly e print := fun _ _ _ s hs =>
  andThen (inputText hs _) fun v₁ text hle => by
    refine andThen (exec (.change fun w _ _ => ?_)) fun _ _ _ => pure trivial
    exact .idle

/-! ## Operators -/

theorem orderly_arithmetic (op : Double → Double → Double) :
    ExpressionHandler.Orderly e (arithmetic op) := fun _ _ _ _ hs =>
  andThen (inputDouble hs _) fun _ _ hle =>
    andThen (inputDouble (hs.mono hle) _) fun _ _ _ => pure trivial

theorem orderly_compare (op : Double → Double → Bool) :
    ExpressionHandler.Orderly e (compare op) := fun _ _ _ _ hs =>
  andThen (inputDouble hs _) fun _ _ hle =>
    andThen (inputDouble (hs.mono hle) _) fun _ _ _ => pure trivial

theorem orderly_random : ExpressionHandler.Orderly e random := fun _ _ _ _ hs =>
  andThen (inputInt hs _) fun _ _ hle =>
    andThen (inputInt (hs.mono hle) _) fun _ _ _ =>
      andThen (exec .draw) fun _ _ _ => pure trivial

theorem orderly_both : ExpressionHandler.Orderly e both := fun _ _ _ s hs =>
  andThen (inputBool hs _) fun v₁ holds hle => by
    split
    · exact andThen (inputBool (hs.mono hle) _) fun _ _ _ => pure trivial
    · exact pure trivial

theorem orderly_either : ExpressionHandler.Orderly e either := fun _ _ _ s hs =>
  andThen (inputBool hs _) fun v₁ holds hle => by
    split
    · exact pure trivial
    · exact andThen (inputBool (hs.mono hle) _) fun _ _ _ => pure trivial

theorem orderly_negation : ExpressionHandler.Orderly e negation := fun _ _ _ _ hs =>
  andThen (inputBool hs _) fun _ _ _ => pure trivial

theorem orderly_join : ExpressionHandler.Orderly e join := fun _ _ _ _ hs =>
  andThen (inputText hs _) fun _ _ hle =>
    andThen (inputText (hs.mono hle) _) fun _ _ _ => pure trivial

theorem orderly_mathOp : ExpressionHandler.Orderly e mathOp := fun _ _ _ s hs => by
  simp only [mathOp]
  cases mathFunction? (s.block.field "OPERATOR") with
  | none => exact throw _
  | some f => exact andThen (inputDouble hs _) fun _ _ _ => pure trivial

theorem orderly_boolToNumber : ExpressionHandler.Orderly e boolToNumber := fun _ _ _ _ hs =>
  andThen (inputBool hs _) fun _ _ _ => pure trivial

theorem orderly_boolChoice : ExpressionHandler.Orderly e boolChoice := fun _ _ _ _ hs =>
  andThen (inputBool hs _) fun _ _ hle =>
    andThen (inputDouble (hs.mono hle) _) fun _ _ _ => pure trivial

/-! ## Procedures -/

theorem orderly_definition : StatementHandler.Orderly e definition := fun _ _ _ s hs =>
  bind (P := fun _ d => definitionSignature e.environment s = .ok d) (ofExcept fun _ h => h)
    fun v₁ (m, signature) hle hd =>
    bind (lift (.obtainLock (hs.mono hle) (.procedure signature))) fun v₂ calls hle₂ hc =>
    bind (lift (.obtainLock (hs.mono (View.le_trans hle hle₂)) (.procedureReturn signature)))
      fun v₃ returns hle₃ hr => by
      obtain ⟨x, hx, hxtab, hxkey, -⟩ := hc
      obtain ⟨y, hy, hytab, hykey, hyr⟩ := hr
      obtain ⟨x', hx', hxtab', hxkey', -⟩ := hle₃.locks.lock calls x hx
      have hs₃ := hs.mono (View.le_trans hle (View.le_trans hle₂ hle₃))
      have hl : View.IsLockOf v₃ s.tab (.procedure signature) calls :=
        ⟨x', hx', hxtab'.trans hxtab, hxkey'.trans hxkey⟩
      refine andThen (exec (.listen hs₃ hl ?_ (.inr rfl))) fun _ _ _ => pure trivial
      exact ⟨signature, m, hd, rfl, hs₃.known, x', y, hx', hy, hxtab'.trans hxtab, hytab,
        hxkey'.trans hxkey, hykey, fun h => absurd (hyr.symm.trans h) (by simp)⟩

theorem plays_callArguments {s : Site} (hs : s.AtHome γ v) (ids : List String) :
    Plays e t γ v (callArguments e.environment s ids) anything := by
  unfold callArguments
  generalize ([] : Keyed Json) = done
  induction ids generalizing v done with
  | nil => exact pure trivial
  | cons id ids ih =>
    rw [List.foldlM_cons]
    refine andThen (P := anything) ?_ fun v' _ hle => ih (hs.mono hle) _
    split
    · refine andThen (P := anything) (inputValue hs id) fun _ _ _ => ?_
      exact pure (P := anything) trivial
    · refine andThen (P := anything) (pure (P := anything) trivial) fun _ _ _ => ?_
      exact pure (P := anything) trivial

theorem plays_requiredLock (s : Site) (key : LockKey) :
    Plays e t γ v (requiredLock s key) fun v' l =>
      ∃ x, v'.locks.lock? l = some x ∧ x.tab = s.tab ∧ x.key = key.text := by
  refine bind look fun v₁ w _ ⟨hv, hs⟩ => ?_
  cases hl : w.locks.find? s.tab key.text with
  | none => exact throw _
  | some l =>
    obtain ⟨x, hx, htab, hkey, -⟩ := hs.locks.find?_spec hl
    exact pure ⟨x, hv ▸ hx, htab, hkey⟩

theorem plays_ask {tab signature : String} {calls returns : LockId}
    (h : v.Paired tab signature calls returns) (arguments : Keyed Json) :
    Plays e t γ v (ask signature calls returns arguments) anything := by
  unfold Plays Does
  rw [← Execution.bind_done (ExceptT.run _)]
  exact .ask h fun _ _ hle => .done ⟨rfl, hle, fun _ _ => trivial⟩

theorem plays_dial {s : Site} (hs : s.AtHome γ v) (signature : String) (arguments : Keyed Json) :
    Plays e t γ v (dial s signature arguments) anything := by
  refine bind (plays_requiredLock s (.procedure signature)) fun v₁ calls hle₁ hc => ?_
  refine bind (lift (.obtainLock (hs.mono hle₁) (.procedureReturn signature)))
    fun v₂ returns hle hr => ?_
  obtain ⟨x, hx, hxtab, hxkey⟩ := hc
  obtain ⟨y, hy, hytab, hykey, hyr⟩ := hr
  obtain ⟨x', hx', hxtab', hxkey', -⟩ := hle.locks.lock calls x hx
  exact plays_ask ⟨x', y, hx', hy, hxtab'.trans hxtab, hytab, hxkey'.trans hxkey, hykey,
    fun h => absurd (hyr.symm.trans h) (by simp)⟩ arguments

theorem orderly_call : StatementHandler.Orderly e call := fun t γ v s hs => by
  simp only [call]
  cases s.block.signature? with
  | none => exact throw _
  | some signature =>
    exact andThen (plays_callArguments hs _) fun v₁ arguments hle =>
      plays_dial (hs.mono hle) signature arguments

theorem orderly_prototype : ExpressionHandler.Orderly e prototype := fun _ _ _ _ _ =>
  pure trivial

theorem orderly_readArgument : ExpressionHandler.Orderly e readArgument := fun _ _ _ _ _ =>
  andThen (exec (.bind .look fun _ _ _ _ => .pure trivial)) fun _ _ _ => pure trivial

theorem orderly_readArgumentTruth : ExpressionHandler.Orderly e readArgumentTruth :=
  fun _ _ _ _ _ =>
    andThen (exec (.bind .look fun _ _ _ _ => .pure trivial)) fun _ _ _ => pure trivial

end Library

/-! ## The whole library -/

/-- A behaviour that is orderly as what it is. -/
def Behaviour.Orderly (e : Engine) : Behaviour StatementHandler ExpressionHandler → Prop
  | .command run | .hat run => StatementHandler.Orderly e run
  | .reporter run => ExpressionHandler.Orderly e run

/-- An extension all of whose blocks are orderly. -/
def Extension.Orderly (e : Engine) (x : Extension StatementHandler ExpressionHandler) : Prop :=
  ∀ b ∈ x.blocks, b.behaviour.Orderly e

/-- An engine all of whose registered blocks are orderly. -/
def Engine.Orderly (e : Engine) : Prop :=
  ∀ o b, e.registry.lookup o = .ok b → b.behaviour.Orderly e

/-- An engine with the core library. -/
def Engine.HasCore (e : Engine) : Prop :=
  e.registry = (Registry.empty.registerAll Library.core).1

namespace Extension

variable {x : Extension StatementHandler ExpressionHandler}

theorem orderly_empty (id : String) : (Extension.empty id).Orderly e := fun _ hb => by cases hb

theorem Orderly.add (h : x.Orderly e) {b : Behaviour StatementHandler ExpressionHandler}
    (hb : b.Orderly e) (opcode : String) : (x.add opcode b).Orderly e := by
  intro s hs
  unfold Extension.add at hs
  simp only at hs
  split at hs
  · obtain ⟨s₀, hs₀, rfl⟩ := List.mem_map.1 hs
    split
    · exact hb
    · exact h s₀ hs₀
  · rcases List.mem_append.1 hs with hs | hs
    · exact h s hs
    · rw [List.mem_singleton.1 hs]
      exact hb

theorem Orderly.command (h : x.Orderly e) {run : StatementHandler}
    (hr : StatementHandler.Orderly e run) (opcode : String) : (x.command opcode run).Orderly e :=
  Orderly.add (b := .command run) h hr opcode

theorem Orderly.hat (h : x.Orderly e) {run : StatementHandler}
    (hr : StatementHandler.Orderly e run) (opcode : String) : (x.hat opcode run).Orderly e :=
  Orderly.add (b := .hat run) h hr opcode

theorem Orderly.reporter (h : x.Orderly e) {run : ExpressionHandler}
    (hr : ExpressionHandler.Orderly e run) (opcode : String) :
    (x.reporter opcode run).Orderly e :=
  Orderly.add (b := .reporter run) h hr opcode

end Extension

theorem Registry.mem_registerAll {κ ρ : Type} {xs : List (Extension κ ρ)} {r : Registry κ ρ}
    {p : String × Extension κ ρ} (h : p ∈ (r.registerAll xs).1.extensions) :
    p ∈ r.extensions ∨ p.2 ∈ xs := by
  induction xs generalizing r with
  | nil => exact .inl h
  | cons x xs ih =>
    unfold registerAll at h
    cases hr : r.register x with
    | error err => rw [hr] at h; exact .inl h
    | ok r' =>
      rw [hr] at h
      rcases ih h with h' | h'
      · unfold register at hr
        split at hr
        · exact absurd hr (by simp)
        · split at hr
          · exact absurd hr (by simp)
          · rw [← Except.ok.inj hr] at h'
            rcases Keyed.mem_insert h' with rfl | h'
            · exact .inr List.mem_cons_self
            · exact .inl h'
      · exact .inr (List.mem_cons_of_mem _ h')

/-- A block that is found is one of a registered extension. -/
theorem Registry.mem_of_lookup {κ ρ : Type} {xs : List (Extension κ ρ)} {o : Opcode}
    {b : BlockSpec κ ρ} (hb : (Registry.empty.registerAll xs).1.lookup o = .ok b) :
    ∃ x ∈ xs, b ∈ x.blocks := by
  unfold Registry.lookup at hb
  cases hx : (Registry.empty.registerAll xs).1.extension? o.extension with
  | none => rw [hx] at hb; exact absurd hb (by simp)
  | some x =>
    rw [hx] at hb
    cases hs : x.block? o.name with
    | none => simp only [hs] at hb; exact absurd hb (by simp)
    | some s =>
      simp only [hs] at hb
      obtain rfl := Except.ok.inj hb
      rcases Registry.mem_registerAll (Keyed.mem_of_get? hx) with h | h
      · cases h
      · exact ⟨x, h, List.mem_of_find?_eq_some hs⟩

namespace Library

theorem orderly_control : controlExtension.Orderly e :=
  Extension.orderly_empty _
    |>.command orderly_forever _ |>.command orderly_repeatTimes _
    |>.command orderly_repeatWhile _ |>.command orderly_schedule _
    |>.command orderly_ifThen _ |>.command orderly_ifElse _
    |>.command orderly_wait _ |>.command orderly_waitUntil _
    |>.command orderly_stop _ |>.command orderly_stopTimeout _
    |>.command (orderly_watchInput _ _) _ |>.command (orderly_watchInput _ _) _

theorem orderly_event : eventExtension.Orderly e :=
  Extension.orderly_empty _ |>.command orderly_broadcast _ |>.hat orderly_gotBroadcast _

theorem orderly_data : dataExtension.Orderly e :=
  Extension.orderly_empty _
    |>.reporter orderly_readVariable _ |>.reporter orderly_readKept _
    |>.command orderly_setVariable _ |>.command orderly_changeVariable _
    |>.hat orderly_onChange _ |>.hat orderly_onChangeTo _
    |>.hat (orderly_linkVariable _ _) _ |>.hat (orderly_linkVariable _ _) _

theorem orderly_operator : operatorExtension.Orderly e :=
  Extension.orderly_empty _
    |>.reporter (orderly_arithmetic _) _ |>.reporter (orderly_arithmetic _) _
    |>.reporter (orderly_arithmetic _) _ |>.reporter (orderly_arithmetic _) _
    |>.reporter orderly_random _
    |>.reporter (orderly_compare _) _ |>.reporter (orderly_compare _) _
    |>.reporter (orderly_compare _) _
    |>.reporter orderly_both _ |>.reporter orderly_either _ |>.reporter orderly_negation _
    |>.reporter orderly_join _ |>.reporter orderly_mathOp _
    |>.reporter orderly_boolToNumber _ |>.reporter orderly_boolChoice _

theorem orderly_procedures : proceduresExtension.Orderly e :=
  Extension.orderly_empty _
    |>.hat orderly_definition _ |>.command orderly_call _ |>.reporter orderly_prototype _

theorem orderly_argument : argumentExtension.Orderly e :=
  Extension.orderly_empty _
    |>.reporter orderly_readArgument _ |>.reporter orderly_readArgumentTruth _

theorem orderly_debug : debugExtension.Orderly e :=
  Extension.orderly_empty _ |>.command orderly_print _

theorem orderly_of_mem_core {x : Extension StatementHandler ExpressionHandler} (h : x ∈ core) :
    x.Orderly e := by
  simp only [core, List.mem_cons, List.not_mem_nil, or_false] at h
  rcases h with rfl | rfl | rfl | rfl | rfl | rfl | rfl
  · exact orderly_control
  · exact orderly_event
  · exact orderly_data
  · exact orderly_operator
  · exact orderly_procedures
  · exact orderly_argument
  · exact orderly_debug

end Library

/-- The blocks of an engine with the core library are those of its extensions. -/
theorem Engine.HasCore.mem_core (he : e.HasCore) {o : Opcode}
    {b : BlockSpec StatementHandler ExpressionHandler} (hb : e.registry.lookup o = .ok b) :
    ∃ x ∈ Library.core, b ∈ x.blocks := Registry.mem_of_lookup (he ▸ hb)

/-- Every block of an engine with the core library is orderly. -/
theorem Engine.orderly_of_core (he : e.HasCore) : e.Orderly := fun _ _ hb =>
  have ⟨_, hx, hmem⟩ := he.mem_core hb
  Library.orderly_of_mem_core hx _ hmem

end BlockEngine
