import BlockEngine.Proofs.Limits

/-!
# Errors of blocks' own

An error is bare until it gets the name of a block. What runs for a block may raise bare errors of
its own, and pass on the errors of blocks that it evaluates or handles.

* `EngineError.IsBare` : an error without the name of a block;
* `Execution.Raises` : the errors an execution ends with, from those it receives;
* `Attempt.RaisesBare` : an attempt all of whose own errors are bare;
* `Engine.RaisesBare` : an engine with such handlers; `Engine.raisesBare_of_core` : one with the core
  library.
-/

namespace BlockEngine

variable {α β : Type}

/-! ## Errors without a name -/

/-- An error does not name a block. -/
def EngineError.IsBare : EngineError → Prop
  | .atBlock .. => False
  | _ => True

/-- A result is no error that names a block. -/
def Bare (x : Except EngineError α) : Prop := ∀ err, x = .error err → err.IsBare

namespace Bare

theorem ok (a : α) : Bare (.ok a) := nofun

theorem error {err : EngineError} (h : err.IsBare) : Bare (.error err : Except EngineError α) := by
  rintro _ ⟨⟩
  exact h

theorem bind {x : Except EngineError α} {k : α → Except EngineError β} (h : Bare x)
    (hk : ∀ a, Bare (k a)) : Bare (x >>= k) := by
  cases x with
  | ok a => exact hk a
  | error err => exact .error (h err rfl)

end Bare

theorem Input.bare_decode (name : String) (raw : List Json) : Bare (Input.decode name raw) := by
  unfold Input.decode
  cases Input.decodeRaw raw with
  | ok i => exact .ok i
  | error fault => exact .error trivial

theorem Block.bare_input? (b : Block) (name : String) : Bare (b.input? name) := by
  unfold Block.input?
  split
  · exact .ok _
  · next raw _ =>
    have h := Input.bare_decode name raw
    cases hd : Input.decode name raw with
    | ok i => exact .ok _
    | error err => exact .error (h err hd)

theorem Graph.bare_block (g : Graph) (id : String) : Bare (g.block id) := by
  unfold Graph.block
  split
  · exact .ok _
  · exact .error trivial

namespace Site

variable (env : Environment) (s : Site)

theorem bare_goTo (limit : Nat) (id : String) (depth : Nat) : Bare (s.goTo limit id depth) := by
  unfold goTo
  split
  · exact .error trivial
  · exact .bind (Graph.bare_block _ id) fun b => .ok _

theorem bare_decodedInput (key : String) : Bare (s.decodedInput key) := by
  refine .bind (Block.bare_input? _ key) fun i => ?_
  split
  · exact .ok _
  · exact .error trivial

theorem bare_inputBlock? (key : String) : Bare (s.inputBlock? env key) := by
  unfold inputBlock?
  split
  · refine .bind (Block.bare_input? _ key) fun i => ?_
    split
    · exact .bind (bare_goTo s _ _ _) fun c => .ok _
    · exact .ok _
  · exact .ok _

end Site

theorem ChangeOperator.bare_ofText (text : String) : Bare (ChangeOperator.ofText text) := by
  unfold ChangeOperator.ofText
  split
  · exact .ok _
  · exact .error trivial

/-! ## Errors that an execution ends with -/

/-- An execution ends with errors of some kind only, as long as it receives no others. -/
inductive Execution.Raises (P : EngineError → Prop) : Execution (Except EngineError α) → Prop
  | ok (a : α) : Raises P (.done (.ok a))
  | error {err : EngineError} : P err → Raises P (.done (.error err))
  | act {f : World → World} {k : World → Execution (Except EngineError α)} :
      (∀ w, Raises P (k w)) → Raises P (.act f k)
  | pause {p : Pause} {k : p.Reply → Execution (Except EngineError α)} :
      (∀ r, Raises P (k r)) → Raises P (.pause p k)
  | signal {l : LockId} {v : Json} {k : Nat → Execution (Except EngineError α)} :
      (∀ n, Raises P (k n)) → Raises P (.signal l v k)
  | evaluate {s : Site} {k : Except EngineError Json → Execution (Except EngineError α)} :
      (∀ v, Raises P (k (.ok v))) → (∀ err, P err → Raises P (k (.error err))) →
      Raises P (.evaluate s k)
  | run {r : Routine} {k : Except EngineError Signal → Execution (Except EngineError α)} :
      (∀ x, Raises P (k (.ok x))) → (∀ err, P err → Raises P (k (.error err))) →
      Raises P (.run r k)

namespace Execution.Raises

variable {P : EngineError → Prop}

/-- An execution that has no errors of its own, and what follows it. -/
theorem bind_of_all (p : Execution β) {k : β → Execution (Except EngineError α)}
    (hk : ∀ b, (k b).Raises P) : (p.bind k).Raises P := by
  induction p with
  | done b => exact hk b
  | act f g ih => exact .act ih
  | pause p g ih => exact .pause ih
  | signal l v g ih => exact .signal ih
  | evaluate s g ih => exact .evaluate (fun v => ih _) fun err _ => ih _
  | run r g ih => exact .run (fun x => ih _) fun err _ => ih _

theorem bind {p : Execution (Except EngineError β)}
    {k : Except EngineError β → Execution (Except EngineError α)} (h : p.Raises P)
    (hk : ∀ b, (k (.ok b)).Raises P) (herr : ∀ err, P err → (k (.error err)).Raises P) :
    (p.bind k).Raises P := by
  induction h with
  | ok b => exact hk b
  | error herr' => exact herr _ herr'
  | act _ ih => exact .act ih
  | pause _ ih => exact .pause ih
  | signal _ ih => exact .signal ih
  | evaluate _ _ ihok iherr => exact .evaluate ihok iherr
  | run _ _ ihok iherr => exact .run ihok iherr

end Execution.Raises

/-- The errors that an attempt raises of its own are bare: it ends with these and with errors that it
receives. -/
def Attempt.RaisesBare (a : Attempt α) : Prop :=
  ∀ P : EngineError → Prop, (∀ err, err.IsBare → P err) → (ExceptT.run a).Raises P

namespace Attempt.RaisesBare

theorem pure (a : α) : RaisesBare (pure a : Attempt α) := fun _ _ => .ok a

theorem throw {err : EngineError} (h : err.IsBare) : RaisesBare (throw err : Attempt α) :=
  fun _ hP => .error (hP err h)

theorem ofExcept {x : Except EngineError α} (h : Bare x) : RaisesBare (Attempt.ofExcept x) :=
  fun _ hP => match x, h with
    | .ok a, _ => .ok a
    | .error err, h => .error (hP err (h err rfl))

theorem bind {a : Attempt α} {k : α → Attempt β} (h : RaisesBare a) (hk : ∀ x, RaisesBare (k x)) :
    RaisesBare (a >>= k) :=
  fun P hP => .bind (h P hP) (fun x => hk x P hP) fun _ herr => .error herr

theorem lift (p : Execution α) : RaisesBare (monadLift p : Attempt α) :=
  fun _ _ => .bind_of_all p fun a => .ok a

theorem evaluate (s : Site) : RaisesBare (Attempt.evaluate s) :=
  fun _ _ => .evaluate (fun v => .ok v) fun _ herr => .error herr

theorem routine (r : Routine) : RaisesBare (Attempt.routine r) :=
  fun _ _ => .run (fun x => .ok x) fun _ herr => .error herr

theorem handle (s : Site) : RaisesBare (Attempt.handle s) := routine _

variable (env : Environment) (s : Site)

theorem variableValue (name id : String) : RaisesBare (Site.variableValue name id) :=
  bind (lift _) fun w => by
    split
    · exact throw trivial
    · split <;> exact pure _

theorem input (key : String) (mode : ReadMode) : RaisesBare (s.input env key mode) := by
  refine bind (ofExcept (Site.bare_decodedInput s key)) fun i => ?_
  simp only
  split
  · exact pure _
  · exact pure _
  · exact bind (ofExcept (Site.bare_goTo s _ _ _)) fun c => evaluate c
  · exact pure _
  · split
    · exact pure _
    · exact variableValue _ _

theorem inputValue (key : String) : RaisesBare (s.inputValue env key) := input env s key .value

theorem inputText (key : String) : RaisesBare (s.inputText env key) :=
  bind (inputValue env s key) fun _ => pure _

theorem inputDouble (key : String) : RaisesBare (s.inputDouble env key) :=
  bind (inputValue env s key) fun v => by
    split
    · exact pure _
    · exact throw trivial

theorem inputInt (key : String) : RaisesBare (s.inputInt env key) :=
  bind (inputDouble env s key) fun _ => pure _

theorem inputBool (key : String) : RaisesBare (s.inputBool env key) := by
  unfold Site.inputBool
  split
  · exact bind (inputValue env s key) fun _ => pure _
  · exact pure _

theorem handleInput (key : String) : RaisesBare (s.handleInput env key) :=
  bind (ofExcept (Site.bare_inputBlock? env s key)) fun body => by
    split
    · exact handle _
    · exact pure _

end Attempt.RaisesBare

/-! ## The core library -/

/-- What a block does, whatever its result is. -/
def Behaviour.attempt (env : Environment) (s : Site) :
    Behaviour StatementHandler ExpressionHandler → Attempt Unit
  | .command run | .hat run => do
    let _ ← run env s
    return ()
  | .reporter run => do
    let _ ← run env s
    return ()

namespace Library

open Attempt.RaisesBare (pure throw ofExcept bind lift evaluate routine input inputValue inputText
  inputDouble inputInt inputBool handleInput)

variable (env : Environment) (s : Site)

/-! ### Control -/

theorem raisesBare_withBody {k : Site → Attempt Signal} (hk : ∀ body, (k body).RaisesBare) :
    (withBody env s k).RaisesBare :=
  bind (ofExcept (Site.bare_inputBlock? env s _)) fun body => by
    split
    · exact hk _
    · exact pure _

theorem raisesBare_inputDuration (key : String) : (inputDuration env s key).RaisesBare :=
  bind (inputInt env s key) fun amount => by
    simp only
    split
    · exact pure _
    · exact throw trivial

theorem raisesBare_repeatTimes : (repeatTimes env s).RaisesBare :=
  raisesBare_withBody env s fun body => bind (inputInt env s _) fun n => by
    split
    · exact pure _
    · exact routine _

theorem raisesBare_repeatWhile : (repeatWhile env s).RaisesBare :=
  raisesBare_withBody env s fun body => by
    split
    · exact routine _
    · exact pure _

theorem raisesBare_schedule : (schedule env s).RaisesBare :=
  raisesBare_withBody env s fun _ => bind (raisesBare_inputDuration env s _) fun _ => routine _

theorem raisesBare_ifThen : (ifThen env s).RaisesBare :=
  bind (inputBool env s _) fun holds => by
    split
    · exact handleInput env s _
    · exact pure _

theorem raisesBare_wait : (wait env s).RaisesBare :=
  bind (inputInt env s _) fun seconds => by
    split
    · exact throw trivial
    · exact bind (lift _) fun _ => pure _

theorem raisesBare_stopTimeout : (stopTimeout env s).RaisesBare :=
  bind (raisesBare_inputDuration env s _) fun _ => bind (lift _) fun _ => pure _

theorem raisesBare_watchInput (key : String) (kind : WatchKind) :
    (watchInput key kind env s).RaisesBare :=
  raisesBare_withBody env s fun body => by
    split
    · exact bind (lift _) fun _ => bind (lift _) fun _ => bind (lift _) fun _ => pure _
    · exact pure _

/-! ### Variables and broadcasts -/

theorem raisesBare_readKept : (readKept env s).RaisesBare :=
  bind (lift _) fun w => by
    cases s.parent? env.settings.maxDepth <;> exact pure _

theorem raisesBare_setVariable : (setVariable env s).RaisesBare :=
  bind (inputValue env s _) fun item => by
    split
    · exact bind (lift _) fun _ => pure _
    · exact pure _

theorem raisesBare_linkVariable (field : String) (asTruth : Bool) :
    (linkVariable field asTruth env s).RaisesBare :=
  bind (input env s _ _) fun source => by
    simp only
    split
    · exact throw trivial
    · exact bind (ofExcept (Graph.bare_block _ _)) fun _ =>
        bind (lift _) fun _ => bind (lift _) fun _ => pure _

/-! ### Operators -/

theorem raisesBare_both : (both env s).RaisesBare :=
  bind (inputBool env s _) fun holds => by
    split
    · exact bind (inputBool env s _) fun _ => pure _
    · exact pure _

theorem raisesBare_either : (either env s).RaisesBare :=
  bind (inputBool env s _) fun holds => by
    split
    · exact pure _
    · exact bind (inputBool env s _) fun _ => pure _

theorem raisesBare_arithmetic (op : Double → Double → Double) :
    (arithmetic op env s).RaisesBare :=
  bind (inputDouble env s _) fun _ => bind (inputDouble env s _) fun _ => pure _

theorem raisesBare_compare (op : Double → Double → Bool) : (compare op env s).RaisesBare :=
  bind (inputDouble env s _) fun _ => bind (inputDouble env s _) fun _ => pure _

theorem raisesBare_mathOp : (mathOp env s).RaisesBare := by
  simp only [mathOp]
  split
  · exact bind (inputDouble env s _) fun _ => pure _
  · exact throw trivial

/-! ### Procedures -/

theorem bare_definitionSignature : Bare (definitionSignature env s) := by
  unfold definitionSignature
  split
  · exact .ok _
  · refine .bind (Site.bare_inputBlock? env s _) fun prototype => ?_
    split
    · exact .ok _
    · exact .error trivial

theorem raisesBare_definition : (definition env s).RaisesBare :=
  bind (ofExcept (bare_definitionSignature env s)) fun _ =>
    bind (lift _) fun _ => bind (lift _) fun _ => bind (lift _) fun _ => pure _

theorem raisesBare_callArguments (ids : List String) : (callArguments env s ids).RaisesBare := by
  unfold callArguments
  generalize ([] : Keyed Json) = done
  induction ids generalizing done with
  | nil => exact pure _
  | cons id ids ih =>
    rw [List.foldlM_cons]
    refine bind ?_ fun _ => ih _
    split
    · exact bind (inputValue env s id) fun _ => pure _
    · exact bind (pure _) fun _ => pure _

theorem bare_outcome (signature : String) (d : Option Delivery) : Bare (outcome signature d) := by
  unfold outcome replySignal
  split
  · split
    · exact .error trivial
    · exact .ok _
  · exact .error trivial
  · exact .ok _

theorem raisesBare_heard (signature : String) (m : MailboxId) (accepted : Nat) :
    (heard signature m accepted).RaisesBare := by
  unfold heard
  split
  · exact bind (lift _) fun _ => throw trivial
  · exact bind (lift _) fun d => ofExcept (bare_outcome signature d)

theorem raisesBare_requiredLock (key : LockKey) : (requiredLock s key).RaisesBare :=
  bind (lift _) fun w => by
    split
    · exact pure _
    · exact throw trivial

theorem raisesBare_dial (signature : String) (arguments : Keyed Json) :
    (dial s signature arguments).RaisesBare :=
  bind (raisesBare_requiredLock s _) fun _ => bind (lift _) fun _ => bind (lift _) fun _ =>
    bind (lift _) fun _ => raisesBare_heard signature _ _

theorem raisesBare_call : (call env s).RaisesBare := by
  simp only [call]
  split
  · exact bind (raisesBare_callArguments env s _) fun _ => raisesBare_dial s _ _
  · exact throw trivial

/-- The blocks of the core library raise only bare errors of their own. -/
theorem raisesBare_blocks : ∀ q ∈ blocks, (q.2.attempt env s).RaisesBare := by
  rw [blocks_eq]
  simp only [List.forall_mem_cons, Behaviour.attempt]
  have all : ∀ {α : Type} {a : Attempt α}, a.RaisesBare →
      (do let _ ← a; return () : Attempt Unit).RaisesBare := fun h => bind h fun _ => pure _
  exact ⟨all (raisesBare_withBody env s fun _ => routine _), all (raisesBare_repeatTimes env s),
    all (raisesBare_repeatWhile env s), all (raisesBare_schedule env s),
    all (raisesBare_ifThen env s), all (bind (inputBool env s _) fun _ => handleInput env s _),
    all (raisesBare_wait env s), all (bind (lift _) fun _ => routine _), all (pure _),
    all (raisesBare_stopTimeout env s), all (raisesBare_watchInput env s _ _),
    all (raisesBare_watchInput env s _ _),
    all (bind (input env s _ _) fun _ => bind (lift _) fun _ => pure _),
    all (bind (lift _) fun _ => bind (lift _) fun _ => pure _), all (bind (lift _) fun _ => pure _),
    all (raisesBare_readKept env s), all (raisesBare_setVariable env s),
    all (bind (inputDouble env s _) fun _ => bind (lift _) fun _ => bind (lift _) fun _ => pure _),
    all (bind (lift _) fun _ => pure _),
    all (bind (ofExcept (ChangeOperator.bare_ofText _)) fun _ => bind (lift _) fun _ => pure _),
    all (raisesBare_linkVariable env s _ _), all (raisesBare_linkVariable env s _ _),
    all (raisesBare_arithmetic env s _), all (raisesBare_arithmetic env s _),
    all (raisesBare_arithmetic env s _), all (raisesBare_arithmetic env s _),
    all (bind (inputInt env s _) fun _ => bind (inputInt env s _) fun _ =>
      bind (lift _) fun _ => pure _),
    all (raisesBare_compare env s _), all (raisesBare_compare env s _),
    all (raisesBare_compare env s _), all (raisesBare_both env s), all (raisesBare_either env s),
    all (bind (inputBool env s _) fun _ => pure _),
    all (bind (inputText env s _) fun _ => bind (inputText env s _) fun _ => pure _),
    all (raisesBare_mathOp env s), all (bind (inputBool env s _) fun _ => pure _),
    all (bind (inputBool env s _) fun _ => bind (inputDouble env s _) fun _ => pure _),
    all (raisesBare_definition env s), all (raisesBare_call env s), all (pure _),
    all (bind (lift _) fun _ => pure _), all (bind (lift _) fun _ => pure _),
    all (bind (inputText env s _) fun _ => bind (lift _) fun _ => pure _), nofun⟩

end Library

/-! ## Engines -/

/-- All registered handlers raise only bare errors of their own, for whichever block they run. -/
def Engine.RaisesBare (e : Engine) : Prop :=
  ∀ o x, e.registry.lookup o = .ok x → ∀ s, (x.behaviour.attempt e.environment s).RaisesBare

/-- An engine with the core library is such. -/
theorem Engine.raisesBare_of_core {e : Engine} (he : e.HasCore) : e.RaisesBare := by
  intro o b hb s
  obtain ⟨x, hx, hmem, -⟩ := he.opcode_of_lookup hb
  exact Library.raisesBare_blocks e.environment s (⟨x.id, b.opcode⟩, b.behaviour)
    (List.mem_flatMap.2 ⟨x, hx, List.mem_map.2 ⟨b, hmem, rfl⟩⟩)

namespace Engine

open Attempt.RaisesBare (pure throw bind lift handle inputBool inputValue)

variable (e : Engine)

/-- The turns of the routines that are not chains do so for the block that runs them. -/
theorem raisesBare_turn {r : Routine} (hr : ∀ visited s, r ≠ .chain visited s) :
    (e.turn r).RaisesBare := by
  cases r with
  | chain visited s => exact absurd rfl (hr visited s)
  | loop l index =>
    have hgoes : (e.goesOn l).RaisesBare := by
      unfold goesOn
      split
      · exact inputBool e.environment l.site _
      · exact pure _
    have hpause : (loopTurn.pauseAndGo l index).RaisesBare := bind (lift _) fun _ => pure _
    refine bind (lift _) fun _ => bind hgoes fun goes => ?_
    split
    · exact pure _
    · refine bind (handle l.body) fun x => ?_
      cases x with
      | stop => exact pure _
      | proceed =>
        simp only
        split
        · split
          · exact pure _
          · exact hpause
        · exact hpause
  | waitUntil s lock =>
    refine bind (inputBool e.environment s _) fun holds => ?_
    split
    · exact pure _
    · refine bind (lift _) fun d => ?_
      split
      · exact throw trivial
      · exact pure _
  | watch s lock input kind last =>
    have hobserve : (e.observe s input kind).RaisesBare := by
      cases kind with
      | value => exact inputValue e.environment s input
      | condition => exact bind (inputBool e.environment s input) fun _ => pure _
    refine bind (lift _) fun w => ?_
    split
    · exact pure _
    · refine bind hobserve fun now => ?_
      simp only
      split
      · exact bind (lift _) fun _ => bind (lift _) fun _ => pure _
      · exact bind (lift _) fun _ => pure _

end Engine
end BlockEngine
