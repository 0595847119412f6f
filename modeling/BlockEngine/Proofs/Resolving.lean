import BlockEngine.Proofs.Handlers

/-!
# Blocks that resolve inputs

Operators, branches and most reporters do no more than resolve inputs of their block and run the
chains plugged into it. They never wait, take part in no lock, and start no task.

* `Execution.Resolves` : such an execution; it resolves inputs finitely often, since it is a finite
  tree;
* `Engine.Resolves` : all registered blocks are such;
* `Library.resolving` : the extensions of the core library with these blocks alone;
  `Engine.resolves_of_library`.
-/

namespace BlockEngine

variable {α β : Type}

/-! ## Executions -/

/-- An execution for a block that resolves inputs of the block and runs the chains plugged into it.
What it changes by itself, in single steps, is never a lock. It may go on after errors. -/
inductive Execution.Resolves (env : Environment) (s : Site) : Execution α → Prop
  | done (a : α) : Resolves env s (.done a)
  | act {f : World → World} {k : World → Execution α} :
      (∀ w, (f w).locks = w.locks) → (∀ w, Resolves env s (k w)) → Resolves env s (.act f k)
  | input {key : String} {mode : ReadMode} {k : Except EngineError Json → Execution α} :
      (∀ r, Resolves env s (k r)) → Resolves env s ((ExceptT.run (s.input env key mode)).bind k)
  | statement {key : String} {k : Except EngineError Signal → Execution α} :
      (∀ r, Resolves env s (k r)) → Resolves env s ((ExceptT.run (s.handleInput env key)).bind k)

/-- An attempt that does no more than resolve inputs. -/
def Attempt.Resolves (env : Environment) (s : Site) (a : Attempt α) : Prop :=
  (ExceptT.run a).Resolves env s

variable {env : Environment} {s : Site}

theorem Execution.Resolves.bind {p : Execution α} {k : α → Execution β} (h : p.Resolves env s)
    (hk : ∀ a, (k a).Resolves env s) : (p.bind k).Resolves env s := by
  induction h with
  | done a => exact hk a
  | act hf _ ih => exact .act hf ih
  | input _ ih =>
    rw [Execution.bind_assoc]
    exact .input ih
  | statement _ ih =>
    rw [Execution.bind_assoc]
    exact .statement ih

theorem Execution.Resolves.look : look.Resolves env s := .act (fun _ => rfl) .done

theorem Execution.Resolves.change {f : World → World} (hf : ∀ w, (f w).locks = w.locks) :
    (change f).Resolves env s := .act hf fun _ => .done _

theorem Execution.Resolves.draw : draw.Resolves env s := .act (fun _ => rfl) fun _ => .done _

namespace Attempt.Resolves

theorem pure (x : α) : Resolves env s (pure x : Attempt α) := .done _

theorem throw (err : EngineError) : Resolves env s (throw err : Attempt α) := .done _

theorem bind {a : Attempt α} (h : Resolves env s a) {k : α → Attempt β}
    (hk : ∀ x, Resolves env s (k x)) : Resolves env s (a >>= k) := by
  refine Execution.Resolves.bind h fun r => ?_
  cases r with
  | ok x => exact hk x
  | error err => exact .done _

theorem lift {p : Execution α} (h : p.Resolves env s) :
    Resolves env s (monadLift p : Attempt α) := Execution.Resolves.bind h fun _ => .done _

theorem input (key : String) (mode : ReadMode) : Resolves env s (s.input env key mode) := by
  unfold Resolves
  rw [← Execution.bind_done (ExceptT.run _)]
  exact .input .done

theorem handleInput (key : String) : Resolves env s (s.handleInput env key) := by
  unfold Resolves
  rw [← Execution.bind_done (ExceptT.run _)]
  exact .statement .done

theorem inputText (key : String) : Resolves env s (s.inputText env key) :=
  bind (input key .value) fun _ => pure _

theorem inputDouble (key : String) : Resolves env s (s.inputDouble env key) := by
  refine bind (input key .value) fun v => ?_
  split
  · exact pure _
  · exact throw _

theorem inputInt (key : String) : Resolves env s (s.inputInt env key) :=
  bind (inputDouble key) fun _ => pure _

theorem inputBool (key : String) : Resolves env s (s.inputBool env key) := by
  unfold Site.inputBool
  split
  · exact bind (input key .value) fun _ => pure _
  · exact pure _

end Attempt.Resolves

/-! ## Blocks -/

/-- A handler that does no more than resolve inputs of its block. -/
def StatementHandler.Resolves (run : StatementHandler) : Prop :=
  ∀ env s, Attempt.Resolves env s (run env s)

def ExpressionHandler.Resolves (run : ExpressionHandler) : Prop :=
  ∀ env s, Attempt.Resolves env s (run env s)

def Behaviour.Resolves : Behaviour StatementHandler ExpressionHandler → Prop
  | .command run | .hat run => StatementHandler.Resolves run
  | .reporter run => ExpressionHandler.Resolves run

/-- An engine all of whose registered blocks do no more than resolve inputs. -/
def Engine.Resolves (e : Engine) : Prop :=
  ∀ o b, e.registry.lookup o = .ok b → b.behaviour.Resolves

namespace Library

open Attempt.Resolves (pure throw bind lift input handleInput inputText inputDouble inputInt
  inputBool)

theorem resolves_ifThen : StatementHandler.Resolves ifThen := fun _ _ =>
  bind (inputBool _) fun holds => by
    split
    · exact handleInput _
    · exact pure _

theorem resolves_ifElse : StatementHandler.Resolves ifElse := fun _ _ =>
  bind (inputBool _) fun _ => handleInput _

theorem resolves_print : StatementHandler.Resolves print := fun _ s => by
  refine bind (inputText _) fun text => bind (lift ?_) fun _ => pure _
  exact .change fun _ => rfl

theorem resolves_readVariable : ExpressionHandler.Resolves readVariable := fun _ _ =>
  bind (lift .look) fun _ => pure _

theorem resolves_readKept : ExpressionHandler.Resolves readKept := fun env s =>
  bind (lift .look) fun _ => by
    cases s.parent? env.settings.maxDepth <;> exact pure _

theorem resolves_argument? {env : Environment} (s : Site) : (argument? s).Resolves env s :=
  Execution.Resolves.bind .look fun _ => .done _

theorem resolves_readArgument : ExpressionHandler.Resolves readArgument := fun _ s =>
  bind (lift (resolves_argument? s)) fun _ => pure _

theorem resolves_readArgumentTruth : ExpressionHandler.Resolves readArgumentTruth := fun _ s =>
  bind (lift (resolves_argument? s)) fun _ => pure _

theorem resolves_arithmetic (op : Double → Double → Double) :
    ExpressionHandler.Resolves (arithmetic op) := fun _ _ =>
  bind (inputDouble _) fun _ => bind (inputDouble _) fun _ => pure _

theorem resolves_compare (op : Double → Double → Bool) :
    ExpressionHandler.Resolves (compare op) := fun _ _ =>
  bind (inputDouble _) fun _ => bind (inputDouble _) fun _ => pure _

theorem resolves_random : ExpressionHandler.Resolves random := fun _ _ =>
  bind (inputInt _) fun _ => bind (inputInt _) fun _ =>
    bind (lift .draw) fun _ => pure _

theorem resolves_both : ExpressionHandler.Resolves both := fun _ _ =>
  bind (inputBool _) fun holds => by
    split
    · exact bind (inputBool _) fun _ => pure _
    · exact pure _

theorem resolves_either : ExpressionHandler.Resolves either := fun _ _ =>
  bind (inputBool _) fun holds => by
    split
    · exact pure _
    · exact bind (inputBool _) fun _ => pure _

theorem resolves_negation : ExpressionHandler.Resolves negation := fun _ _ =>
  bind (inputBool _) fun _ => pure _

theorem resolves_join : ExpressionHandler.Resolves join := fun _ _ =>
  bind (inputText _) fun _ => bind (inputText _) fun _ => pure _

theorem resolves_mathOp : ExpressionHandler.Resolves mathOp := fun _ _ => by
  simp only [mathOp]
  split
  · exact bind (inputDouble _) fun _ => pure _
  · exact throw _

theorem resolves_boolToNumber : ExpressionHandler.Resolves boolToNumber := fun _ _ =>
  bind (inputBool _) fun _ => pure _

theorem resolves_boolChoice : ExpressionHandler.Resolves boolChoice := fun _ _ =>
  bind (inputBool _) fun _ => bind (inputDouble _) fun _ => pure _

/-- The extensions of the core library with the blocks that do no more than resolve inputs. -/
def resolving : List (Extension StatementHandler ExpressionHandler) :=
  [(Extension.empty "control") |>.command "if" ifThen |>.command "if_else" ifElse
      |>.command "stop" (fun _ _ => return .stop),
    (Extension.empty "data") |>.reporter "variable" readVariable
      |>.reporter "prev_variable" readKept,
    operatorExtension, argumentExtension, debugExtension]

theorem resolves_of_mem_resolving {x : Extension StatementHandler ExpressionHandler}
    (hx : x ∈ resolving) {b : BlockSpec StatementHandler ExpressionHandler} (hb : b ∈ x.blocks) :
    b.behaviour.Resolves := by
  have hbehaviours : (resolving.flatMap fun x => x.blocks.map (·.behaviour)) =
      [.command ifThen, .command ifElse, .command (fun _ _ => return .stop),
       .reporter readVariable, .reporter readKept,
       .reporter (arithmetic Double.add), .reporter (arithmetic Double.sub),
       .reporter (arithmetic Double.mul), .reporter (arithmetic Double.div), .reporter random,
       .reporter (compare Double.lt), .reporter (compare fun a b => b.lt a),
       .reporter (compare Double.eq), .reporter both, .reporter either, .reporter negation,
       .reporter join, .reporter mathOp, .reporter boolToNumber, .reporter boolChoice,
       .reporter readArgument, .reporter readArgumentTruth, .command print] := rfl
  have hmem : b.behaviour ∈ resolving.flatMap fun x => x.blocks.map (·.behaviour) :=
    List.mem_flatMap.2 ⟨x, hx, List.mem_map_of_mem hb⟩
  rw [hbehaviours] at hmem
  revert hmem
  generalize b.behaviour = a
  revert a
  simp only [List.forall_mem_cons]
  exact ⟨resolves_ifThen, resolves_ifElse, fun _ _ => pure _, resolves_readVariable,
    resolves_readKept, resolves_arithmetic _, resolves_arithmetic _, resolves_arithmetic _,
    resolves_arithmetic _, resolves_random, resolves_compare _, resolves_compare _,
    resolves_compare _, resolves_both, resolves_either, resolves_negation, resolves_join,
    resolves_mathOp, resolves_boolToNumber, resolves_boolChoice, resolves_readArgument,
    resolves_readArgumentTruth, resolves_print, List.forall_mem_nil _⟩

end Library

/-- An engine with these blocks, or some of them. -/
theorem Engine.resolves_of_library {e : Engine}
    {xs : List (Extension StatementHandler ExpressionHandler)} (hxs : xs ⊆ Library.resolving)
    (he : e.registry = (Registry.empty.registerAll xs).1) : e.Resolves := fun _ _ hb =>
  have ⟨_, hx, hmem⟩ := Registry.mem_of_lookup (he ▸ hb)
  Library.resolves_of_mem_resolving (hxs hx) hmem

end BlockEngine
