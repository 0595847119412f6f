import BlockEngine.Proofs.BareErrors
import BlockEngine.Proofs.Chains
import BlockEngine.Proofs.Termination

/-!
# The block that an error names

An error gets the name of the block whose handler raised it, or whose opcode nobody has registered,
and passes all others around it as it is.

* `Engine.Culprit` : the block that raised an error, inside those that only passed it on;
* `Engine.Nested` : an execution ends with the error of a block that it evaluates or handles;
  `Engine.nested_of_raises` : where else an error that names a block comes from;
* `Engine.Culprit.fails` : the error names the culprit;
* `Engine.exists_culprit` : every error has one;
* `Engine.errors_name_innermost` : both, for all ways to run a block.
-/

namespace BlockEngine

variable {α β : Type}

/-- What follows the turn of a routine raises nothing new. -/
theorem Execution.Raises.afterTurn {P : EngineError → Prop}
    {p : Execution (Except EngineError Turned)}
    {k : Except EngineError Signal → Execution (Except EngineError α)} (h : p.Raises P)
    (hk : ∀ x, (k (.ok x)).Raises P) (herr : ∀ err, P err → (k (.error err)).Raises P) :
    (p.bind (Engine.afterTurn k)).Raises P := by
  refine h.bind (fun x => ?_) herr
  cases x with
  | again r => exact .run hk herr
  | «over» x => exact hk x

/-! ## Names in errors -/

/-- The error of a block with a cause. -/
def Site.blamed (s : Site) (cause : EngineError) : EngineError :=
  .atBlock s.tab s.id s.block.opcode cause

theorem Site.annotate_of_bare {s : Site} {cause : EngineError} (h : cause.IsBare) :
    s.annotate cause = s.blamed cause := by
  cases cause with
  | atBlock => exact h.elim
  | _ => rfl

theorem Site.annotate_blamed (s b : Site) (cause : EngineError) :
    s.annotate (b.blamed cause) = b.blamed cause := rfl

theorem Registry.bare_lookup {κ ρ : Type} (r : Registry κ ρ) (o : Opcode) : Bare (r.lookup o) := by
  unfold Registry.lookup
  split
  · exact .error trivial
  · split
    · exact .error trivial
    · exact .ok _

namespace Engine

variable {e : Engine} {t : TaskId} {s b : Site} {visited : List String} {w : World}
  {ws ws' : List World} {err cause : EngineError}

theorem lookup_eq_error (h : e.lookup s = .error err) :
    ∃ cause, e.registry.lookup s.block.opcode = .error cause ∧ err = s.blamed cause := by
  unfold lookup at h
  cases hx : e.registry.lookup s.block.opcode with
  | ok x =>
    rw [hx] at h
    cases h
  | error cause =>
    rw [hx] at h
    obtain rfl := Except.error.inj h
    exact ⟨cause, rfl, Site.annotate_of_bare (Registry.bare_lookup _ _ _ hx)⟩

theorem lookup_of_error (h : e.registry.lookup s.block.opcode = .error cause) :
    e.lookup s = .error (s.blamed cause) := by
  unfold lookup
  rw [h, ← Site.annotate_of_bare (Registry.bare_lookup _ _ _ h)]
  rfl

/-! ## Handlers that fail -/

/-- An attempt in two parts fails in one of them. -/
theorem replay_attempt_bind_error {a : Attempt α} {k : α → Attempt β}
    (h : e.replay t (ExceptT.run (a >>= k)) ws = some (.done (.error err))) :
    e.replay t (ExceptT.run a) ws = some (.done (.error err)) ∨
      ∃ ws₁ ws₂ v, ws = ws₁ ++ ws₂ ∧ e.replay t (ExceptT.run a) ws₁ = some (.done (.ok v)) ∧
        e.replay t (ExceptT.run (k v)) ws₂ = some (.done (.error err)) := by
  obtain ⟨ws₁, ws₂, r, rfl, hr, hrest⟩ := replay_bind_iff.1 h
  cases r with
  | ok v => exact .inr ⟨ws₁, ws₂, v, rfl, hr, hrest⟩
  | error err' =>
    obtain ⟨rfl, heq⟩ := replay_done_iff.1 hrest
    rw [List.append_nil, ← Except.error.inj heq]
    exact .inl hr

/-- What only returns does not fail. -/
theorem replay_pure_ne_error {v : α} :
    e.replay t (ExceptT.run (pure v : Attempt α)) ws ≠ some (.done (.error err)) :=
  fun h => nomatch (replay_done_iff.1 h).2

theorem replay_lift_ne_error {p : Execution α} :
    e.replay t (ExceptT.run (monadLift p : Attempt α)) ws ≠ some (.done (.error err)) := by
  intro h
  obtain ⟨ws₁, ws₂, v, -, -, hv⟩ := replay_bind_iff.1 h
  cases (replay_done_iff.1 hv).2

theorem fails_iff {x : BlockSpec StatementHandler ExpressionHandler} (hx : e.lookup s = .ok x) :
    e.Fails t s ws err ↔
      e.replay t (ExceptT.run (x.behaviour.attempt e.environment s)) ws =
        some (.done (.error err)) := by
  obtain ⟨opcode, behaviour, menus⟩ := x
  constructor
  · rintro ⟨y, hy, hrun⟩
    obtain rfl := Except.ok.inj (hx.symm.trans hy)
    cases behaviour with
    | command run | hat run | reporter run => exact replay_bind_error hrun
  · intro h
    refine ⟨_, hx, ?_⟩
    cases behaviour with
    | command run | hat run | reporter run =>
      rcases replay_attempt_bind_error h with hrun | ⟨_, _, _, -, -, hpure⟩
      · exact hrun
      · exact absurd hpure replay_pure_ne_error

/-- An evaluation that fails is of a block without a handler, or the handler fails. -/
theorem evaluation_fails
    (h : e.replay t (ExceptT.run (e.evaluation s)) ws = some (.done (.error err))) :
    (ws = [] ∧ e.lookup s = .error err) ∨
      ∃ raised, e.Fails t s ws raised ∧ err = s.annotate raised := by
  unfold evaluation at h
  cases hx : e.lookup s with
  | error err' =>
    rw [hx] at h
    obtain ⟨rfl, heq⟩ := replay_done_iff.1 h
    exact .inl ⟨rfl, congrArg _ (Except.error.inj heq)⟩
  | ok x =>
    rw [hx, Attempt.ofExcept_ok_bind] at h
    rcases replay_attempt_bind_error h with hnamed | ⟨_, _, v, -, -, hkeep⟩
    · obtain ⟨ws₁, ws₂, r, rfl, hr, hend⟩ := replay_bind_iff.1 hnamed
      obtain ⟨rfl, heq⟩ := replay_done_iff.1 hend
      cases r with
      | ok v => cases heq
      | error raised =>
        rw [List.append_nil]
        refine .inr ⟨raised, ⟨x, hx, ?_⟩, (Except.error.inj heq).symm⟩
        obtain ⟨opcode, behaviour, menus⟩ := x
        cases behaviour with
        | reporter run => exact hr
        | command run | hat run =>
          rcases replay_attempt_bind_error hr with hrun | ⟨_, _, _, -, -, hpure⟩
          · exact hrun
          · exact absurd hpure replay_pure_ne_error
    · rcases replay_attempt_bind_error hkeep with hlift | ⟨_, _, _, -, -, hpure⟩
      · exact absurd hlift replay_lift_ne_error
      · exact absurd hpure replay_pure_ne_error

/-! ## Culprits -/

/-- What runs for a block: its handler, its evaluation, or a chain that has come to it. -/
inductive Part where
  | handler (s : Site)
  | expression (s : Site)
  | chain (visited : List String) (s : Site)

/-- Part of an execution has failed, and the innermost block that failed is some other one or the
same: its handler raised a bare error, or it has no handler. All around it passed the error on. -/
inductive Culprit (e : Engine) (t : TaskId) : Part → List World → Site → EngineError → Prop
  | raised {s : Site} {ws : List World} {cause : EngineError} :
      e.Fails t s ws cause → cause.IsBare → Culprit e t (.handler s) ws s cause
  | evaluated {s c b : Site} {x : BlockSpec StatementHandler ExpressionHandler}
      {ws₁ ws₂ ws₃ : List World} {cause : EngineError}
      {k : Except EngineError Json → Execution (Except EngineError Unit)} :
      e.lookup s = .ok x →
      e.replay t (ExceptT.run (x.behaviour.attempt e.environment s)) ws₁ = some (.evaluate c k) →
      Culprit e t (.expression c) ws₂ b cause →
      e.replay t (k (.error (b.blamed cause))) ws₃ = some (.done (.error (b.blamed cause))) →
      Culprit e t (.handler s) (ws₁ ++ (ws₂ ++ ws₃)) b cause
  | handled {s c b : Site} {x : BlockSpec StatementHandler ExpressionHandler}
      {visited : List String} {ws₁ ws₂ ws₃ : List World} {cause : EngineError}
      {k : Except EngineError Signal → Execution (Except EngineError Unit)} :
      e.lookup s = .ok x →
      e.replay t (ExceptT.run (x.behaviour.attempt e.environment s)) ws₁ =
        some (.run (.chain visited c) k) →
      Culprit e t (.chain visited c) ws₂ b cause →
      e.replay t (k (.error (b.blamed cause))) ws₃ = some (.done (.error (b.blamed cause))) →
      Culprit e t (.handler s) (ws₁ ++ (ws₂ ++ ws₃)) b cause
  | unknownExpression {s : Site} {w : World} {cause : EngineError} :
      e.registry.lookup s.block.opcode = .error cause → Culprit e t (.expression s) [w] s cause
  | expression {s b : Site} {w : World} {ws : List World} {cause : EngineError} :
      Culprit e t (.handler s) ws b cause → Culprit e t (.expression s) (w :: ws) b cause
  | unknownStatement {visited : List String} {s : Site} {w : World} {cause : EngineError} :
      s.id ∉ visited → e.registry.lookup s.block.opcode = .error cause →
      Culprit e t (.chain visited s) [w] s cause
  | statement {visited : List String} {s b : Site} {w : World} {ws : List World}
      {cause : EngineError} :
      s.id ∉ visited → Culprit e t (.handler s) ws b cause →
      Culprit e t (.chain visited s) (w :: ws) b cause
  | next {visited : List String} {s c b : Site} {w : World} {ws ws' : List World}
      {cause : EngineError} :
      s.id ∉ visited → e.Passes t s ws → s.next? e.settings.maxDepth = some c →
      Culprit e t (.chain (s.id :: visited) c) ws' b cause →
      Culprit e t (.chain visited s) (w :: (ws ++ ws')) b cause

/-- Part of an execution has failed with an error. -/
def Part.FailsWith (e : Engine) (t : TaskId) (ws : List World) (err : EngineError) : Part → Prop
  | .handler s => ∃ raised, e.Fails t s ws raised ∧ s.annotate raised = err
  | .expression s => e.replay t (ExceptT.run (Attempt.evaluate s)) ws = some (.done (.error err))
  | .chain visited s =>
    e.replay t (ExceptT.run (Attempt.routine (.chain visited s))) ws = some (.done (.error err))

theorem Culprit.bare {part : Part} (h : e.Culprit t part ws b cause) : cause.IsBare := by
  induction h with
  | raised _ hbare => exact hbare
  | evaluated _ _ _ _ ih | handled _ _ _ _ ih => exact ih
  | expression _ ih => exact ih
  | statement _ _ ih => exact ih
  | next _ _ _ _ ih => exact ih
  | unknownExpression hx => exact Registry.bare_lookup _ _ _ hx
  | unknownStatement _ hx => exact Registry.bare_lookup _ _ _ hx

/-- The error names the culprit. -/
theorem Culprit.fails {part : Part} (h : e.Culprit t part ws b cause) :
    part.FailsWith e t ws (b.blamed cause) := by
  induction h with
  | raised hfails hbare => exact ⟨_, hfails, Site.annotate_of_bare hbare⟩
  | @evaluated s c b x ws₁ ws₂ ws₃ cause k hx hcalls _ hrest ih =>
    refine ⟨b.blamed cause, (fails_iff hx).2 ?_, Site.annotate_blamed ..⟩
    rw [replay_append, hcalls]
    exact (replay_bind_of_done ih ws₃).trans hrest
  | @handled s c b x visited ws₁ ws₂ ws₃ cause k hx hcalls _ hrest ih =>
    refine ⟨b.blamed cause, (fails_iff hx).2 ?_, Site.annotate_blamed ..⟩
    rw [replay_append, hcalls]
    exact (replay_bind_of_done ih ws₃).trans hrest
  | @unknownExpression s w cause hx =>
    change e.replay t ((ExceptT.run (e.evaluation s)).bind .done) [] = _
    unfold evaluation
    rw [lookup_of_error hx]
    rfl
  | @expression s b w ws cause _ ih =>
    obtain ⟨raised, hfails, heq⟩ := ih
    exact heq ▸ hfails.evaluate w
  | @unknownStatement visited s w cause hnew hx =>
    exact (replay_cons (step_of_unknown (lookup_of_error hx) hnew t w) []).trans rfl
  | @statement visited s b w ws cause hnew _ ih =>
    obtain ⟨raised, hfails, heq⟩ := ih
    exact heq ▸ hfails.chain hnew w
  | @next visited s c b w ws ws' cause hnew hpasses hnext _ ih =>
    obtain ⟨run, hcommand, hr⟩ := hpasses
    change e.replay t (.run (.chain visited s) .done) _ = _
    rw [replay_cons (hcommand.step hnew t w .done), replay_bind_of_done hr]
    simp only [afterCommand, hnext]
    exact ih

/-! ## Where an error comes from -/

/-- An execution ends with the error of a block that it evaluates or handles. -/
inductive Nested (e : Engine) (t : TaskId) (err : EngineError)
    (p : Execution (Except EngineError α)) : List World → Prop
  | evaluated {c : Site} {k : Except EngineError Json → Execution (Except EngineError α)}
      {ws₁ ws₂ ws₃ : List World} :
      e.replay t p ws₁ = some (.evaluate c k) →
      e.replay t (ExceptT.run (Attempt.evaluate c)) ws₂ = some (.done (.error err)) →
      e.replay t (k (.error err)) ws₃ = some (.done (.error err)) →
      Nested e t err p (ws₁ ++ (ws₂ ++ ws₃))
  | handled {visited : List String} {c : Site}
      {k : Except EngineError Signal → Execution (Except EngineError α)}
      {ws₁ ws₂ ws₃ : List World} :
      e.replay t p ws₁ = some (.run (.chain visited c) k) →
      e.replay t (ExceptT.run (Attempt.routine (.chain visited c))) ws₂ =
        some (.done (.error err)) →
      e.replay t (k (.error err)) ws₃ = some (.done (.error err)) →
      Nested e t err p (ws₁ ++ (ws₂ ++ ws₃))

theorem Nested.after {p q : Execution (Except EngineError α)} (h : e.Nested t err q ws')
    (hp : e.replay t p ws = some q) : e.Nested t err p (ws ++ ws') := by
  have happ : ∀ ws₁, e.replay t p (ws ++ ws₁) = e.replay t q ws₁ := fun ws₁ => by
    rw [replay_append, hp]
    rfl
  cases h with
  | evaluated hcalls hfails hrest =>
    rw [← List.append_assoc]
    exact .evaluated ((happ _).trans hcalls) hfails hrest
  | handled hcalls hfails hrest =>
    rw [← List.append_assoc]
    exact .handled ((happ _).trans hcalls) hfails hrest

/-- An error that an execution ends with, and does not raise, is that of a block it evaluates or
handles. -/
theorem nested_of_raises {p : Execution (Except EngineError α)} (hp : p.Raises (· ≠ err))
    (herr : ¬ err.IsBare) {n : Nat} (hn : ws.length ≤ n)
    (h : e.replay t p ws = some (.done (.error err))) : e.Nested t err p ws := by
  induction n generalizing p ws with
  | zero =>
    obtain rfl := List.length_eq_zero_iff.1 (Nat.le_zero.1 hn)
    obtain rfl := Option.some.inj h
    cases hp with
    | error hne => exact absurd rfl hne
  | succ n ih =>
    -- The first step of an execution leads to one that is as careful.
    have hstep : (∀ w q w', e.step t w p = some (q, w') → q.Raises (· ≠ err)) →
        (∀ a, p ≠ .done a) → e.Nested t err p ws := fun hq hgoing => by
      cases ws with
      | nil => exact absurd (Option.some.inj h) (hgoing _)
      | cons w ws =>
        obtain ⟨⟨q, w'⟩, hw, hrest⟩ := Option.bind_eq_some_iff.1 h
        have hone : e.replay t p [w] = some q := by rw [replay_cons hw, replay_nil]
        exact (ih (hq w q w' hw) (Nat.le_of_succ_le_succ hn) hrest).after hone
    -- Another block is run to its end, and fails with the error or does not.
    have hpart : ∀ {γ : Type} {q : Execution (Except EngineError γ)}
        {k : Except EngineError γ → Execution (Except EngineError α)}, p = q.bind k →
        (∀ a, q ≠ .done a) → (∀ x, (k (.ok x)).Raises (· ≠ err)) →
        (∀ err', err' ≠ err → (k (.error err')).Raises (· ≠ err)) →
        (∃ ws₁ ws₂, ws = [] ++ (ws₁ ++ ws₂) ∧ e.replay t q ws₁ = some (.done (.error err)) ∧
          e.replay t (k (.error err)) ws₂ = some (.done (.error err))) ∨ e.Nested t err p ws := by
      rintro γ q k rfl hgoing hok hother
      obtain ⟨ws₁, ws₂, r, rfl, hr, hrest⟩ := replay_bind_iff.1 h
      by_cases hsame : r = .error err
      · subst hsame
        exact .inl ⟨ws₁, ws₂, rfl, hr, hrest⟩
      · have hlt : ws₂.length ≤ n := by
          cases ws₁ with
          | nil => exact absurd (Option.some.inj hr) (hgoing r)
          | cons w ws₁ =>
            simp only [List.cons_append, List.length_cons, List.length_append] at hn
            omega
        have hk : (k r).Raises (· ≠ err) := by
          cases r with
          | ok x => exact hok x
          | error err' => exact hother err' fun heq => hsame (congrArg _ heq)
        exact .inr ((ih hk hlt hrest).after (by rw [replay_bind_of_some hr]; rfl))
    cases hp with
    | ok a => cases (replay_done_iff.1 h).2
    | error hne => exact absurd (Except.error.inj (replay_done_iff.1 h).2) hne
    | act hk =>
      refine hstep (fun w q w' hw => ?_) nofun
      obtain ⟨rfl, -⟩ := Prod.mk.inj (Option.some.inj hw)
      exact hk w
    | pause hk =>
      refine hstep (fun w q w' hw => ?_) nofun
      obtain ⟨r, -, rfl, -⟩ := step_pause hw
      exact hk r
    | signal hk =>
      refine hstep (fun w q w' hw => ?_) nofun
      obtain ⟨rfl, -⟩ := Prod.mk.inj (Option.some.inj hw)
      exact .bind_of_all _ fun _ => hk _
    | @evaluate c k hok hother =>
      rcases hpart (q := .evaluate c .done) rfl nofun hok hother with ⟨ws₁, ws₂, rfl, hc, hrest⟩ | h
      · exact .evaluated rfl hc hrest
      · exact h
    | @run r k hok hother =>
      by_cases hchain : ∃ visited c, r = .chain visited c
      · obtain ⟨visited, c, rfl⟩ := hchain
        rcases hpart (q := .run _ .done) rfl nofun hok hother with ⟨ws₁, ws₂, rfl, hc, hrest⟩ | h
        · exact .handled rfl hc hrest
        · exact h
      · refine hstep (fun w q w' hw => ?_) nofun
        obtain ⟨rfl, -⟩ := Prod.mk.inj (Option.some.inj hw)
        have hturn := raisesBare_turn e fun visited c heq => hchain ⟨visited, c, heq⟩
        exact (hturn (· ≠ err) fun err' hbare heq => herr (heq ▸ hbare)).afterTurn hok hother

/-! ## Every error has a culprit -/

/-- A handler that fails does so on its own, or with the error of a block inside it. -/
theorem exists_culprit_of_fails (he : e.RaisesBare) (h : e.Fails t s ws err)
    (ih : ∀ ws' : List World, ws'.length ≤ ws.length →
      (∀ c err, Part.FailsWith e t ws' err (.expression c) →
        ∃ b cause, e.Culprit t (.expression c) ws' b cause ∧ err = b.blamed cause) ∧
      ∀ visited c err, Part.FailsWith e t ws' err (.chain visited c) →
        ∃ b cause, e.Culprit t (.chain visited c) ws' b cause ∧ err = b.blamed cause) :
    ∃ b cause, e.Culprit t (.handler s) ws b cause ∧ s.annotate err = b.blamed cause := by
  by_cases hbare : err.IsBare
  · exact ⟨s, err, .raised h hbare, Site.annotate_of_bare hbare⟩
  · obtain ⟨x, hx, -⟩ := id h
    have hraises := he _ _ (registered_of_lookup hx) s (· ≠ err) fun _ hb heq => hbare (heq ▸ hb)
    cases nested_of_raises hraises hbare (Nat.le_refl _) ((fails_iff hx).1 h) with
    | @evaluated c k ws₁ ws₂ ws₃ hcalls hfails hrest =>
      obtain ⟨b, cause, hculprit, rfl⟩ := (ih ws₂ (by simp; omega)).1 c err hfails
      exact ⟨b, cause, .evaluated hx hcalls hculprit hrest, Site.annotate_blamed ..⟩
    | @handled visited c k ws₁ ws₂ ws₃ hcalls hfails hrest =>
      obtain ⟨b, cause, hculprit, rfl⟩ := (ih ws₂ (by simp; omega)).2 visited c err hfails
      exact ⟨b, cause, .handled hx hcalls hculprit hrest, Site.annotate_blamed ..⟩

/-- A block that cut its chain with an error has a handler that failed. -/
theorem Cuts.handler_fails {r : Except EngineError Signal} (h : e.Cuts t b ws r) (hr : r = .error err) :
    ∃ raised, e.Fails t b ws raised ∧ err = b.annotate raised := by
  cases h with
  | @hat x run _ r' hx hrun hreplay =>
    cases r' with
    | ok x => cases hr
    | error raised =>
      refine ⟨raised, ⟨x, hx, ?_⟩, (Except.error.inj hr).symm⟩
      rw [hrun]
      exact hreplay
  | expression => cases hr
  | @expressionFails x read _ raised hx hread hreplay =>
    refine ⟨raised, ⟨x, hx, ?_⟩, (Except.error.inj hr).symm⟩
    rw [hread]
    exact hreplay
  | stop => cases hr
  | @fails run _ raised hcommand hreplay =>
    obtain ⟨x, hx, hrun⟩ := hcommand
    refine ⟨raised, ⟨x, hx, ?_⟩, (Except.error.inj hr).symm⟩
    rw [hrun]
    exact hreplay

/-- A chain that fails does so with the error of one of its blocks. -/
theorem Handles.exists_culprit {inv : List (Site × List World)}
    {q : Execution (Except EngineError Signal)} (h : e.Handles t visited s ws inv q)
    (hq : q = .done (.error err))
    (ih : ∀ c ws' raised, ws'.length < ws.length → e.Fails t c ws' raised →
      ∃ b cause, e.Culprit t (.handler c) ws' b cause ∧ c.annotate raised = b.blamed cause) :
    ∃ b cause, e.Culprit t (.chain visited s) ws b cause ∧ err = b.blamed cause := by
  induction h with
  | due => cases hq
  | again => cases hq
  | @unknown visited s w err' hnew hx =>
    obtain rfl := Except.error.inj (Execution.done.inj hq)
    obtain ⟨cause, hcause, rfl⟩ := lookup_eq_error hx
    exact ⟨s, cause, .unknownStatement hnew hcause, rfl⟩
  | busy _ hbusy => exact absurd hq (hbusy.not_done _)
  | @cut visited s w ws r hnew hcuts =>
    obtain ⟨raised, hfails, rfl⟩ := hcuts.handler_fails (Execution.done.inj hq)
    obtain ⟨b, cause, hculprit, heq⟩ := ih s ws raised (Nat.lt_succ_self _) hfails
    exact ⟨b, cause, .statement hnew hculprit, heq⟩
  | last => cases hq
  | @next visited s c w ws ws' inv q hnew hpasses hnext _ ih' =>
    have hlt : ws'.length < (w :: (ws ++ ws')).length := by
      simp only [List.length_cons, List.length_append]
      omega
    obtain ⟨b, cause, hculprit, rfl⟩ := ih' hq fun c ws₁ raised hle => ih c ws₁ raised
      (hle.trans hlt)
    exact ⟨b, cause, .next hnew hpasses hnext hculprit, rfl⟩

/-- Every error of an expression or a chain has a culprit. -/
theorem exists_culprit (he : e.RaisesBare) {n : Nat} (hn : ws.length ≤ n) :
    (∀ c err, Part.FailsWith e t ws err (.expression c) →
      ∃ b cause, e.Culprit t (.expression c) ws b cause ∧ err = b.blamed cause) ∧
    ∀ visited c err, Part.FailsWith e t ws err (.chain visited c) →
      ∃ b cause, e.Culprit t (.chain visited c) ws b cause ∧ err = b.blamed cause := by
  induction n generalizing ws with
  | zero =>
    obtain rfl := List.length_eq_zero_iff.1 (Nat.le_zero.1 hn)
    constructor
    · intro c err h
      cases Option.some.inj h
    · intro visited c err h
      cases Option.some.inj h
  | succ n ih =>
    have hhandler : ∀ c ws' raised, ws'.length < ws.length → e.Fails t c ws' raised →
        ∃ b cause, e.Culprit t (.handler c) ws' b cause ∧ c.annotate raised = b.blamed cause :=
      fun c ws' raised hlt hfails => exists_culprit_of_fails he hfails fun ws₁ hle =>
        ih (hle.trans (Nat.le_of_lt_succ (Nat.lt_of_lt_of_le hlt hn)))
    refine ⟨fun c err h => ?_, fun visited c err h => ?_⟩
    · cases ws with
      | nil => cases Option.some.inj h
      | cons w ws =>
        have hrun : e.replay t (ExceptT.run (e.evaluation c)) ws = some (.done (.error err)) := by
          rw [← Execution.bind_done (ExceptT.run (e.evaluation c))]
          exact h
        rcases evaluation_fails hrun with ⟨rfl, hx⟩ | ⟨raised, hfails, rfl⟩
        · obtain ⟨cause, hcause, rfl⟩ := lookup_eq_error hx
          exact ⟨c, cause, .unknownExpression hcause, rfl⟩
        · obtain ⟨b, cause, hculprit, heq⟩ := hhandler c ws raised (Nat.lt_succ_self _) hfails
          exact ⟨b, cause, .expression hculprit, heq⟩
    · obtain ⟨inv, hinv⟩ := handles_of_replay (Nat.le_refl _) h
      exact hinv.exists_culprit rfl hhandler

/-! ## The theorem -/

/-- How a block that is run as what it is registered as runs. -/
def partFor (e : Engine) (s : Site) : Part :=
  if e.registry.kind? s.block.opcode = some .reporter then .expression s else .chain [] s

/-- What can be said of the errors of a block. -/
structure NamesCulprit (e : Engine) (t : TaskId) (s : Site) : Prop where
  /-- An error of its evaluation names the culprit. -/
  evaluates : ∀ ws err,
    e.replay t (ExceptT.run (Attempt.evaluate s)) ws = some (.done (.error err)) ↔
      ∃ b cause, e.Culprit t (.expression s) ws b cause ∧
        err = .atBlock b.tab b.id b.block.opcode cause
  /-- And so does one of a chain from the block on. -/
  handles : ∀ ws err,
    e.replay t (ExceptT.run (Attempt.handle s)) ws = some (.done (.error err)) ↔
      ∃ b cause, e.Culprit t (.chain [] s) ws b cause ∧
        err = .atBlock b.tab b.id b.block.opcode cause
  handlesOrEvaluates : ∀ ws err,
    e.replay t (ExceptT.run (e.handleOrEvaluate s)) ws = some (.done (.error err)) ↔
      ∃ b cause, e.Culprit t (e.partFor s) ws b cause ∧
        err = .atBlock b.tab b.id b.block.opcode cause
  /-- The error inside names no block. -/
  bare : ∀ part ws b cause, e.Culprit t part ws b cause → cause.IsBare
  /-- The block is the culprit where it refers to a block that is not there or is nested too deep. -/
  refers : ∀ key i id err, s.block.input? key = .ok (some i) → i.content = .block id →
    s.child e.settings.maxDepth id = .error err →
    (e.settings.maxDepth < s.depth + 1 ∧ err = .malformedGraph (.tooDeep e.settings.maxDepth id) ∨
      s.generation.graph.get? id = none ∧ err = .malformedGraph (.blockNotFound id)) ∧
    (i.alwaysReference = false →
      ExceptT.run (s.inputValue e.environment key) = .done (.error err)) ∧
    (s.hasInput key = true →
      ExceptT.run (s.handleInput e.environment key) = .done (.error err)) ∧
    ∀ ws, e.Fails t s ws err → e.Culprit t (.handler s) ws s err

/-- Where there is no block to go to. -/
theorem goTo_eq_error {limit depth : Nat} {id : String} (h : s.goTo limit id depth = .error err) :
    limit < depth ∧ err = .malformedGraph (.tooDeep limit id) ∨
      s.generation.graph.get? id = none ∧ err = .malformedGraph (.blockNotFound id) := by
  unfold Site.goTo at h
  by_cases hdeep : limit < depth
  · rw [if_pos hdeep] at h
    exact .inl ⟨hdeep, (Except.error.inj h).symm⟩
  · rw [if_neg hdeep] at h
    unfold Graph.block at h
    cases hb : s.generation.graph.get? id with
    | none =>
      rw [hb] at h
      exact .inr ⟨rfl, (Except.error.inj h).symm⟩
    | some b =>
      rw [hb] at h
      cases h

/-- Every error of a block names the innermost block that failed, and it alone, if handlers raise
only bare errors of their own. -/
theorem errors_name_culprit (he : e.RaisesBare) (t : TaskId) (s : Site) : e.NamesCulprit t s where
  evaluates ws err := ⟨(exists_culprit he (Nat.le_refl _)).1 s err,
    fun ⟨_, _, h, heq⟩ => heq ▸ h.fails⟩
  handles ws err := ⟨(exists_culprit he (Nat.le_refl _)).2 [] s err,
    fun ⟨_, _, h, heq⟩ => heq ▸ h.fails⟩
  handlesOrEvaluates ws err := by
    unfold handleOrEvaluate partFor
    split
    · constructor
      · intro h
        rcases replay_attempt_bind_error h with hfails | ⟨_, _, _, -, -, hpure⟩
        · exact (exists_culprit he (Nat.le_refl _)).1 s err hfails
        · exact absurd hpure replay_pure_ne_error
      · rintro ⟨b, cause, h, rfl⟩
        exact replay_bind_error h.fails
    · exact ⟨(exists_culprit he (Nat.le_refl _)).2 [] s err, fun ⟨_, _, h, heq⟩ => heq ▸ h.fails⟩
  bare _ _ _ _ h := h.bare
  refers key i id err hi hid hc := by
    refine ⟨goTo_eq_error hc, fun hmode => ?_, fun hpresent => ?_, fun ws hfails =>
      .raised hfails (Site.bare_goTo s _ _ _ err hc)⟩
    · rw [Site.inputValue_of_block hi hid hmode]
      change ExceptT.run (Attempt.ofExcept (s.child e.settings.maxDepth id) >>= _) = _
      rw [hc]
      rfl
    · rw [Site.handleInput_of_block hi hid hpresent]
      change ExceptT.run (Attempt.ofExcept (s.child e.settings.maxDepth id) >>= _) = _
      rw [hc]
      rfl

/-- A negation of a negation of a block that is not there. -/
theorem errors_name_culprit_of_missing :
    let e : Engine := ⟨(Registry.empty.registerAll Library.core).1, ⟨100, 20, 3⟩, none, "main"⟩
    let b (id operand : String) : Block := {
      id, opcode := ⟨"operator", "not"⟩, shadow := false, topLevel := true, parent := none
      next := none, fields := [], inputs := [("OPERAND", [.num (.int 2), .str operand])]
      mutation := none, extra := [], defined := true }
    let g : Generation := ⟨0, "tab", "Tab", ⟨[b "a" "b", b "b" "c"], []⟩⟩
    let s : Site := ⟨g, b "a" "b", 0, ⟨0, some "tab", none⟩⟩
    let err : EngineError :=
      .atBlock "tab" "b" ⟨"operator", "not"⟩ (.malformedGraph (.blockNotFound "c"))
    let ws : List World := [.start 8, .start 8]
    (e.RaisesBare ∧ e.NamesCulprit 1 s) ∧
      e.replay 1 (ExceptT.run (Attempt.evaluate s)) ws = some (.done (.error err)) ∧
      ∃ b cause, e.Culprit 1 (.expression s) ws b cause ∧
        err = .atBlock b.tab b.id b.block.opcode cause := by
  intro e b g s err ws
  have he : e.RaisesBare := raisesBare_of_core rfl
  have hnames := errors_name_culprit he 1 s
  have hruns : e.replay 1 (ExceptT.run (Attempt.evaluate s)) ws = some (.done (.error err)) := rfl
  exact ⟨⟨he, hnames⟩, hruns, (hnames.evaluates ws err).1 hruns⟩

end Engine
end BlockEngine
