import BlockEngine.Proofs.Script
import BlockEngine.Proofs.Threads

/-!
# Loops

The loops of the control blocks are one routine. Its iterations are counted from zero: each tells its
number, looks at the condition if the loop has one, runs the body and, unless that was the end, is
followed by a pause.

* `Engine.replay_bind_cases` : where a composition stands;
* `Loop.Rounds` : whole iterations with the pauses after them; `Loop.Ended` : all of a loop, up to
  its end; `Loop.Stands` : the iteration a loop is in;
* `Loop.RunBy` : an execution that does what a loop asks for; `Loop.runBy`;
* `Library.loops_paced` : what the four control blocks with a body do.
-/

namespace BlockEngine

variable {α β : Type} {e : Engine} {t : TaskId}

/-! ## The clock -/

namespace World

theorem clock_modifyTask (w : World) (t : TaskId) (f : TaskRecord → TaskRecord) :
    (w.modifyTask t f).clock = w.clock := by
  unfold modifyTask
  split <;> rfl

theorem clock_wake (w : World) (t : TaskId) : (w.wake t).clock = w.clock := by
  unfold wake
  split
  · split
    · rfl
    · exact clock_modifyTask w t _
  · rfl

theorem clock_wakeAll (w : World) (ts : List TaskId) : (w.wakeAll ts).clock = w.clock := by
  unfold wakeAll
  induction ts generalizing w with
  | nil => rfl
  | cons t ts ih => exact (ih (w.wake t)).trans (clock_wake w t)

/-- When time passes, it stops at every deadline that somebody waits for. -/
theorem clock_tick_le {w w' : World} {x : Timer} (hx : x ∈ w.timers) (hdue : w.clock ≤ x.deadline)
    (h : w.tick = some w') : w'.clock ≤ x.deadline := by
  obtain ⟨d, hd, rfl⟩ := Option.map_eq_some_iff.1 h
  have hle : d ≤ x.deadline :=
    (List.min?_eq_some_iff.1 hd).2 _ (List.mem_map_of_mem hx)
  rw [clock_wakeAll]
  exact Nat.max_le.2 ⟨hle, hdue⟩

end World

/-! ## Compositions -/

namespace Engine

theorem replay_nil (e : Engine) (t : TaskId) (p : Execution α) : e.replay t p [] = some p := rfl

theorem replay_cons {p q : Execution α} {w w' : World} (h : e.step t w p = some (q, w'))
    (ws : List World) : e.replay t p (w :: ws) = e.replay t q ws := by
  rw [replay, h]
  rfl

/-- A sleep is over in a state whose clock has reached its deadline. -/
theorem step_time {w : World} {d : Nat} (h : d ≤ w.clock) (t : TaskId) (k : Unit → Execution α) :
    e.step t w (.pause (.time d) k) = some (k (), w.settle t (.time d)) := by
  have hanswer : w.answer? t (.time d) = some () := if_pos h
  exact congrArg (Option.map _) hanswer

theorem le_of_step_time {w w' : World} {d : Nat} {k : Unit → Execution α} {q : Execution α}
    (h : e.step t w (.pause (.time d) k) = some (q, w')) : d ≤ w.clock ∧ q = k () := by
  obtain ⟨_, hanswer, rfl, -⟩ := step_pause h
  refine ⟨Decidable.byContradiction fun hearly => ?_, rfl⟩
  rw [World.answer?, if_neg hearly] at hanswer
  cases hanswer

theorem replay_of_done {a : α} {ws : List World} {q : Execution α}
    (h : e.replay t (.done a) ws = some q) : ws = [] ∧ q = .done a := by
  cases ws with
  | nil => exact ⟨rfl, (Option.some.inj h).symm⟩
  | cons w ws => cases h

/-- A composition is still in its first part, or past it. -/
theorem replay_bind_cases {p : Execution α} {k : α → Execution β} {ws : List World}
    {q : Execution β} (h : e.replay t (p.bind k) ws = some q) :
    (∃ p', e.replay t p ws = some p' ∧ (∀ a, p' ≠ .done a) ∧ q = p'.bind k) ∨
      ∃ ws₁ ws₂ a, ws = ws₁ ++ ws₂ ∧ e.replay t p ws₁ = some (.done a) ∧
        e.replay t (k a) ws₂ = some q := by
  induction ws generalizing p with
  | nil =>
    by_cases hp : ∃ a, p = .done a
    · obtain ⟨a, rfl⟩ := hp
      exact .inr ⟨[], [], a, rfl, rfl, h⟩
    · exact .inl ⟨p, rfl, fun a ha => hp ⟨a, ha⟩, (Option.some.inj h).symm⟩
  | cons w ws ih =>
    by_cases hp : ∃ a, p = .done a
    · obtain ⟨a, rfl⟩ := hp
      exact .inr ⟨[], w :: ws, a, rfl, rfl, h⟩
    · obtain ⟨⟨q', w₁⟩, hstep, hrest⟩ := Option.bind_eq_some_iff.1 h
      rw [step_bind e t w k fun a ha => hp ⟨a, ha⟩] at hstep
      obtain ⟨⟨p', w'⟩, hp', heq⟩ := Option.map_eq_some_iff.1 hstep
      obtain ⟨rfl, rfl⟩ := Prod.mk.inj heq
      rcases ih hrest with ⟨p'', hfirst, hgoing, rfl⟩ | ⟨ws₁, ws₂, a, rfl, hfirst, hsecond⟩
      · exact .inl ⟨p'', Option.bind_eq_some_iff.2 ⟨_, hp', hfirst⟩, hgoing, rfl⟩
      · exact .inr ⟨w :: ws₁, ws₂, a, rfl, Option.bind_eq_some_iff.2 ⟨_, hp', hfirst⟩, hsecond⟩

/-- The first part of a composition, as long as it goes on. -/
theorem replay_bind_of_some {p p' : Execution α} {ws : List World}
    (h : e.replay t p ws = some p') (k : α → Execution β) :
    e.replay t (p.bind k) ws = some (p'.bind k) := by
  induction ws generalizing p with
  | nil => exact congrArg (fun q => some (q.bind k)) (Option.some.inj h)
  | cons w ws ih =>
    obtain ⟨⟨q, w'⟩, hq, hrest⟩ := Option.bind_eq_some_iff.1 h
    have hp : ∀ a, p ≠ .done a := by
      rintro a rfl
      cases hq
    refine Option.bind_eq_some_iff.2 ⟨(q.bind k, w'), ?_, ih hrest⟩
    rw [step_bind e t w k hp, hq]
    rfl

/-- The second part of a composition, after the end of the first. -/
theorem replay_bind_of_done {p : Execution α} {k : α → Execution β} {ws : List World} {a : α}
    (h : e.replay t p ws = some (.done a)) (ws' : List World) :
    e.replay t (p.bind k) (ws ++ ws') = e.replay t (k a) ws' := by
  rw [replay_append, replay_bind_of_some h]
  rfl

end Engine

/-! ## What a loop does -/

namespace Loop

variable {l : Loop} {k n : Nat} {ws past now : List World} {w w' : World}
  {r : Except EngineError Signal} {q : Execution (Except EngineError Signal)}

/-- The steps in which the condition of a loop is read, if its rule asks for one, and what it was. -/
inductive Tests (e : Engine) (t : TaskId) (l : Loop) :
    List World → Except EngineError Bool → Prop
  | unasked : l.rule ≠ .whileCondition → Tests e t l [] (.ok true)
  | read {ws : List World} {b : Except EngineError Bool} :
      l.rule = .whileCondition →
      e.replay t (ExceptT.run (l.site.inputBool e.environment conditionInput)) ws =
        some (.done b) →
      Tests e t l ws b

/-- The body of a loop has run once, from its first step to its end. -/
def BodyRuns (e : Engine) (t : TaskId) (l : Loop) (ws : List World)
    (r : Except EngineError Signal) : Prop :=
  e.replay t (ExceptT.run (Attempt.handle l.body)) ws = some (.done r)

/-- The steps of iteration `k`, after which there is another one: it begins, its number is stored,
the condition holds, the body runs, and the loop has not run it often enough. -/
inductive Iteration (e : Engine) (t : TaskId) (l : Loop) (k : Nat) : List World → Prop
  | mk {begun marked : World} {tests body : List World} :
      l.Tests e t tests (.ok true) → l.BodyRuns e t body (.ok .proceed) →
      (∀ n, l.rule = .times n → k + 1 < n) →
      Iteration e t l k (begun :: marked :: (tests ++ body))

/-- The first `n` iterations, each with the pause after it: a sleep that begins in one state and is
over in a state whose clock has reached the time for which it was set. -/
inductive Rounds (e : Engine) (t : TaskId) (l : Loop) : Nat → List World → Prop
  | none : Rounds e t l 0 []
  | more {n : Nat} {past now : List World} {asleep awake : World} :
      Rounds e t l n past → l.Iteration e t n now → asleep.after l.interval ≤ awake.clock →
      Rounds e t l (n + 1) (past ++ (now ++ [asleep, awake]))

/-- A whole loop: the steps, how often the body has run, and how the loop ended. After the last
iteration there is no pause. -/
inductive Ended (e : Engine) (t : TaskId) (l : Loop) :
    List World → Nat → Except EngineError Signal → Prop
  /-- The condition does not hold; the body does not run again. -/
  | unmet {n : Nat} {past tests : List World} {begun marked : World} :
      l.Rounds e t n past → l.Tests e t tests (.ok false) →
      Ended e t l (past ++ begun :: marked :: tests) n (.ok .proceed)
  /-- The condition can not be read. -/
  | untold {n : Nat} {past tests : List World} {begun marked : World} {err : EngineError} :
      l.Rounds e t n past → l.Tests e t tests (.error err) →
      Ended e t l (past ++ begun :: marked :: tests) n (.error err)
  /-- The body stops or fails, and so does the loop. -/
  | broken {n : Nat} {past tests body : List World} {begun marked : World}
      {r : Except EngineError Signal} :
      l.Rounds e t n past → l.Tests e t tests (.ok true) → l.BodyRuns e t body r →
      r ≠ .ok .proceed → Ended e t l (past ++ begun :: marked :: (tests ++ body)) (n + 1) r
  /-- The body has run as often as it should. -/
  | counted {n m : Nat} {past tests body : List World} {begun marked : World} :
      l.Rounds e t n past → l.Tests e t tests (.ok true) → l.BodyRuns e t body (.ok .proceed) →
      l.rule = .times m → m ≤ n + 1 →
      Ended e t l (past ++ begun :: marked :: (tests ++ body)) (n + 1) (.ok .proceed)

/-- Where iteration `k` stands after some of its steps: what has been done of it, and what is next. -/
inductive Stands (e : Engine) (t : TaskId) (l : Loop) (k : Nat) :
    List World → Execution (Except EngineError Signal) → Prop
  | due : Stands e t l k [] (.run (.loop l k) .done)
  /-- The next step stores the number of the iteration. -/
  | marking {begun : World} {q : Execution (Except EngineError Signal)} :
      q.Stores l.site.generation.number l.site.id indexKey (.ofNat k) → Stands e t l k [begun] q
  /-- The condition is being read. -/
  | testing {begun marked : World} {tests : List World}
      {p : Execution (Except EngineError Bool)}
      {g : Except EngineError Bool → Execution (Except EngineError Signal)} :
      l.rule = .whileCondition →
      e.replay t (ExceptT.run (l.site.inputBool e.environment conditionInput)) tests = some p →
      (∀ b, p ≠ .done b) → Stands e t l k (begun :: marked :: tests) (p.bind g)
  /-- The body is running. -/
  | running {begun marked : World} {tests body : List World}
      {p : Execution (Except EngineError Signal)}
      {g : Except EngineError Signal → Execution (Except EngineError Signal)} :
      l.Tests e t tests (.ok true) →
      e.replay t (ExceptT.run (Attempt.handle l.body)) body = some p → (∀ r, p ≠ .done r) →
      Stands e t l k (begun :: marked :: (tests ++ body)) (p.bind g)
  /-- The next step reads the clock. -/
  | pausing {now : List World} {g : World → Execution (Except EngineError Signal)} :
      l.Iteration e t k now → Stands e t l k now (.act id g)
  /-- The loop sleeps. -/
  | resting {now : List World} {asleep : World}
      {g : Unit → Execution (Except EngineError Signal)} :
      l.Iteration e t k now →
      Stands e t l k (now ++ [asleep]) (.pause (.time (asleep.after l.interval)) g)

/-! ## One iteration -/

/-- What is left of iteration `k` once its body has ended. -/
def afterBody (l : Loop) (k : Nat) :
    Except EngineError Signal → Execution (Except EngineError Signal)
  | .ok .proceed =>
    match l.rule with
    | .times n => if n ≤ k + 1 then .done (.ok .proceed) else rest
    | _ => rest
  | r => .done r
where
  rest : Execution (Except EngineError Signal) :=
    .act id fun w => .pause (.time (w.after l.interval)) fun _ => .run (.loop l (k + 1)) .done

/-- What is left of iteration `k` once its condition has been read. -/
def afterTest (l : Loop) (k : Nat) :
    Except EngineError Bool → Execution (Except EngineError Signal)
  | .ok true => (ExceptT.run (Attempt.handle l.body)).bind (l.afterBody k)
  | .ok false => .done (.ok .proceed)
  | .error err => .done (.error err)

/-- What follows the body, as the turn of the loop has it. -/
theorem afterTurn_afterBody (l : Loop) (k : Nat) (r : Except EngineError Signal) :
    (ExceptT.run (ExceptT.mk (Execution.done r) >>= fun s => match s with
      | .stop => (return .over .stop : Attempt Turned)
      | .proceed =>
        match l.rule with
        | .times n => if n ≤ k + 1 then return .over .proceed else Engine.loopTurn.pauseAndGo l k
        | _ => Engine.loopTurn.pauseAndGo l k)).bind (Engine.afterTurn .done) = l.afterBody k r := by
  match r with
  | .error err => rfl
  | .ok .stop => rfl
  | .ok .proceed =>
    cases hrule : l.rule with
    | times n =>
      simp only [afterBody, hrule]
      by_cases hn : n ≤ k + 1
      · simp only [if_pos hn]
        rfl
      · simp only [if_neg hn]
        rfl
    | forever | whileCondition =>
      simp only [afterBody, hrule]
      rfl

/-- An iteration begins with the step that stores its number. -/
theorem step (e : Engine) (t : TaskId) (w : World) (l : Loop) (k : Nat) :
    e.step t w (.run (.loop l k) .done) =
      some (.act (fun w => w.storeValue l.site.generation.number l.site.id indexKey (.ofNat k))
        fun _ => (ExceptT.run (e.goesOn l)).bind (l.afterTest k), w) := by
  change some ((ExceptT.run (e.loopTurn l k)).bind (Engine.afterTurn .done), w) = _
  congr 2
  unfold Engine.loopTurn Engine.keep Execution.setValue
  rw [if_neg (show indexKey ≠ valueKey by decide)]
  change Execution.act _ _ = _
  congr 1
  funext _
  change ((ExceptT.run (e.goesOn l)).bind _).bind _ = _
  rw [Execution.bind_assoc]
  congr 1
  funext b
  match b with
  | .error err => rfl
  | .ok false => rfl
  | .ok true =>
    change ((ExceptT.run (Attempt.handle l.body)).bind _).bind _ = _
    rw [Execution.bind_assoc]
    exact congrArg _ (funext fun r => afterTurn_afterBody l k r)

theorem replay_marked (e : Engine) (t : TaskId) (l : Loop) (k : Nat) (begun marked : World)
    (ws : List World) :
    e.replay t (.run (.loop l k) .done) (begun :: marked :: ws) =
      e.replay t ((ExceptT.run (e.goesOn l)).bind (l.afterTest k)) ws := by
  rw [Engine.replay, step]
  rfl

theorem tests_iff {b : Except EngineError Bool} :
    e.replay t (ExceptT.run (e.goesOn l)) ws = some (.done b) ↔ l.Tests e t ws b := by
  unfold Engine.goesOn
  by_cases hrule : l.rule = .whileCondition
  · rw [if_pos hrule]
    refine ⟨.read hrule, fun h => ?_⟩
    cases h with
    | unasked hother => exact absurd hrule hother
    | read _ h => exact h
  · rw [if_neg hrule]
    refine Engine.replay_done_iff.trans ⟨?_, fun h => ?_⟩
    · rintro ⟨rfl, rfl⟩
      exact .unasked hrule
    · cases h with
      | unasked => exact ⟨rfl, rfl⟩
      | read hwhile => exact absurd hwhile hrule

/-- Once the condition is known to hold, the loop runs its body. -/
theorem Tests.replay {begun marked : World} {tests : List World} {b : Except EngineError Bool}
    (h : l.Tests e t tests b) (k : Nat) (ws : List World) :
    e.replay t (.run (.loop l k) .done) (begun :: marked :: (tests ++ ws)) =
      e.replay t (l.afterTest k b) ws := by
  rw [replay_marked, Engine.replay_bind_of_done (tests_iff.2 h)]

/-- Once the body has run, the iteration is over. -/
theorem BodyRuns.replay {begun marked : World} {tests body : List World}
    (h : l.BodyRuns e t body r) (htests : l.Tests e t tests (.ok true)) (k : Nat)
    (ws : List World) :
    e.replay t (.run (.loop l k) .done) (begun :: marked :: (tests ++ body) ++ ws) =
      e.replay t (l.afterBody k r) ws := by
  rw [List.cons_append, List.cons_append, List.append_assoc, htests.replay]
  exact Engine.replay_bind_of_done h ws

theorem afterBody_proceed (hgoes : ∀ n, l.rule = .times n → k + 1 < n) :
    l.afterBody k (.ok .proceed) = afterBody.rest l k := by
  simp only [afterBody]
  split
  · next n hrule => exact if_neg (Nat.not_le.2 (hgoes n hrule))
  · rfl

theorem afterBody_counted (hrule : l.rule = .times n) (hn : n ≤ k + 1) :
    l.afterBody k (.ok .proceed) = .done (.ok .proceed) := by
  simp only [afterBody, hrule, if_pos hn]

theorem afterBody_broken (hr : r ≠ .ok .proceed) (l : Loop) (k : Nat) :
    l.afterBody k r = .done r := by
  match r with
  | .error err => rfl
  | .ok .stop => rfl
  | .ok .proceed => exact absurd rfl hr

theorem Iteration.replay (h : l.Iteration e t k now) (ws : List World) :
    e.replay t (.run (.loop l k) .done) (now ++ ws) = e.replay t (afterBody.rest l k) ws := by
  obtain ⟨htests, hbody, hgoes⟩ := h
  rw [hbody.replay htests, afterBody_proceed hgoes]

/-! ## All iterations -/

theorem step_rest (e : Engine) (t : TaskId) (w : World) (l : Loop) (k : Nat) :
    e.step t w (afterBody.rest l k) =
      some (.pause (.time (w.after l.interval)) fun _ => .run (.loop l (k + 1)) .done, w) := rfl

theorem replay_rest {asleep awake : World} (h : asleep.after l.interval ≤ awake.clock)
    (t : TaskId) (k : Nat) :
    e.replay t (afterBody.rest l k) [asleep, awake] = some (.run (.loop l (k + 1)) .done) := by
  have hstep := Engine.step_time (e := e) h t fun _ => Execution.run (.loop l (k + 1)) .done
  exact (Engine.replay_cons (step_rest ..) _).trans (Engine.replay_cons hstep [])

/-- After whole rounds the next iteration is due. -/
theorem Rounds.replay (h : l.Rounds e t n past) (ws : List World) :
    e.replay t (.run (.loop l 0) .done) (past ++ ws) =
      e.replay t (.run (.loop l n) .done) ws := by
  induction h generalizing ws with
  | none => rfl
  | more _ hnow hawake ih =>
    rw [List.append_assoc, ih, List.append_assoc, hnow.replay, Engine.replay_append,
      replay_rest hawake]
    rfl

theorem Ended.replay (h : l.Ended e t ws n r) :
    e.replay t (.run (.loop l 0) .done) ws = some (.done r) := by
  cases h with
  | unmet hpast htests | untold hpast htests =>
    rw [hpast.replay]
    simpa only [List.append_nil, Engine.replay_nil, afterTest] using htests.replay _ []
  | broken hpast htests hbody hr =>
    rw [hpast.replay]
    simpa only [List.append_nil, Engine.replay_nil, afterBody_broken hr] using hbody.replay htests _ []
  | @counted k _ _ _ _ _ _ hpast htests hbody hrule hn =>
    rw [hpast.replay]
    simpa only [List.append_nil, Engine.replay_nil, afterBody_counted hrule hn] using
      hbody.replay htests k []

/-- What the pause after an iteration has come to: it is not over, or the next iteration is due. -/
theorem rest_cases (hnow : l.Iteration e t k now)
    (h : e.replay t (afterBody.rest l k) ws = some q) :
    l.Stands e t k (now ++ ws) q ∨
      ∃ asleep awake rest, ws = [asleep, awake] ++ rest ∧
        asleep.after l.interval ≤ awake.clock ∧
        e.replay t (.run (.loop l (k + 1)) .done) rest = some q := by
  match ws with
  | [] =>
    obtain rfl := Option.some.inj h
    rw [List.append_nil]
    exact .inl (.pausing hnow)
  | [asleep] =>
    obtain rfl := Option.some.inj h
    exact .inl (.resting hnow)
  | asleep :: awake :: rest =>
    rw [Engine.replay_cons (step_rest ..)] at h
    obtain ⟨⟨p, w⟩, hstep, hrest⟩ := Option.bind_eq_some_iff.1 h
    obtain ⟨hawake, rfl⟩ := Engine.le_of_step_time hstep
    exact .inr ⟨asleep, awake, rest, rfl, hawake, hrest⟩

/-- What an iteration that is due has come to: it is not over, it was the last one, or another one
is due after the pause. -/
theorem iteration_cases (h : e.replay t (.run (.loop l k) .done) ws = some q) :
    l.Stands e t k ws q ∨
      (∃ r, q = .done r ∧ ∀ past, l.Rounds e t k past → ∃ count, l.Ended e t (past ++ ws) count r) ∨
      ∃ now asleep awake rest, ws = now ++ [asleep, awake] ++ rest ∧ l.Iteration e t k now ∧
        asleep.after l.interval ≤ awake.clock ∧
        e.replay t (.run (.loop l (k + 1)) .done) rest = some q := by
  rcases ws with _ | ⟨begun, _ | ⟨marked, rest⟩⟩
  · obtain rfl := Option.some.inj h
    exact .inl .due
  · rw [Engine.replay, step] at h
    obtain rfl := Option.some.inj h
    exact .inl (.marking ⟨_, rfl⟩)
  rw [replay_marked] at h
  rcases Engine.replay_bind_cases h with ⟨p, hp, hgoing, rfl⟩ | ⟨tests, rest, b, rfl, hb, h⟩
  · unfold Engine.goesOn at hp
    split at hp
    · next hrule => exact .inl (.testing hrule hp hgoing)
    · obtain ⟨rfl, rfl⟩ := Engine.replay_of_done hp
      exact absurd rfl (hgoing _)
  have htests := tests_iff.1 hb
  rcases b with err | _ | _
  · obtain ⟨rfl, rfl⟩ := Engine.replay_of_done h
    rw [List.append_nil]
    exact .inr (.inl ⟨_, rfl, fun past hpast => ⟨k, .untold hpast htests⟩⟩)
  · obtain ⟨rfl, rfl⟩ := Engine.replay_of_done h
    rw [List.append_nil]
    exact .inr (.inl ⟨_, rfl, fun past hpast => ⟨k, .unmet hpast htests⟩⟩)
  rcases Engine.replay_bind_cases h with ⟨p, hp, hgoing, rfl⟩ | ⟨body, rest, r, rfl, hbody, h⟩
  · exact .inl (.running htests hp hgoing)
  by_cases hr : r = .ok .proceed
  · subst hr
    by_cases hgoes : ∀ n, l.rule = .times n → k + 1 < n
    · have hnow : l.Iteration e t k (begun :: marked :: (tests ++ body)) :=
        .mk htests hbody hgoes
      rw [afterBody_proceed hgoes] at h
      rcases rest_cases hnow h with hstands | ⟨asleep, awake, rest, rfl, hawake, h⟩
      · exact .inl (by simpa using hstands)
      · exact .inr (.inr ⟨_, asleep, awake, rest, by simp, hnow, hawake, h⟩)
    · obtain ⟨n, hrule, hn⟩ : ∃ n, l.rule = .times n ∧ n ≤ k + 1 := by simpa using hgoes
      rw [afterBody_counted hrule hn] at h
      obtain ⟨rfl, rfl⟩ := Engine.replay_of_done h
      rw [List.append_nil]
      exact .inr (.inl ⟨_, rfl, fun past hpast => ⟨_, .counted hpast htests hbody hrule hn⟩⟩)
  · rw [afterBody_broken hr] at h
    obtain ⟨rfl, rfl⟩ := Engine.replay_of_done h
    rw [List.append_nil]
    exact .inr (.inl ⟨_, rfl, fun past hpast => ⟨_, .broken hpast htests hbody hr⟩⟩)

/-- A loop that has come through whole rounds is in an iteration or has ended. -/
theorem stands_or_ended (hpast : l.Rounds e t n past)
    (h : e.replay t (.run (.loop l n) .done) ws = some q) :
    (∃ k before now, past ++ ws = before ++ now ∧ l.Rounds e t k before ∧ l.Stands e t k now q) ∨
      ∃ count r, q = .done r ∧ l.Ended e t (past ++ ws) count r := by
  induction hlen : ws.length using Nat.strongRecOn generalizing n past ws with
  | ind len ih =>
    rcases iteration_cases h with
      hstands | ⟨r, rfl, hended⟩ | ⟨now, asleep, awake, rest, rfl, hnow, hawake, hrest⟩
    · exact .inl ⟨n, past, ws, rfl, hpast, hstands⟩
    · obtain ⟨count, hcount⟩ := hended past hpast
      exact .inr ⟨count, r, rfl, hcount⟩
    · have hshorter : rest.length < len := by
        rw [← hlen]
        simp only [List.length_append, List.length_cons]
        omega
      have hnext := ih rest.length hshorter (hpast.more hnow hawake) hrest rfl
      rwa [List.append_assoc] at hnext

/-! ## Counting -/

theorem Tests.of_unasked {b : Except EngineError Bool} (h : l.Tests e t ws b)
    (hrule : l.rule ≠ .whileCondition) : b = .ok true := by
  cases h with
  | unasked => rfl
  | read hwhile => exact absurd hwhile hrule

theorem Rounds.lt_of_times {m : Nat} (h : l.Rounds e t n past) (hrule : l.rule = .times m)
    (hm : 0 < m) : n < m := by
  cases h with
  | none => exact hm
  | more _ hnow _ =>
    obtain ⟨-, -, hgoes⟩ := hnow
    exact hgoes m hrule

/-- A counted loop runs its body at most as often as it should, and less often only if the body
stops or fails. -/
theorem Ended.count_of_times {m : Nat} (h : l.Ended e t ws n r) (hrule : l.rule = .times m)
    (hm : 0 < m) : n ≤ m ∧ (r = .ok .proceed → n = m) := by
  have hrule' : l.rule ≠ .whileCondition := by
    rw [hrule]
    nofun
  cases h with
  | unmet _ htests | untold _ htests => exact nomatch htests.of_unasked hrule'
  | broken hpast _ _ hr => exact ⟨hpast.lt_of_times hrule hm, fun h => absurd h hr⟩
  | counted hpast _ _ htimes hle =>
    obtain rfl := LoopRule.times.inj (hrule.symm.trans htimes)
    have hlt := hpast.lt_of_times hrule hm
    exact ⟨hlt, fun _ => by omega⟩

/-- A loop without a count and a condition ends only as its body does. -/
theorem Ended.of_forever (h : l.Ended e t ws n r) (hrule : l.rule = .forever) :
    r ≠ .ok .proceed := by
  have hrule' : l.rule ≠ .whileCondition := by
    rw [hrule]
    nofun
  cases h with
  | unmet _ htests | untold _ htests => exact nomatch htests.of_unasked hrule'
  | broken _ _ _ hr => exact hr
  | counted _ _ _ htimes => exact nomatch hrule.symm.trans htimes

/-! ## Executions that run a loop -/

/-- An execution does what a loop asks for, whatever others do between its steps. -/
structure RunBy (e : Engine) (t : TaskId) (l : Loop)
    (p : Execution (Except EngineError Signal)) : Prop where
  /-- Iteration `n` begins with the step that stores `n` as the number of the iteration. -/
  numbered : ∀ n past begun, l.Rounds e t n past → ∃ q, e.replay t p (past ++ [begun]) = some q ∧
    q.Stores l.site.generation.number l.site.id indexKey (.ofNat n)
  /-- Between an iteration and the next one the loop sleeps for its interval. -/
  paced : ∀ n past now asleep, l.Rounds e t n past → l.Iteration e t n now →
    ∃ g, e.replay t p (past ++ now ++ [asleep]) =
      some (.pause (.time (asleep.after l.interval)) g)
  /-- Once its iterations are over, the loop has ended. -/
  ends : ∀ ws count r, l.Ended e t ws count r → e.replay t p ws = some (.done r)
  /-- At any time the loop has ended or is in an iteration. -/
  course : ∀ ws q, e.replay t p ws = some q →
    (∃ n past now, ws = past ++ now ∧ l.Rounds e t n past ∧ l.Stands e t n now q) ∨
      ∃ count r, q = .done r ∧ l.Ended e t ws count r

theorem runBy (e : Engine) (t : TaskId) (l : Loop) : l.RunBy e t (.run (.loop l 0) .done) where
  numbered n past begun hpast := by
    rw [hpast.replay]
    exact ⟨_, congrArg (Option.bind · _) (step e t begun l n), _, rfl⟩
  paced n past now asleep hpast hnow := by
    rw [List.append_assoc, hpast.replay, hnow.replay]
    exact ⟨_, rfl⟩
  ends _ _ _ h := h.replay
  course _ _ h := stands_or_ended .none h

end Loop

/-! ## The control blocks -/

/-- An execution reads something first and fails if that fails; `P` says how it goes on. -/
structure Attempt.Precedes (e : Engine) (t : TaskId) (a : Attempt α)
    (p : Execution (Except EngineError Signal))
    (P : α → Execution (Except EngineError Signal) → Prop) : Prop where
  fails : ∀ ws err, e.replay t (ExceptT.run a) ws = some (.done (.error err)) →
    e.replay t p ws = some (.done (.error err))
  goesOn : ∀ ws x, e.replay t (ExceptT.run a) ws = some (.done (.ok x)) →
    ∃ q, e.replay t p ws = some q ∧ P x q
  /-- Nothing else is done before it is read. -/
  first : ∀ ws q, e.replay t p ws = some q → (∃ b, e.replay t (ExceptT.run a) ws = some b) ∨
    ∃ ws₁ ws₂ x, ws = ws₁ ++ ws₂ ∧ e.replay t (ExceptT.run a) ws₁ = some (.done x)

theorem Attempt.precedes_bind (e : Engine) (t : TaskId) (a : Attempt α) {k : α → Attempt Signal}
    {P : α → Execution (Except EngineError Signal) → Prop} (hk : ∀ x, P x (ExceptT.run (k x))) :
    a.Precedes e t (ExceptT.run (a >>= k)) P where
  fails ws err h := Engine.replay_bind_of_some h _
  goesOn ws x h := ⟨_, Engine.replay_bind_of_some h _, hk x⟩
  first ws q h := by
    rcases Engine.replay_bind_cases h with ⟨b, hb, -, -⟩ | ⟨ws₁, ws₂, x, rfl, hx, -⟩
    · exact .inl ⟨b, hb⟩
    · exact .inr ⟨ws₁, ws₂, x, rfl, hx⟩

namespace Library

theorem withBody_of_some {env : Environment} {s body : Site}
    (h : s.inputBlock? env bodyInput = .ok (some body)) (k : Site → Attempt Signal) :
    withBody env s k = k body := by
  unfold withBody
  rw [h]
  rfl

/-- The loop of a block with a body: the pause is the one asked for, but not shorter than the loop
interval of the engine. -/
def loopOf (env : Environment) (s body : Site) (requested : Nat) (rule : LoopRule) : Loop :=
  ⟨s, body, max requested (env.settings.loopInterval * 1000000), rule⟩

/-- What the control blocks with loops do for a body. -/
structure LoopsPaced (e : Engine) (t : TaskId) (s body : Site) : Prop where
  /-- The body runs until it stops or fails. -/
  forever : (loopOf e.environment s body 0 .forever).RunBy e t
    (ExceptT.run (forever e.environment s))
  /-- The number is read once. The body runs so many times, if it neither stops nor fails. -/
  counted : (s.inputDouble e.environment "TIMES").Precedes e t
    (ExceptT.run (repeatTimes e.environment s)) fun x p =>
      (x.toInt64 ≤ 0 → p = .done (.ok .proceed)) ∧
      (0 < x.toInt64 →
        (loopOf e.environment s body 0 (.times x.toInt64.toNat)).RunBy e t p ∧
        ∀ ws count r,
          (loopOf e.environment s body 0 (.times x.toInt64.toNat)).Ended e t ws count r →
          count ≤ x.toInt64 ∧ (r = .ok .proceed → count = x.toInt64))
  /-- The condition is read before every iteration. Without one, the body does not run. -/
  conditional : if s.hasInput conditionInput then
      (loopOf e.environment s body 0 .whileCondition).RunBy e t
        (ExceptT.run (repeatWhile e.environment s))
    else ExceptT.run (repeatWhile e.environment s) = .done (.ok .proceed)
  /-- The interval is read once. -/
  scheduled : (inputDuration e.environment s "TIME").Precedes e t
    (ExceptT.run (schedule e.environment s)) fun requested p =>
      (loopOf e.environment s body requested .forever).RunBy e t p
  /-- Loops without a count and a condition end only as their body does. -/
  endless : ∀ requested ws count r,
    (loopOf e.environment s body requested .forever).Ended e t ws count r → r ≠ .ok .proceed
  /-- The pause is at least a tenth of a second. -/
  interval : ∀ requested rule,
    100000000 ≤ (loopOf e.environment s body requested rule).interval
  /-- The clock counts whole milliseconds, and a pause ends with the first one that it needs. -/
  slept : ∀ (w : World) (n : Nat), n ≤ (w.after n - w.clock) * 1000000 ∧
    (w.after n - w.clock) * 1000000 < n + 1000000
  /-- When time passes, it stops at the end of every pause. -/
  prompt : ∀ (w w' : World) (x : Timer), x ∈ w.timers → w.clock ≤ x.deadline →
    w.tick = some w' → w'.clock ≤ x.deadline

/-- The control blocks run their bodies the right number of times, at a bounded rate. -/
theorem loops_paced {t : TaskId} {s body : Site} (hsettings : e.settings.normalized = e.settings)
    (hbody : s.inputBlock? e.environment bodyInput = .ok (some body)) :
    LoopsPaced e t s body where
  forever := by
    unfold Library.forever
    rw [withBody_of_some hbody]
    exact Loop.runBy e t _
  counted := by
    unfold repeatTimes Site.inputInt
    rw [withBody_of_some hbody, bind_assoc]
    refine Attempt.precedes_bind e t _ fun x => ⟨fun hx => ?_, fun hx => ⟨?_, ?_⟩⟩
    · rw [pure_bind, if_pos hx]
      rfl
    · rw [pure_bind, if_neg (Int.not_le.2 hx)]
      exact Loop.runBy e t _
    · intro ws count r h
      obtain ⟨hle, hall⟩ := h.count_of_times rfl (by omega)
      refine ⟨by omega, fun hr => ?_⟩
      have := hall hr
      omega
  conditional := by
    unfold repeatWhile
    rw [withBody_of_some hbody]
    split
    · exact Loop.runBy e t _
    · rfl
  scheduled := by
    unfold schedule
    rw [withBody_of_some hbody]
    exact Attempt.precedes_bind e t _ fun requested => Loop.runBy e t _
  endless _ _ _ _ h := h.of_forever rfl
  interval requested rule := by
    have hleast : max e.settings.loopInterval minLoopInterval = e.settings.loopInterval :=
      congrArg Settings.loopInterval hsettings
    change 100000000 ≤ max requested (e.settings.loopInterval * 1000000)
    unfold minLoopInterval at hleast
    omega
  slept w n := by
    unfold World.after
    omega
  prompt _ _ _ hx hdue h := World.clock_tick_le hx hdue h

end Library

namespace Script

/-- A branch without a condition: it does nothing. -/
def branch : Block where
  id := "b"
  opcode := ⟨"control", "if"⟩
  shadow := false
  topLevel := false
  parent := some "a"
  next := none
  fields := []
  inputs := []
  mutation := none
  extra := []
  defined := true

/-- A block that runs the branch twice. -/
def twice : Block where
  id := "a"
  opcode := ⟨"control", "repeat"⟩
  shadow := false
  topLevel := true
  parent := none
  next := none
  fields := []
  inputs := [("TIMES", [.num (.int 1), .arr [.num (.int 4), .str "2"]]),
    ("SUBSTACK", [.num (.int 2), .str "b"])]
  mutation := none
  extra := []
  defined := true

def twiceSite : Site := ⟨⟨0, "main", "main", ⟨[twice, branch], []⟩⟩, twice, 0, ⟨0, some "main", none⟩⟩

def branchSite : Site := { twiceSite with block := branch, depth := 1 }

theorem replay_branch (t : TaskId) (w : World) :
    engine.replay t (ExceptT.run (Attempt.handle branchSite)) [w] = some (.done (.ok .proceed)) := by
  have hlookup : engine.lookup branchSite = .ok ⟨"if", .command Library.ifThen, []⟩ := by
    unfold Engine.lookup
    rfl
  rw [Engine.replay]
  change some ((ExceptT.run (engine.chainTurn [] branchSite)).bind (Engine.afterTurn .done)) = _
  unfold Engine.chainTurn
  rw [hlookup]
  rfl

end Script

/-- A block that runs an empty branch twice sleeps once. -/
theorem Library.loops_paced_of_empty_branch :
    (Script.engine.settings.normalized = Script.engine.settings ∧
      Script.twiceSite.inputBlock? Script.engine.environment bodyInput =
        .ok (some Script.branchSite)) ∧
    LoopsPaced Script.engine 1 Script.twiceSite Script.branchSite ∧
    ∀ w w' : World, w.clock + 100 ≤ w'.clock →
      (loopOf Script.engine.environment Script.twiceSite Script.branchSite 0 (.times 2)).Ended
        Script.engine 1 [w, w, w, w, w', w', w', w'] 2 (.ok .proceed) := by
  refine ⟨⟨by decide, rfl⟩, loops_paced (by decide) rfl, fun w w' hclock => ?_⟩
  have htests : (loopOf Script.engine.environment Script.twiceSite Script.branchSite 0
      (.times 2)).Tests Script.engine 1 [] (.ok true) :=
    .unasked (show LoopRule.times 2 ≠ .whileCondition by decide)
  have hgoes : ∀ n, LoopRule.times 2 = .times n → 0 + 1 < n := fun n hn => by
    obtain rfl := LoopRule.times.inj hn
    decide
  have hnow : (loopOf Script.engine.environment Script.twiceSite Script.branchSite 0
      (.times 2)).Iteration Script.engine 1 0 [w, w, w] :=
    .mk htests (Script.replay_branch 1 w) hgoes
  have hfirst := Loop.Rounds.more .none hnow hclock
  exact .counted hfirst htests (Script.replay_branch 1 w') rfl (Nat.le_refl 2)

end BlockEngine
