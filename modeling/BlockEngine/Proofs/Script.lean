import BlockEngine.Proofs.Interleaving

/-!
# Scripted runs

A script says who moves next, so that one run can be computed.

* `Script.Line` : one line of a script; `Machine.play` : the machine after it, if it can be played;
* `Run.of_playAll` : a script that can be played is a run.
-/

namespace BlockEngine

namespace Script

/-- A line of a script. -/
inductive Line where
  /-- A thread performs so many steps, fewer if it can not go on. -/
  | perform (t : TaskId) (steps : Nat)
  | begin (t : TaskId)
  | finish (t : TaskId)
  | leave (t : TaskId)
  /-- Some milliseconds pass. -/
  | pass (milliseconds : Nat)
  | appear
  | call (t : TaskId) (c : Call)
  | return (t : TaskId)
  | drop (t : TaskId)

/-- The thread that performs steps in a line. -/
def Line.mover? : Line → Option TaskId
  | .perform t _ => some t
  | _ => none

/-- An engine of the core blocks. -/
def engine : Engine where
  registry := (Registry.empty.registerAll Library.core).1
  settings := ⟨100, 20, 256⟩
  entities := none
  generalTab := "main"

/-- A block of a document, with the text of the members it has beside its opcode. -/
def block (id opcode members : String) : String :=
  "\"" ++ id ++ "\":\x7b\"opcode\":\"" ++ opcode ++ "\"," ++ members ++ "\x7d"

/-- The document of some blocks. -/
def document (blocks : List String) : String :=
  "\x7b\"target\":\x7b\"blocks\":\x7b" ++ ",".intercalate blocks ++ "\x7d\x7d\x7d"

/-- A tab that calls a procedure twice, with the texts 1 and 2. -/
def twoCalls : String :=
  let call (id text : String) := block id "procedures_call"
    ("\"topLevel\":true,\"mutation\":\x7b\"proccode\":\"p\",\"argumentids\":[\"a\"]\x7d," ++
      "\"inputs\":\x7b\"a\":[1,[10,\"" ++ text ++ "\"]]\x7d")
  document [
    block "d" "procedures_definition"
      ("\"topLevel\":true,\"next\":\"s\",\"mutation\":\x7b\"proccode\":\"p\"," ++
        "\"argumentids\":[\"a\"],\"argumentnames\":[\"x\"]\x7d"),
    block "s" "debug_print"
      "\"topLevel\":false,\"parent\":\"d\",\"inputs\":\x7b\"TEXT\":[2,\"r\"]\x7d",
    block "r" "argument_reporter_string_number"
      "\"topLevel\":false,\"parent\":\"s\",\"fields\":\x7b\"VALUE\":[\"x\",null]\x7d",
    call "1" "1", call "2" "2"]

end Script

namespace Machine

/-- A thread performs so many steps, fewer if it can not go on. -/
def performAll (e : Engine) (t : TaskId) : Nat → Machine → List Deed × Machine
  | 0, m => ([], m)
  | n + 1, m =>
    match m.threads[t]? with
    | none => ([], m)
    | some p =>
      match e.step t m.world p with
      | none => ([], m)
      | some (q, w) =>
        let (log, m') := performAll e t n ⟨w, m.threads.insert t q⟩
        (.performed t p m.world :: log, m')

/-- The job of a task that has not ended. -/
def liveJob? (m : Machine) (t : TaskId) : Option Job :=
  (m.world.task? t).bind fun r => if r.ended then none else r.job

/-- Whether a task stands for a caller. -/
def isCaller (m : Machine) (t : TaskId) : Bool :=
  ((m.world.task? t).map (·.job.isNone)).getD false

/-- Whether a thread has nothing left to do. -/
def isDone (m : Machine) (t : TaskId) : Bool :=
  match m.threads[t]? with
  | some (.done ()) => true
  | _ => false

/-- The machine after a line of a script. -/
def play (e : Engine) (m : Machine) : Script.Line → Option (List Deed × Machine)
  | .perform t n => some (m.performAll e t n)
  | .begin t => do
    let j ← m.liveJob? t
    if (m.threads[t]?).isNone then some ([], ⟨m.world, m.threads.insert t (e.work j)⟩) else none
  | .finish t => do
    let _ ← m.liveJob? t
    if m.isDone t then some ([], ⟨m.world.finish t, m.threads.erase t⟩) else none
  | .leave t => do
    let _ ← m.liveJob? t
    let p ← m.threads[t]?
    if isCancelled m.world t then some ([], ⟨leave m.world t p, m.threads.erase t⟩) else none
  | .pass ms => some ([], { m with world := { m.world with clock := m.world.clock + ms } })
  | .appear => some ([], { m with world := m.world.newCaller })
  | .call t c =>
    if m.isCaller t && (m.threads[t]?).isNone then
      some ([], ⟨m.world, m.threads.insert t (c.execution e)⟩)
    else none
  | .return t =>
    if m.isCaller t && m.isDone t then some ([], ⟨m.world, m.threads.erase t⟩) else none
  | .drop t => do
    let p ← m.threads[t]?
    if m.isCaller t then
      some ([.dropped t m.world], ⟨forsake m.world t p, m.threads.erase t⟩)
    else none

/-- The machine after a script. -/
def playAll (e : Engine) : Machine → List Script.Line → Option (List Deed × Machine)
  | m, [] => some ([], m)
  | m, l :: rest => do
    let (log, m') ← m.play e l
    let (log', m'') ← playAll e m' rest
    return (log ++ log', m'')

end Machine

/-! ## Scripts are runs -/

variable {e : Engine} {m m' : Machine} {log : List Deed} {t : TaskId}

namespace Machine

theorem isLive_of_liveJob? {j : Job} (h : m.liveJob? t = some j) : m.world.IsLive t j := by
  obtain ⟨r, hr, hj⟩ := Option.bind_eq_some_iff.1 h
  cases hend : r.ended with
  | true => simp [hend] at hj
  | false => exact ⟨r, hr, by simpa [hend] using hj, hend⟩

theorem isCaller_of_isCaller (h : m.isCaller t = true) : m.world.IsCaller t := by
  unfold isCaller at h
  cases hr : m.world.task? t with
  | none => simp [hr] at h
  | some r => exact ⟨r, hr, by simpa [hr] using h⟩

theorem threads_of_isDone (h : m.isDone t = true) : m.threads[t]? = some (.done ()) := by
  unfold isDone at h
  split at h
  · next hp => exact hp
  · cases h

end Machine

theorem Run.of_performAll (e : Engine) (t : TaskId) (n : Nat) (m : Machine) :
    Run e m (m.performAll e t n).1 (m.performAll e t n).2 := by
  induction n generalizing m with
  | zero => exact .refl
  | succ n ih =>
    unfold Machine.performAll
    split
    · exact .refl
    · next p hp =>
      split
      · exact .refl
      · next q w hstep => exact (Run.single (.perform hp hstep)).trans (ih _)

/-- A line in which no thread performs steps is a move. -/
theorem Move.of_play {l : Script.Line} (hl : l.mover? = none) (h : m.play e l = some (log, m')) :
    Move e m log m' := by
  cases l with
  | perform => cases hl
  | begin t =>
    obtain ⟨j, hj, h⟩ := Option.bind_eq_some_iff.1 h
    split at h
    · next hnone =>
      obtain ⟨rfl, rfl⟩ := Prod.mk.inj (Option.some.inj h)
      exact .begin (Machine.isLive_of_liveJob? hj) (Option.isNone_iff_eq_none.1 hnone)
    · cases h
  | finish t =>
    obtain ⟨j, hj, h⟩ := Option.bind_eq_some_iff.1 h
    split at h
    · next hdone =>
      obtain ⟨rfl, rfl⟩ := Prod.mk.inj (Option.some.inj h)
      exact .finish (Machine.isLive_of_liveJob? hj) (Machine.threads_of_isDone hdone)
    · cases h
  | leave t =>
    obtain ⟨j, hj, h⟩ := Option.bind_eq_some_iff.1 h
    obtain ⟨p, hp, h⟩ := Option.bind_eq_some_iff.1 h
    split at h
    · next hcancelled =>
      obtain ⟨rfl, rfl⟩ := Prod.mk.inj (Option.some.inj h)
      exact .leave (Machine.isLive_of_liveJob? hj) hcancelled hp
    · cases h
  | pass ms =>
    obtain ⟨rfl, rfl⟩ := Prod.mk.inj (Option.some.inj h)
    exact .reschedule ⟨rfl, rfl, rfl, rfl, rfl, Nat.le_add_right ..⟩
  | appear =>
    obtain ⟨rfl, rfl⟩ := Prod.mk.inj (Option.some.inj h)
    exact .appear
  | call t c =>
    rw [Machine.play] at h
    split at h
    · next hcall =>
      obtain ⟨hc, hnone⟩ := Bool.and_eq_true_iff.1 hcall
      obtain ⟨rfl, rfl⟩ := Prod.mk.inj (Option.some.inj h)
      exact .call c (Machine.isCaller_of_isCaller hc) (Option.isNone_iff_eq_none.1 hnone)
    · cases h
  | «return» t =>
    rw [Machine.play] at h
    split at h
    · next hreturn =>
      obtain ⟨hc, hdone⟩ := Bool.and_eq_true_iff.1 hreturn
      obtain ⟨rfl, rfl⟩ := Prod.mk.inj (Option.some.inj h)
      exact .return (Machine.isCaller_of_isCaller hc) (Machine.threads_of_isDone hdone)
    · cases h
  | drop t =>
    obtain ⟨p, hp, h⟩ := Option.bind_eq_some_iff.1 h
    split at h
    · next hc =>
      obtain ⟨rfl, rfl⟩ := Prod.mk.inj (Option.some.inj h)
      exact .drop (Machine.isCaller_of_isCaller hc) hp
    · cases h

theorem Run.of_play {l : Script.Line} (h : m.play e l = some (log, m')) : Run e m log m' := by
  cases hl : l.mover? with
  | none => exact .single (.of_play hl h)
  | some t =>
    cases l with
    | perform t n =>
      obtain ⟨rfl, rfl⟩ := Prod.mk.inj (Option.some.inj h)
      exact .of_performAll e t n m
    | _ => cases hl

/-- A script that can be played is a run. -/
theorem Run.of_playAll {ls : List Script.Line} (h : m.playAll e ls = some (log, m')) :
    Run e m log m' := by
  induction ls generalizing m log with
  | nil =>
    obtain ⟨rfl, rfl⟩ := Prod.mk.inj (Option.some.inj h)
    exact .refl
  | cons l rest ih =>
    obtain ⟨⟨log₁, m₁⟩, hplay, h⟩ := Option.bind_eq_some_iff.1 h
    obtain ⟨⟨log₂, m₂⟩, hrest, h⟩ := Option.bind_eq_some_iff.1 h
    obtain ⟨rfl, rfl⟩ := Prod.mk.inj (Option.some.inj h)
    exact (Run.of_play hplay).trans (ih hrest)

/-- A script whose end has been computed to be like `f`. -/
theorem Run.of_playAll_any (ls : List Script.Line) {f : List Deed → Machine → Bool}
    (h : ((m.playAll e ls).any fun r => f r.1 r.2) = true) :
    ∃ log m', Run e m log m' ∧ f log m' = true := by
  cases hplay : m.playAll e ls with
  | none => simp [hplay] at h
  | some r => exact ⟨r.1, r.2, .of_playAll hplay, by simpa [hplay] using h⟩

end BlockEngine
