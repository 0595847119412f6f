import BlockEngine.Proofs.Loops
import BlockEngine.Proofs.Within
import Mathlib.Data.List.Destutter

/-!
# Watchers

A watcher takes samples of an input, one every poll interval. A sample that differs from the last
one that did is signalled on the event lock of the block; the block reacts, it keeps the sample and
starts its body.

* `WatchKind.changes` : the samples that are signalled, all of them but repetitions;
* `Watch.Round`, `Watch.Rounds` : one sample and all that follows from it; `Watch.Stands` : the
  round a watcher is in; `Watch.Ended` : all of a watcher, up to its end;
* `Watch.stands_or_ended` : there is nothing else a watcher does;
-/

namespace BlockEngine

variable {α β : Type} {e : Engine} {t : TaskId}

/-! ## Changes -/

namespace Watch

/-- Whether a sample differs from the last one that did; the first one of all does. -/
def changed (last : Option Json) (v : Json) : Bool := !((last.map v.same).getD false)

/-- The last sample that differed, after some more. -/
def latest (last : Option Json) : List Json → Option Json
  | [] => last
  | v :: vs => latest (if changed last v then some v else last) vs

/-- The samples that differ from the last one before them that did. -/
def changesAfter (last : Option Json) : List Json → List Json
  | [] => []
  | v :: vs => if changed last v then v :: changesAfter (some v) vs else changesAfter last vs

theorem latest_append (last : Option Json) (vs us : List Json) :
    latest last (vs ++ us) = latest (latest last vs) us := by
  induction vs generalizing last with
  | nil => rfl
  | cons v vs ih => exact ih _

theorem changesAfter_append (last : Option Json) (vs us : List Json) :
    changesAfter last (vs ++ us) = changesAfter last vs ++ changesAfter (latest last vs) us := by
  induction vs generalizing last with
  | nil => rfl
  | cons v vs ih => cases h : changed last v <;> simp [changesAfter, latest, h, ih]

end Watch

/-- Values that are not equal. -/
def Json.Differs (a b : Json) : Prop := b.same a = false

instance : DecidableRel Json.Differs := fun a b => inferInstanceAs (Decidable (b.same a = false))

/-- The samples of an input that count as changes: all but those equal to the one before. The values
of an input start from null, its truth is always told first. -/
def WatchKind.changes : WatchKind → List Json → List Json
  | .value, vs => (vs.destutter' Json.Differs .null).tail
  | .condition, vs => vs.destutter Json.Differs

theorem Watch.destutter'_eq (v : Json) (vs : List Json) :
    vs.destutter' Json.Differs v = v :: changesAfter (some v) vs := by
  induction vs generalizing v with
  | nil => rfl
  | cons x vs ih =>
    by_cases h : Json.Differs v x
    · rw [List.destutter'_cons_pos _ h, ih]
      have hx : changed (some v) x = true := congrArg Bool.not h
      simp [changesAfter, hx]
    · rw [List.destutter'_cons_neg _ h, ih]
      have hx : changed (some v) x = false := congrArg Bool.not (Bool.ne_false_iff.1 h)
      simp [changesAfter, hx]

theorem Watch.changes_eq (kind : WatchKind) (vs : List Json) :
    kind.changes vs = changesAfter (Engine.WatchKind.first kind) vs := by
  cases kind with
  | value => exact congrArg List.tail (destutter'_eq .null vs)
  | condition =>
    cases vs with
    | nil => rfl
    | cons v vs => exact destutter'_eq v vs

/-- A value is told when it is not null, then each time it is another one. -/
example : WatchKind.value.changes [.null, .bool true, .bool true, .bool false, .bool true] =
    [.bool true, .bool false, .bool true] := rfl

/-! ## What a watcher does -/

/-- A watcher: its block, the event lock of that, the input with what is compared, and the body. -/
structure Watch where
  site : Site
  lock : LockId
  input : String
  kind : WatchKind
  body : Site

namespace Watch

variable {x : Watch} {last : Option Json} {ws past now : List World} {v : Json} {vs more : List Json}
  {r : Except EngineError Signal} {q : Execution (Except EngineError Signal)} {w : World}

/-- What the task of a watcher works on. -/
def job (x : Watch) : Job := .watch x.site x.lock x.input x.kind

/-- The routine of a watcher, from the last sample on that differed. -/
def routine (x : Watch) (last : Option Json) : Routine :=
  .watch x.site x.lock x.input x.kind last

/-- The reaction of the block to a sample that is signalled. -/
def reaction (x : Watch) : Reaction := .keepAndRun x.site x.body

/-- The task that is started for the body in a state. -/
def started (x : Watch) (w : World) : List (TaskId × Job) :=
  w.startedFor (x.site, fun c => .chain (x.body.withContext c))

/-- The pause between two samples. -/
def pause (e : Engine) : Nat := e.settings.pollInterval * 1000000

/-- A state in which all is there that a watcher needs: its lock, on which only its block listens,
and the generation of that. -/
structure InPlace (x : Watch) (w : World) : Prop where
  held : ∃ y, w.locks.lock? x.lock = some y ∧ y.released = false
  heard : w.subscribed x.lock = [x.reaction]
  alive : w.isDestroyed x.site.generation.number = false

/-- The steps in which a sample is taken, and what it is. -/
def Reads (e : Engine) (t : TaskId) (x : Watch) (ws : List World) (r : Except EngineError Json) :
    Prop :=
  e.replay t (ExceptT.run (e.observe x.site x.input x.kind)) ws = some (.done r)

/-- The steps in which a sample is kept on the block. -/
def Keeps (e : Engine) (t : TaskId) (x : Watch) (ws : List World) (v : Json) : Prop :=
  e.replay t (Engine.keep x.site valueKey v) ws = some (.done ())

/-- A round up to its pause, with its sample. A sample like the last one that differed is passed
over. Any other one is signalled; the block keeps it and starts its body, once, in a task of its own,
and nobody else reacts. -/
inductive Round (e : Engine) (t : TaskId) (x : Watch) (last : Option Json) :
    List World → Json → Prop
  | passed {begun looked : World} {reading : List World} {v : Json} :
      x.Reads e t reading (.ok v) → changed last v = false →
      Round e t x last (begun :: looked :: reading) v
  | told {begun looked told starting : World} {reading keeping : List World} {v : Json} :
      x.Reads e t reading (.ok v) → changed last v = true → told.subscribed x.lock = [x.reaction] →
      x.Keeps e t keeping v →
      x.started starting =
        [(starting.taskCount, .chain (x.body.withContext (x.site.context.child starting.issued)))] →
      Round e t x last (begun :: looked :: (reading ++ told :: (keeping ++ [starting]))) v

/-- Whole rounds, each with the pause after it: a sleep that begins in one state and is over in a
state whose clock has reached the time for which it was set. -/
inductive Rounds (e : Engine) (t : TaskId) (x : Watch) : List World → List Json → Prop
  | none : Rounds e t x [] []
  | more {past now : List World} {vs : List Json} {v : Json} {asleep awake : World} :
      Rounds e t x past vs → x.Round e t (latest (Engine.WatchKind.first x.kind) vs) now v →
      asleep.after (pause e) ≤ awake.clock →
      Rounds e t x (past ++ (now ++ [asleep, awake])) (vs ++ [v])

/-- Where a round stands after some of its steps: its sample, once that has been told or passed over,
and what is next. -/
inductive Stands (e : Engine) (t : TaskId) (x : Watch) (last : Option Json) :
    List World → List Json → Execution (Except EngineError Signal) → Prop
  | due : Stands e t x last [] [] (.run (x.routine last) .done)
  /-- The next step looks at the lock. -/
  | looking {begun : World} {g : World → Execution (Except EngineError Signal)} :
      Stands e t x last [begun] [] (.act id g)
  /-- The sample is being taken. -/
  | reading {begun looked : World} {reading : List World} {p : Execution (Except EngineError Json)}
      {g : Except EngineError Json → Execution (Except EngineError Signal)} :
      e.replay t (ExceptT.run (e.observe x.site x.input x.kind)) reading = some p →
      (∀ r, p ≠ .done r) → Stands e t x last (begun :: looked :: reading) [] (p.bind g)
  /-- The next step signals the sample. -/
  | telling {begun looked : World} {reading : List World} {v : Json}
      {g : Nat → Execution (Except EngineError Signal)} :
      x.Reads e t reading (.ok v) → changed last v = true →
      Stands e t x last (begun :: looked :: reading) [] (.signal x.lock v g)
  /-- The sample has been signalled and is being kept. -/
  | keeping {begun looked told : World} {reading keeping : List World} {v : Json}
      {p : Execution Unit} {g : Unit → Execution (Except EngineError Signal)} :
      x.Reads e t reading (.ok v) → changed last v = true → told.subscribed x.lock = [x.reaction] →
      e.replay t (Engine.keep x.site valueKey v) keeping = some p → (∀ u, p ≠ .done u) →
      Stands e t x last (begun :: looked :: (reading ++ told :: keeping)) [v] (p.bind g)
  /-- The next step starts the body. -/
  | starting {begun looked told : World} {reading keeping : List World} {v : Json}
      {g : Option TaskId → Execution (Except EngineError Signal)} :
      x.Reads e t reading (.ok v) → changed last v = true → told.subscribed x.lock = [x.reaction] →
      x.Keeps e t keeping v →
      Stands e t x last (begun :: looked :: (reading ++ told :: keeping)) [v]
        ((Execution.spawnChain x.site x.body).bind g)
  /-- The next step reads the clock. -/
  | pausing {now : List World} {v : Json} {g : World → Execution (Except EngineError Signal)} :
      x.Round e t last now v → Stands e t x last now [v] (.act id g)
  /-- The watcher sleeps. -/
  | resting {now : List World} {asleep : World} {v : Json}
      {g : Unit → Execution (Except EngineError Signal)} :
      x.Round e t last now v →
      Stands e t x last (now ++ [asleep]) [v] (.pause (.time (asleep.after (pause e))) g)

/-- A whole watcher: whole rounds, and then a sample that can not be taken. -/
inductive Ended (e : Engine) (t : TaskId) (x : Watch) :
    List World → List Json → EngineError → Prop
  | failed {past reading : List World} {vs : List Json} {begun looked : World} {err : EngineError} :
      x.Rounds e t past vs → x.Reads e t reading (.error err) →
      Ended e t x (past ++ begun :: looked :: reading) vs err

/-! ### One round -/

/-- What is left of a round once its sample has been told or passed over. -/
def rest (e : Engine) (x : Watch) (last : Option Json) : Execution (Except EngineError Signal) :=
  .act id fun w => .pause (.time (w.after (pause e))) fun _ => .run (x.routine last) .done

/-- What is left of a round once its sample has been taken. -/
def afterLook (e : Engine) (x : Watch) (last : Option Json) :
    Except EngineError Json → Execution (Except EngineError Signal)
  | .ok v => if changed last v then .signal x.lock v fun _ => x.rest e (some v) else x.rest e last
  | .error err => .done (.error err)

/-- A round begins with a look at the lock. -/
theorem step (e : Engine) (t : TaskId) (w : World) (x : Watch) (last : Option Json) :
    e.step t w (.run (x.routine last) .done) = some (.act id fun w =>
      if ((w.locks.lock? x.lock).map (·.released)).getD true then .done (.ok .proceed)
      else (ExceptT.run (e.observe x.site x.input x.kind)).bind (x.afterLook e last), w) := by
  change some ((ExceptT.run (e.watchTurn x.site x.lock x.input x.kind last)).bind
    (Engine.afterTurn .done), w) = _
  congr 2
  unfold Engine.watchTurn
  change Execution.act _ _ = _
  congr 1
  funext w
  change (ExceptT.run (if ((w.locks.lock? x.lock).map (·.released)).getD true then
    (return .over .proceed : Attempt Turned) else _)).bind (Engine.afterTurn .done) = _
  split
  · rfl
  · change ((ExceptT.run (e.observe x.site x.input x.kind)).bind _).bind _ = _
    rw [Execution.bind_assoc]
    congr 1
    funext r
    match r with
    | .error err => rfl
    | .ok v =>
      obtain ⟨b, hb⟩ : ∃ b, (last.map v.same).getD false = b := ⟨_, rfl⟩
      simp only [ExceptT.bindCont, afterLook, changed, hb]
      cases b <;> rfl

/-- As long as the lock has not been released, the round goes on to the sample. -/
theorem step_looking (hw : x.InPlace w) (t : TaskId) (last : Option Json) :
    e.step t w (.act id fun w =>
      if ((w.locks.lock? x.lock).map (·.released)).getD true then .done (.ok .proceed)
      else (ExceptT.run (e.observe x.site x.input x.kind)).bind (x.afterLook e last)) =
      some ((ExceptT.run (e.observe x.site x.input x.kind)).bind (x.afterLook e last), w) := by
  obtain ⟨y, hy, hlive⟩ := hw.held
  change some ((if ((w.locks.lock? x.lock).map (·.released)).getD true then _ else _), _) = _
  rw [if_neg]
  · rfl
  · simp [hy, hlive]

/-- When a sample is signalled the block keeps it and starts its body, and nobody else reacts. -/
theorem step_telling (hs : w.view.Sound e) (hw : w.subscribed x.lock = [x.reaction]) (t : TaskId)
    (v : Json) (p : Execution α) :
    e.step t w (.signal x.lock v fun _ => p) =
      some ((Engine.keep x.site valueKey v).bind fun _ =>
        (Execution.spawnChain x.site x.body).bind fun _ => p, (w.deliver x.lock v).2) := by
  have hreactions : (w.deliver x.lock v).1.2 = [x.reaction] :=
    (World.reactions_deliver hs x.lock v).trans hw
  change some ((e.reactAll v (w.deliver x.lock v).1.2).bind _, _) = _
  rw [hreactions]
  change some ((((Engine.keep x.site valueKey v).bind fun _ => _).bind fun _ => _).bind _, _) = _
  simp only [Execution.bind_assoc]
  rfl

theorem started_of_inPlace (hw : x.InPlace w) : x.started w =
    [(w.taskCount, .chain (x.body.withContext (x.site.context.child w.issued)))] :=
  if_neg (by simp [hw.alive])

end Watch

/-! ## Limits around the lock of a watcher -/

variable {L : Limits} {l : LockId} {tab : String} {key key' : LockKey} {w w' : World}

/-- A sound state in which a lock, if it is there, is one of a tab and a key. -/
structure World.Places (e : Engine) (l : LockId) (tab : String) (key : LockKey) (w : World) :
    Prop where
  sound : w.view.Sound e
  lock : ∀ y, w.locks.lock? l = some y → y.tab = tab ∧ y.key = key.text

/-- All other locks may be signalled, so those of another key may. -/
theorem Limits.opens_of_ne (hfits : ∀ w, L.Fits w → w.Places e l tab key)
    (hsignals : ∀ l', l' ≠ l → L.Signals l') (hkey : key'.text ≠ key.text) : L.Opens key' where
  found w tab' l' hw hl' := hsignals l' fun h => by
    obtain ⟨y, hy, -, hykey, -⟩ := (hfits w hw).sound.locks.find?_spec hl'
    exact hkey (hykey.symm.trans ((hfits w hw).lock y (h ▸ hy)).2)
  across w l' hw hl' := hsignals l' fun h => by
    obtain ⟨y, hy, hykey, -⟩ := (hfits w hw).sound.locks.mem_acrossTabs.1 hl'
    exact hkey (hykey.symm.trans ((hfits w hw).lock y (h ▸ hy)).2)
  obtained w tab' owner hw hw' := hsignals _ fun h => by
    obtain ⟨y, hy, -, hykey, -⟩ := (hfits w hw).sound.locks.obtain_spec tab' owner key'.text
    have hy' : (w.withLocks (·.obtain tab' owner key'.text)).2.locks.lock?
        (w.withLocks (·.obtain tab' owner key'.text)).1 = some y := hy
    rw [h] at hy'
    exact hkey (hykey.symm.trans ((hfits _ hw').lock y hy').2)

/-- Keys of other kinds have other texts. -/
theorem LockKey.text_ne (h : key.word ≠ key'.word) : key.text ≠ key'.text := fun heq =>
  h (LockKey.word_eq_of_text heq).1

/-- Everything but a signal of one lock, which belongs to an event of a tab, and a watcher that
signals it. -/
def Limits.silent (e : Engine) (l : LockId) (tab block : String) : Limits where
  Fits := World.Places e l tab (.event block)
  Allows _ _ := True
  Signals l' := l' ≠ l
  Evaluates _ := True
  Runs r := ∀ s l' input kind last, r = .watch s l' input kind last → l' ≠ l
  Exempts _ := False

section

variable {block : String}

instance : BlockLimits (.silent e l tab block) where
  refl _ := trivial
  trans _ _ := trivial
  fresh _ := trivial
  modifyGeneration _ _ _ := trivial
  newTask _ _ _ := trivial
  wake _ _ := trivial
  modifyTask _ _ _ _ := trivial
  notifications _ _ := trivial
  obtain _ _ _ _ := trivial
  register _ _ _ := trivial
  close _ _ := trivial
  deliver _ _ _ := trivial
  settle _ _ _ := trivial
  evaluates _ := trivial
  runs h s l' input kind last hr := by
    rw [hr] at h
    cases h
  watches h := ⟨h _ _ _ _ _ rfl, fun _ _ _ _ _ _ hr => by cases hr; exact h _ _ _ _ _ rfl⟩

instance : SupervisorLimits (.silent e l tab block) where
  release _ _ := trivial
  releaseAll _ := trivial
  unsubscribe _ _ _ := trivial
  note _ _ _ := trivial
  declare _ _ _ _ := trivial
  once _ _ _ _ _ _ hr := nomatch hr
  newGeneration _ _ _ _ := trivial
  tabs _ _ := trivial
  turn _ _ := trivial

theorem Limits.opens_silent (hkey : key.word ≠ "event") : (Limits.silent e l tab block).Opens key :=
  opens_of_ne (fun _ h => h) (fun _ h => h)
    (show key.text ≠ LockKey.text (.event block) from LockKey.text_ne hkey)

/-- No block of the core library signals the lock of an event. -/
theorem Limits.suits_silent (s : Site) (o : Opcode) : (Limits.silent e l tab block).Suits s o := by
  have hwrite : ∀ id v, (Execution.writeVariable id v).Within (Limits.silent e l tab block) :=
    fun id => .writeVariable (opens_silent (by simp only [LockKey.word]; decide)) fun _ _ => trivial
  exact {
    keeps := .setValue s.generation (opens_silent (by simp only [LockKey.word]; decide)) valueKey
    sets := fun _ => hwrite _
    adds := fun _ _ => .look_bind fun _ _ => (hwrite _ _).bind fun _ => .done ()
    listens := fun _ _ _ _ _ _ => .change fun _ _ _ => trivial
    sends := fun _ _ => opens_silent (by simp only [LockKey.word]; decide)
    calls := fun _ _ => opens_silent (by simp only [LockKey.word]; decide)
    watches := fun _ _ _ _ _ _ => .atomically fun _ _ _ => trivial }

theorem Limits.binds_silent (he : e.HasCore) : (Limits.silent e l tab block).Binds e where
  strict _ h := h
  enters s := he.withinAt (suits_silent s _)
  reacts w l' v hw _ r hr :=
    Engine.within_react (fun s _ => (suits_silent s ⟨"", ""⟩).keeps)
      (fun _ _ _ => .writeVariable (opens_silent (by simp only [LockKey.word]; decide))
        fun _ _ => trivial)
      (World.ne_host_of_mem hw.sound hr) v

/-- No task but a watcher of the lock signals it. -/
theorem Limits.within_work_silent {j : Job} (hj : j.Coherent w.view)
    (hw : w.Places e l tab (.event block)) (hwatch : ∀ s input kind, j ≠ .watch s l input kind) :
    (e.work j).Within (Limits.silent e l tab block) := by
  refine Engine.within_work (fun s arguments request returns hbody => ?_)
    fun s l' input kind hjob => ?_
  · refine ⟨(suits_silent s ⟨"", ""⟩).keeps, fun h => ?_⟩
    subst hbody
    subst h
    obtain ⟨-, signature, calls, x, y, -, hy, -, -, -, hkey, -⟩ := hj
    have hne : LockKey.text (.event block) ≠ LockKey.text (.procedureReturn signature) :=
      LockKey.text_ne (by simp only [LockKey.word]; decide)
    exact hne ((hw.lock y hy).2.symm.trans hkey)
  · rintro _ _ _ _ _ hr rfl
    cases hr
    exact hwatch _ _ _ hjob

end

/-! ## The course of a watcher -/

namespace Watch

variable {x : Watch} {last : Option Json} {ws past now : List World} {v : Json} {vs more : List Json}
  {q : Execution (Except EngineError Signal)}

/-- What the steps of a watcher are held to. -/
abbrev limits (e : Engine) (x : Watch) : Limits := .silent e x.lock x.site.tab x.site.id

theorem told_observe (he : e.HasCore) {p : Execution (Except EngineError Json)}
    (hfit : e.Fitting t (x.limits e) (ExceptT.run (e.observe x.site x.input x.kind)) ws)
    (h : e.replay t (ExceptT.run (e.observe x.site x.input x.kind)) ws = some p) :
    e.told t x.lock (ExceptT.run (e.observe x.site x.input x.kind)) ws = [] :=
  Execution.Within.told_nil (Engine.within_observe x.site x.input x.kind) (Limits.binds_silent he)
    (fun h => h rfl) hfit h

theorem told_keep (he : e.HasCore) {p : Execution Unit}
    (hfit : e.Fitting t (x.limits e) (Engine.keep x.site valueKey v) ws)
    (h : e.replay t (Engine.keep x.site valueKey v) ws = some p) :
    e.told t x.lock (Engine.keep x.site valueKey v) ws = [] :=
  Execution.Within.told_nil ((Limits.suits_silent x.site ⟨"", ""⟩).keeps v) (Limits.binds_silent he)
    (fun h => h rfl) hfit h

/-- What the pause after a round has come to: it is not over, or the next round is due. -/
theorem rest_cases (hfit : e.Fitting t (x.limits e) (x.rest e last) ws)
    (h : e.replay t (x.rest e last) ws = some q) :
    e.told t x.lock (x.rest e last) ws = [] ∧ (ws = [] ∧ q = x.rest e last ∨
      ∃ asleep, ws = [asleep] ∧ q = .pause (.time (asleep.after (pause e))) fun _ =>
        .run (x.routine last) .done) ∨
      ∃ asleep awake rest, ws = [asleep, awake] ++ rest ∧ asleep.after (pause e) ≤ awake.clock ∧
        e.Fitting t (x.limits e) (.run (x.routine last) .done) rest ∧
        e.replay t (.run (x.routine last) .done) rest = some q ∧
        e.told t x.lock (x.rest e last) ws = e.told t x.lock (.run (x.routine last) .done) rest := by
  match ws with
  | [] => exact .inl ⟨rfl, .inl ⟨rfl, (Option.some.inj h).symm⟩⟩
  | [asleep] => exact .inl ⟨rfl, .inr ⟨asleep, rfl, (Option.some.inj h).symm⟩⟩
  | asleep :: awake :: rest =>
    obtain ⟨⟨p, w⟩, hstep, hrest⟩ := Option.bind_eq_some_iff.1 h
    obtain ⟨⟨p', w'⟩, hstep', hrest'⟩ := Option.bind_eq_some_iff.1 hrest
    obtain ⟨rfl, rfl⟩ := Prod.mk.inj (Option.some.inj hstep)
    obtain ⟨hawake, rfl⟩ := Engine.le_of_step_time hstep'
    refine .inr ⟨asleep, awake, rest, rfl, hawake, (hfit.tail hstep).tail hstep', hrest', ?_⟩
    rw [Engine.told_cons hstep, Engine.told_cons hstep']
    rfl

/-- What a round that is due has come to after some steps, and what these have told: the round is not
over, its sample can not be taken, or the next one is due after the pause. -/
inductive Comes (e : Engine) (t : TaskId) (x : Watch) (last : Option Json) :
    List World → Execution (Except EngineError Signal) → List Json → Prop
  | stands {ws : List World} {more : List Json} {q : Execution (Except EngineError Signal)} :
      x.Stands e t last ws more q → Comes e t x last ws q (changesAfter last more)
  | fails {begun looked : World} {reading : List World} {err : EngineError} :
      x.Reads e t reading (.error err) →
      Comes e t x last (begun :: looked :: reading) (.done (.error err)) []
  | next {now rest : List World} {v : Json} {asleep awake : World}
      {q : Execution (Except EngineError Signal)} :
      x.Round e t last now v → asleep.after (pause e) ≤ awake.clock →
      e.Fitting t (x.limits e) (.run (x.routine (latest last [v])) .done) rest →
      e.replay t (.run (x.routine (latest last [v])) .done) rest = some q →
      Comes e t x last (now ++ ([asleep, awake] ++ rest)) q (changesAfter last [v] ++
        e.told t x.lock (.run (x.routine (latest last [v])) .done) rest)

/-- What comes of a round once its sample has been told or passed over. -/
theorem Round.comes (hnow : x.Round e t last now v)
    (hfit : e.Fitting t (x.limits e) (x.rest e (latest last [v])) ws)
    (h : e.replay t (x.rest e (latest last [v])) ws = some q) :
    x.Comes e t last (now ++ ws) q
      (changesAfter last [v] ++ e.told t x.lock (x.rest e (latest last [v])) ws) := by
  rcases rest_cases hfit h with ⟨htold, ⟨rfl, rfl⟩ | ⟨asleep, rfl, rfl⟩⟩ |
    ⟨asleep, awake, rest, rfl, hawake, hfit, hrest, htold⟩
  · rw [htold, List.append_nil, List.append_nil]
    exact .stands (.pausing hnow)
  · rw [htold, List.append_nil]
    exact .stands (.resting hnow)
  · rw [htold]
    exact .next hnow hawake hfit hrest

/-- What comes of a round whose sample has been signalled. -/
theorem comes_of_told (he : e.HasCore) {begun looked told : World} {reading : List World}
    (hread : x.Reads e t reading (.ok v)) (hv : changed last v = true)
    (htold : told.subscribed x.lock = [x.reaction]) (hplace : ∀ w ∈ ws, x.InPlace w)
    (hfit : e.Fitting t (x.limits e) ((Engine.keep x.site valueKey v).bind fun _ =>
      (Execution.spawnChain x.site x.body).bind fun _ => x.rest e (some v)) ws)
    (h : e.replay t ((Engine.keep x.site valueKey v).bind fun _ =>
      (Execution.spawnChain x.site x.body).bind fun _ => x.rest e (some v)) ws = some q) :
    x.Comes e t last (begun :: looked :: (reading ++ told :: ws)) q
      (v :: e.told t x.lock ((Engine.keep x.site valueKey v).bind fun _ =>
        (Execution.spawnChain x.site x.body).bind fun _ => x.rest e (some v)) ws) := by
  have hchanges : changesAfter last [v] = [v] := if_pos hv
  rcases Engine.replay_bind_cases h with ⟨p, hp, hgoing, rfl⟩ | ⟨keeping, rest, u, rfl, hkeep, h⟩
  · rw [Engine.told_bind hp, told_keep he (hfit.of_bind hp) hp]
    exact hchanges ▸ .stands (.keeping hread hv htold hp hgoing)
  obtain ⟨hkeeping, hfit⟩ := hfit.append (Engine.replay_bind_of_some hkeep _)
  rw [Engine.told_bind_of_done hkeep, told_keep he (hkeeping.of_bind hkeep) hkeep]
  rcases rest with _ | ⟨starting, rest⟩
  · obtain rfl := Option.some.inj h
    rw [List.append_nil]
    exact hchanges ▸ .stands (.starting hread hv htold hkeep)
  · have hlatest : latest last [v] = some v := if_pos hv
    have hnow : x.Round e t last (begun :: looked :: (reading ++ told :: (keeping ++ [starting]))) v :=
      .told hread hv htold hkeep (started_of_inPlace (hplace starting (by simp)))
    have hfit : e.Fitting t (x.limits e) (x.rest e (some v)) rest := hfit.tail rfl
    have hcomes := hnow.comes (hlatest ▸ hfit) (hlatest ▸ h)
    rw [hlatest, hchanges] at hcomes
    change x.Comes e t last _ q (v :: ([] ++ e.told t x.lock (x.rest e (some v)) rest))
    simpa using hcomes

/-- What a round that is due comes to. -/
theorem comes (he : e.HasCore) (hplace : ∀ w ∈ ws, x.InPlace w)
    (hfit : e.Fitting t (x.limits e) (.run (x.routine last) .done) ws)
    (h : e.replay t (.run (x.routine last) .done) ws = some q) :
    x.Comes e t last ws q (e.told t x.lock (.run (x.routine last) .done) ws) := by
  rcases ws with _ | ⟨begun, _ | ⟨looked, ws⟩⟩
  · obtain rfl := Option.some.inj h
    exact .stands .due
  · have hbegin := step e t begun x last
    rw [Engine.replay_cons hbegin] at h
    obtain rfl := Option.some.inj h
    rw [Engine.told_cons hbegin]
    exact .stands .looking
  have hbegin := step e t begun x last
  have hlook := step_looking (e := e) (hplace looked (by simp)) t last
  rw [Engine.replay_cons hbegin, Engine.replay_cons hlook] at h
  rw [Engine.told_cons hbegin, Engine.told_cons hlook]
  have hfit := (hfit.tail hbegin).tail hlook
  rcases Engine.replay_bind_cases h with ⟨p, hp, hgoing, rfl⟩ | ⟨reading, ws, r, rfl, hr, h⟩
  · rw [Engine.told_bind hp, told_observe he (hfit.of_bind hp) hp]
    exact .stands (.reading hp hgoing)
  obtain ⟨hread, hfit⟩ := hfit.append (Engine.replay_bind_of_some hr _)
  rw [Engine.told_bind_of_done hr, told_observe he (hread.of_bind hr) hr]
  match r with
  | .error err =>
    obtain ⟨rfl, rfl⟩ := Engine.replay_of_done h
    rw [List.append_nil]
    exact .fails hr
  | .ok v =>
    change e.Fitting t (x.limits e) (x.afterLook e last (.ok v)) ws at hfit
    cases hv : changed last v with
    | false =>
      have hafter : x.afterLook e last (.ok v) = x.rest e last := if_neg (by simp [hv])
      have hlatest : latest last [v] = last := if_neg (by simp [hv])
      have hchanges : changesAfter last [v] = [] := if_neg (by simp [hv])
      have hnow : x.Round e t last (begun :: looked :: reading) v := .passed hr hv
      rw [hafter] at h hfit ⊢
      have hcomes := hnow.comes (hlatest.symm ▸ hfit) (hlatest.symm ▸ h)
      rw [hlatest, hchanges] at hcomes
      exact hcomes
    | true =>
      have hafter : x.afterLook e last (.ok v) = .signal x.lock v fun _ => x.rest e (some v) :=
        if_pos hv
      rw [hafter] at h hfit ⊢
      rcases ws with _ | ⟨told, ws⟩
      · obtain rfl := Option.some.inj h
        rw [List.append_nil]
        exact .stands (.telling hr hv)
      have htold : told.subscribed x.lock = [x.reaction] := (hplace told (by simp)).heard
      have htell := step_telling (e := e) (hfit _ List.mem_cons_self _ _ rfl).1.sound htold t v
        (x.rest e (some v))
      rw [Engine.replay_cons htell] at h
      have htells : (Execution.signal x.lock v fun _ => x.rest e (some v)).tells x.lock = [v] :=
        if_pos rfl
      rw [Engine.told_cons htell, htells]
      exact comes_of_told he hr hv htold (fun w hw => hplace w (by simp [hw])) (hfit.tail htell) h

/-- What a watcher has sampled before its first steps is nothing. -/
abbrev first (x : Watch) : Option Json := Engine.WatchKind.first x.kind

/-- A watcher that has come through whole rounds is in a round or has ended, and has told the samples
that differ. -/
theorem stands_or_ended (he : e.HasCore) (hpast : x.Rounds e t past vs)
    (hplace : ∀ w ∈ ws, x.InPlace w)
    (hfit : e.Fitting t (x.limits e) (.run (x.routine (latest x.first vs)) .done) ws)
    (h : e.replay t (.run (x.routine (latest x.first vs)) .done) ws = some q) :
    ∃ us, changesAfter x.first us = changesAfter x.first vs ++
        e.told t x.lock (.run (x.routine (latest x.first vs)) .done) ws ∧
      ((∃ before now whole more, past ++ ws = before ++ now ∧ us = whole ++ more ∧
        x.Rounds e t before whole ∧ x.Stands e t (latest x.first whole) now more q) ∨
      ∃ err, q = .done (.error err) ∧ x.Ended e t (past ++ ws) us err) := by
  induction hlen : ws.length using Nat.strongRecOn generalizing past vs ws with
  | ind len ih =>
    have hcomes := comes he hplace hfit h
    generalize htold : e.told t x.lock _ ws = ds at hcomes ⊢
    cases hcomes with
    | @stands _ more _ hstands =>
      exact ⟨vs ++ more, changesAfter_append .., .inl ⟨past, ws, vs, more, rfl, rfl, hpast, hstands⟩⟩
    | fails hread => exact ⟨vs, (List.append_nil _).symm, .inr ⟨_, rfl, .failed hpast hread⟩⟩
    | @next now rest v asleep awake _ hnow hawake hfits hrest =>
      rw [← latest_append] at hfits hrest
      have hshorter : rest.length < len := by
        rw [← hlen]
        simp only [List.length_append, List.length_cons]
        omega
      obtain ⟨us, htold, hcourse⟩ := ih rest.length hshorter (hpast.more hnow hawake)
        (fun w hw => hplace w (by simp [hw])) hfits hrest rfl
      refine ⟨us, ?_, by simpa using hcourse⟩
      rw [htold, changesAfter_append, latest_append, List.append_assoc]

theorem Stands.ne_done (h : x.Stands e t last ws more q) (r : Except EngineError Signal) :
    q ≠ .done r := by
  cases h with
  | @reading _ _ _ p _ _ hgoing | @keeping _ _ _ _ _ _ p _ _ _ _ _ hgoing =>
    cases p with
    | done a => exact absurd rfl (hgoing a)
    | _ => nofun
  | _ => nofun

/-- The course of the task of a watcher, with its samples: it is in a round, or a sample could not be
taken, which it reports, once, and then it has nothing left to do. -/
inductive Course (e : Engine) (t : TaskId) (x : Watch) :
    List World → List Json → Execution Unit → Prop
  | watching {past now : List World} {vs more : List Json}
      {p : Execution (Except EngineError Signal)} {k : Except EngineError Signal → Execution Unit} :
      x.Rounds e t past vs → x.Stands e t (latest x.first vs) now more p →
      Course e t x (past ++ now) (vs ++ more) (p.bind k)
  | failed {ws : List World} {vs : List Json} {err : EngineError} :
      x.Ended e t ws vs err → Course e t x ws vs (.change fun w => w.report x.site.tab err)
  | reported {ws : List World} {vs : List Json} {err : EngineError} {reporting : World} :
      x.Ended e t ws vs err → Course e t x (ws ++ [reporting]) vs (.done ())

theorem course (he : e.HasCore) (hplace : ∀ w ∈ ws, x.InPlace w) {q : Execution Unit}
    (hfit : e.Fitting t (x.limits e) (e.work x.job) ws) (h : e.replay t (e.work x.job) ws = some q) :
    ∃ vs, x.Course e t ws vs q ∧ e.told t x.lock (e.work x.job) ws = x.kind.changes vs := by
  have hwork : ∃ k, e.work x.job = (Execution.run (x.routine x.first) .done).bind k ∧
      (∀ err, k (.error err) = .change fun w => w.report x.site.tab err) := ⟨_, rfl, fun _ => rfl⟩
  obtain ⟨k, hwork, hk⟩ := hwork
  rw [hwork] at hfit h ⊢
  simp only [changes_eq]
  rcases Engine.replay_bind_cases h with ⟨p, hp, hgoing, rfl⟩ | ⟨ws, ws', r, rfl, hr, h⟩
  · obtain ⟨us, htold, hcourse⟩ := stands_or_ended he .none hplace (hfit.of_bind hp) hp
    rw [Engine.told_bind hp]
    rcases hcourse with ⟨before, now, whole, more, rfl, rfl, hbefore, hstands⟩ | ⟨err, rfl, -⟩
    · exact ⟨_, .watching hbefore hstands, htold.symm⟩
    · exact absurd rfl (hgoing _)
  · obtain ⟨hfit, hfit'⟩ := hfit.append (Engine.replay_bind_of_some hr k)
    obtain ⟨us, htold, hcourse⟩ := stands_or_ended he .none (fun w hw => hplace w (by simp [hw]))
      (hfit.of_bind hr) hr
    rw [Engine.told_bind_of_done hr]
    rcases hcourse with ⟨before, now, whole, more, -, -, -, hstands⟩ | ⟨err, hq, hended⟩
    · exact absurd rfl (hstands.ne_done r)
    obtain rfl := Execution.done.inj hq
    rw [hk] at h ⊢
    rcases ws' with _ | ⟨reporting, ws'⟩
    · obtain rfl := Option.some.inj h
      rw [List.append_nil]
      exact ⟨us, .failed hended, (List.append_nil _).trans htold.symm⟩
    · obtain ⟨rfl, rfl⟩ := Engine.replay_of_done h
      exact ⟨us, .reported hended, (List.append_nil _).trans htold.symm⟩

end Watch

end BlockEngine
