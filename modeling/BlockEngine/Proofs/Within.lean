import BlockEngine.Proofs.Clearing
import BlockEngine.Proofs.Listening
import BlockEngine.Proofs.Loops

/-!
# Runs within limits

A thread stays within limits as long as the blocks that it enters do.

* `Conducted.home_of_enters` : who enters a block acts for its generation;
* `Limits.once`, `Run.caller_enters` : callers enter no blocks but those that run once;
* `Limits.Governs` : limits that hold the engine in a run, but for the blocks that are entered;
* `Run.within` : what the threads of a run have to do is within the limits;
* `MoveLimits`, `Run.allows` : what a run comes to is allowed, if all of its steps are.
-/

namespace BlockEngine

variable {α β : Type} {e : Engine} {t : TaskId} {s : Site} {v : View} {w w' : World}
  {log log₀ ds : List Deed} {m m' : Machine} {capacity : Nat}

/-! ## Who enters a block -/

/-- A composition enters a block in its first part or, after the end of that, in its second. -/
theorem Execution.Enters.of_bind {p : Execution α} {k : α → Execution β}
    (h : (p.bind k).Enters s) : p.Enters s ∨ ∃ a, p = .done a ∧ (k a).Enters s := by
  cases p with
  | done a => exact .inr ⟨a, rfl, h⟩
  | evaluate s' g => cases h; exact .inl .evaluate
  | run r g => cases h with | chain hnew => exact .inl (.chain hnew)
  | act | pause | signal => cases h

/-- Who enters a block acts for its generation. -/
theorem Stands.home_of_enters {Q : Stage → View → α → Prop} {γ : Stage} {σ : Stance}
    {p : Execution α} (h : Stands e t Q γ σ v p) (hs : p.Enters s) :
    γ.home = some s.generation := by
  cases h with
  | free h =>
    cases hs with
    | evaluate =>
      cases h with
      | evaluate hhome => exact hhome
    | chain =>
      cases h with
      | run hhome _ hr => exact hhome.trans (congrArg some hr.symm)
  | dozing | enrolled => cases hs
  | @asked _ a due left bodies k hpair hr =>
    cases left with
    | nil =>
      change ((ExceptT.run (Library.heard ..)).bind k).Enters s at hs
      unfold Library.heard at hs
      split at hs <;> cases hs
    | cons r rest =>
      obtain ⟨d, arguments, returns, rfl⟩ := (hr r List.mem_cons_self).runBody_of_paired hpair
      cases hs

theorem Carries.home_of_enters {ws : List World} {job : Option Job} {γ : Stage} {σ : Stance}
    {p : Execution Unit} (h : Carries e t ws v job γ σ p) (hs : p.Enters s) :
    γ.home = some s.generation := by
  cases h with
  | plain _ h => exact h.home_of_enters hs
  | @keeping b arguments kept rest request returns γ₀ _ _ q _ hhome h =>
    obtain hq | ⟨a, rfl, hs⟩ := (Execution.bind_assoc q _ _ ▸ hs).of_bind
    · exact h.home_of_enters hq
    · obtain ⟨-, rfl⟩ := h.of_done
      cases rest with
      | nil =>
        obtain hs | ⟨_, _, hs⟩ := hs.of_bind
        · change (e.bodyStatements b).Enters s at hs
          unfold Engine.bodyStatements at hs
          split at hs
          · next first hfirst =>
            cases hs with
            | chain => rw [Site.generation_next? hfirst]; exact hhome.home
          · cases hs
        · cases hs
      | cons => cases hs
  | body h =>
    obtain hq | ⟨_, _, hs⟩ := hs.of_bind
    · exact h.home_of_enters hq
    · cases hs
  | replied => cases hs

theorem Conducted.home_of_enters {φ : TaskId → Stage} {ψ : TaskId → Stance}
    (hc : Conducted e log m φ ψ) {p : Execution Unit} (hp : m.threads[t]? = some p)
    (hs : p.Enters s) : ∃ r, m.world.view.tasks t = some r ∧ (φ t).Fits r.job ∧
      (φ t).home = some s.generation := by
  obtain ⟨r, hr, -, hfits, hcarries⟩ := (hc.task t).carries p hp
  exact ⟨r, hr, hfits, hcarries.home_of_enters hs⟩

/-! ## Callers -/

/-- What callers run: blocks that run once, one by one. They signal no locks and evaluate nothing. -/
def Limits.once : Limits where
  Fits _ := True
  Allows _ _ := True
  Signals _ := False
  Evaluates _ := False
  Runs r := ∃ s, r = .chain [] s ∧ Library.isOnce s.block.opcode = true
  Exempts _ := False

instance : SupervisorLimits .once where
  refl _ := trivial
  trans _ _ := trivial
  fresh _ := trivial
  modifyGeneration _ _ _ := trivial
  newTask _ _ _ := trivial
  wake _ _ := trivial
  modifyTask _ _ _ _ := trivial
  notifications _ _ := trivial
  release _ _ := trivial
  releaseAll _ := trivial
  unsubscribe _ _ _ := trivial
  note _ _ _ := trivial
  declare _ _ _ _ := trivial
  once h := ⟨_, rfl, h⟩
  newGeneration _ _ _ _ := trivial
  tabs _ _ := trivial
  turn _ _ := trivial

theorem Execution.Acts.within {L : Limits} {W : Pause → Prop} {R : World → World → Prop}
    {p : Execution α} (h : p.Acts W R) (hR : ∀ w w', R w w' → L.Allows w w') : p.Within L := by
  induction h with
  | done a => exact .done a
  | act hf _ ih => exact .act (fun w _ _ => hR w _ (hf w)) fun w _ _ => ih w
  | pause _ _ ih => exact .pause ih

/-- A caller goes on like that: what it runs are hats, and these only act. -/
theorem Execution.Within.step_once (he : e.HasCore) {p q : Execution α} (hp : p.Within .once)
    (hstep : e.step t w p = some (q, w')) : q.Within .once := by
  cases hp with
  | ends => cases hstep
  | act _ hk =>
    obtain ⟨rfl, rfl⟩ := Prod.mk.inj (Option.some.inj hstep)
    exact hk w trivial trivial
  | pause hk =>
    obtain ⟨r, -, rfl, rfl⟩ := Engine.step_pause hstep
    exact hk r
  | signal hl => exact hl.elim
  | evaluate hs => exact hs.elim
  | @run r k hr hk =>
    obtain ⟨s, rfl, honce⟩ := hr
    obtain ⟨rfl, rfl⟩ := Prod.mk.inj (Option.some.inj hstep)
    obtain ⟨x, hx, hturn⟩ := he.turn_hat (he.isHat_of_once honce) (R := World.Stays)
    change ((ExceptT.run (e.chainTurn [] s)).bind _).Within .once
    rw [hturn]
    exact ((hx fun _ => False).within fun _ _ _ => trivial).bind fun _ => hk _
  | exempt hx => exact hx.elim

/-- What a thread has to do after a move: the same as before, what a step has left, a job or a call. -/
theorem Move.origin (hmove : Move e m ds m') {p : Execution Unit} (hp : m'.threads[t]? = some p) :
    m.threads[t]? = some p ∨
    (∃ q, m.threads[t]? = some q ∧ ds = [.performed t q m.world] ∧
      e.step t m.world q = some (p, m'.world)) ∨
    (∃ j, m.world.IsLive t j ∧ m.threads[t]? = none ∧ p = e.work j) ∨
    ∃ c, m.world.IsCaller t ∧ p = Call.execution e c := by
  have herased : ∀ {u : TaskId}, m'.threads = m.threads.erase u → m.threads[t]? = some p :=
    fun hthreads => by
      rw [hthreads, threads_erase] at hp
      split at hp
      · cases hp
      · exact hp
  cases hmove with
  | perform hq hstep =>
    rw [threads_insert] at hp
    split at hp
    · next htu =>
      subst htu
      obtain rfl := Option.some.inj hp
      exact .inr (.inl ⟨_, hq, rfl, hstep⟩)
    · exact .inl hp
  | begin hlive hnone =>
    rw [threads_insert] at hp
    split at hp
    · next htu =>
      subst htu
      exact .inr (.inr (.inl ⟨_, hlive, hnone, (Option.some.inj hp).symm⟩))
    · exact .inl hp
  | call c hcaller =>
    rw [threads_insert] at hp
    split at hp
    · next htu =>
      subst htu
      exact .inr (.inr (.inr ⟨c, hcaller, (Option.some.inj hp).symm⟩))
    · exact .inl hp
  | finish | leave | «return» | drop => exact .inl (herased rfl)
  | leaveEarly | reschedule | appear => exact .inl hp

/-- The job of a task, ended or not. -/
def World.job? (w : World) (t : TaskId) : Option Job := (w.task? t).bind (·.job)

/-- What a task stands for never changes. -/
theorem World.standing_job {r : TaskRecord} (hle : w.view ≤ w'.view) (hr : w.task? t = some r) :
    ∃ r', w'.task? t = some r' ∧ r'.job = r.job := by
  obtain ⟨x, hx, hjob, -⟩ := hle.task t r.standing (congrArg (Option.map _) hr)
  obtain ⟨r', hr', rfl⟩ := Option.map_eq_some_iff.1 hx
  exact ⟨r', hr', hjob⟩

theorem World.job?_of_le {j : Job} (hle : w.view ≤ w'.view) (h : w.job? t = some j) :
    w'.job? t = some j := by
  obtain ⟨r, hr, hj⟩ := Option.bind_eq_some_iff.1 h
  obtain ⟨r', hr', hjob⟩ := World.standing_job hle hr
  exact Option.bind_eq_some_iff.2 ⟨r', hr', hjob.trans hj⟩

/-- The job that a task has later it has now, if it is there. -/
theorem World.job_eq_of_le {r : TaskRecord} {j : Job} (hle : w.view ≤ w'.view)
    (hr : w.task? t = some r) (hj : w'.job? t = some j) : r.job = some j := by
  obtain ⟨r', hr', hjob⟩ := World.standing_job hle hr
  obtain ⟨r'', hr'', hrj⟩ := Option.bind_eq_some_iff.1 hj
  obtain rfl := Option.some.inj (hr'.symm.trans hr'')
  exact hjob.symm.trans hrj

theorem World.IsLive.job? {j : Job} (h : w.IsLive t j) : w.job? t = some j := by
  obtain ⟨r, hr, hj, -⟩ := h
  exact Option.bind_eq_some_iff.2 ⟨r, hr, hj⟩

theorem World.IsCaller.job? (h : w.IsCaller t) : w.job? t = none := by
  obtain ⟨r, hr, hj⟩ := h
  unfold World.job?
  rw [hr]
  exact hj

/-- Whoever is a caller later and has a thread now is one now. -/
theorem Conducted.isCaller_of_le {φ : TaskId → Stage} {ψ : TaskId → Stance}
    (hc : Conducted e log m φ ψ) (hle : m.world.view ≤ w'.view) {p : Execution Unit}
    (hp : m.threads[t]? = some p) (hcaller : w'.IsCaller t) : m.world.IsCaller t := by
  obtain ⟨x, hx, -⟩ := (hc.task t).carries p hp
  obtain ⟨r, hr, -⟩ := Option.map_eq_some_iff.1 hx
  obtain ⟨r', hr', hjob⟩ := World.standing_job hle hr
  obtain ⟨y, hy, hyjob⟩ := hcaller
  obtain rfl := Option.some.inj (hr'.symm.trans hy)
  exact ⟨r, hr, hjob.symm.trans hyjob⟩

/-- What a caller has to do stays like that. -/
theorem Run.caller_once (he : e.HasCore) (hrun : Run e (.start capacity) log m)
    (hcaller : m.world.IsCaller t) {p : Execution Unit} (hp : m.threads[t]? = some p) :
    p.Within .once := by
  induction hrun generalizing p with
  | refl =>
    change (∅ : Std.ExtTreeMap TaskId (Execution Unit))[t]? = some p at hp
    simp at hp
  | @move log ds m₁ m₂ hrun hmove ih =>
    obtain ⟨φ, ψ, hc⟩ := Conducted.run (Engine.orderly_of_core he) hrun
    obtain ⟨φ', ψ', hpass, -⟩ := hc.move (Engine.orderly_of_core he) hmove
    have hle := hpass.le hc.sound
    rcases hmove.origin hp with hsame | ⟨q, hq, -, hstep⟩ | ⟨j, hlive, -, -⟩ | ⟨c, -, rfl⟩
    · exact ih (hc.isCaller_of_le hle hsame hcaller) hsame
    · exact (ih (hc.isCaller_of_le hle hq hcaller) hq).step_once he hstep
    · exact nomatch (World.job?_of_le hle hlive.job?).symm.trans hcaller.job?
    · exact Supervisor.within_execution c

/-- A caller enters no blocks but those that run once. -/
theorem Run.caller_enters (he : e.HasCore) (hrun : Run e (.start capacity) log m)
    (hcaller : m.world.IsCaller t) {p : Execution Unit} (hp : m.threads[t]? = some p)
    (hs : p.Enters s) : Library.isOnce s.block.opcode = true := by
  have honce := hrun.caller_once he hcaller hp
  cases hs with
  | evaluate =>
    generalize hq : Execution.evaluate s _ = q at honce
    cases honce with
    | evaluate h => exact h.elim
    | exempt h => exact h.elim
    | _ => cases hq
  | chain =>
    generalize hq : Execution.run (.chain _ s) _ = q at honce
    cases honce with
    | run h =>
      cases hq
      obtain ⟨s', hs', honce⟩ := h
      cases hs'
      exact honce
    | exempt h => exact h.elim
    | _ => cases hq

/-- Reactions are those of blocks. -/
theorem World.ne_host_of_mem (hs : w.view.Sound e) {l : LockId} {x : Json} {r : Reaction}
    (hr : r ∈ (w.locks.deliver l x).1.2) (name : String) (act : HostAct) : r ≠ .host name act := by
  rintro rfl
  rw [World.reactions_deliver hs] at hr
  obtain ⟨y, hy, sub, hmem, hreaction⟩ := World.mem_subscribed.1 hr
  obtain ⟨-, hcoherent⟩ := hs.subscribed l y hy sub hmem
  rw [hreaction] at hcoherent
  exact hcoherent

/-! ## Runs -/

variable {L : Limits} {X : TaskId → Prop}

/-- Limits that hold what happens between two machines, but for the tasks `X`: no part of an
execution is exempt, all states fit, and within the limits are the blocks entered, the reactions
to locks that may be signalled and the jobs of the tasks. -/
structure Limits.Governs (L : Limits) (e : Engine) (X : TaskId → Prop) (m : Machine)
    (log : List Deed) (m' : Machine) : Prop where
  strict : ∀ {β : Type} (x : Execution β), ¬ L.Exempts x
  fits : ∀ log₁ m₁ log₂, Run e m log₁ m₁ → Run e m₁ log₂ m' → L.Fits m₁.world
  enters : ∀ t p w s, .performed t p w ∈ log → ¬ X t → p.Enters s → e.WithinAt L s
  reacts : ∀ w l v, L.Fits w → L.Signals l → ∀ r ∈ (w.locks.deliver l v).1.2, (e.react v r).Within L
  works : ∀ t j, ¬ X t → m'.world.job? t = some j → (e.work j).Within L

/-- A step of a thread that is within the limits. -/
def Deed.IsWithin (e : Engine) (L : Limits) (X : TaskId → Prop) : Deed → Prop
  | .performed t p w => ¬ X t → p.Within L ∧ ∀ q w', e.step t w p = some (q, w') → L.Allows w w'
  | .dropped .. => True

/-- A thread performs a step of what it has to do, in the state there is. -/
theorem Move.of_performed (hmove : Move e m ds m') {p : Execution Unit}
    (hd : .performed t p w ∈ ds) : m.threads[t]? = some p ∧ w = m.world := by
  cases hmove with
  | perform hp =>
    obtain ⟨rfl, rfl, rfl⟩ := Deed.performed.inj (List.mem_singleton.1 hd)
    exact ⟨hp, rfl⟩
  | drop => cases List.mem_singleton.1 hd
  | _ => cases hd

/-- A move keeps the threads within limits, and so is its step, unless what comes next is exempt. -/
theorem Move.within [BlockLimits L] [SupervisorLimits L] (hmove : Move e m ds m')
    (hfits : L.Fits m.world) (hfits' : L.Fits m'.world)
    (henters : ∀ t p w s, .performed t p w ∈ ds → ¬ X t → p.Enters s → e.WithinAt L s)
    (hreacts : ∀ t l v k w, .performed t (.signal l v k) w ∈ ds → L.Signals l →
      ∀ r ∈ (w.locks.deliver l v).1.2, (e.react v r).Within L)
    (hworks : ∀ t j, ¬ X t → m.world.IsLive t j → (e.work j).Within L)
    (hplain : ∀ t p w, .performed t p w ∈ ds → ¬ X t → p.Plain L)
    (hthreads : ∀ t p, ¬ X t → m.threads[t]? = some p → p.Within L) :
    (∀ t p, ¬ X t → m'.threads[t]? = some p → p.Within L) ∧ ∀ d ∈ ds, d.IsWithin e L X := by
  have hnext : ∀ t q p w, ¬ X t → ds = [.performed t q m.world] →
      e.step t m.world q = some (p, w) → w = m'.world → L.Allows m.world w ∧ p.Within L := by
    rintro t q p _ hX rfl hstep rfl
    refine (hplain t q _ (List.mem_singleton_self _) hX).step hstep hfits hfits' (fun s => ?_)
      fun l v k hq => ?_
    · exact henters t q _ s (List.mem_singleton_self _) hX
    · exact hreacts t l v k _ (hq ▸ List.mem_singleton_self _)
  refine ⟨fun t p hX hp => ?_, fun d hd => ?_⟩
  · rcases hmove.origin hp with hsame | ⟨q, -, hds, hstep⟩ | ⟨j, hlive, -, rfl⟩ | ⟨c, -, rfl⟩
    · exact hthreads t p hX hsame
    · exact (hnext t q p _ hX hds hstep rfl).2
    · exact hworks t j hX hlive
    · exact Supervisor.within_execution c
  · cases hmove with
    | @perform t q p w hq hstep =>
      obtain rfl := List.mem_singleton.1 hd
      refine fun hX => ⟨hthreads t q hX hq, fun p' w' hstep' => ?_⟩
      obtain ⟨-, rfl⟩ := Prod.mk.inj (Option.some.inj (hstep.symm.trans hstep'))
      exact (hnext t q p w hX rfl hstep rfl).1
    | drop =>
      obtain rfl := List.mem_singleton.1 hd
      trivial
    | _ => cases hd

/-- What the threads of a run have to do stays within limits that govern it, and so does every step. -/
theorem Run.within [BlockLimits L] [SupervisorLimits L] (he : e.Orderly) {φ : TaskId → Stage}
    {ψ : TaskId → Stance} (hc : Conducted e log₀ m φ ψ) (hrun : Run e m log m')
    (hgoverns : L.Governs e X m log m')
    (hstart : ∀ t p, ¬ X t → m.threads[t]? = some p → p.Within L) :
    (∀ t p, ¬ X t → m'.threads[t]? = some p → p.Within L) ∧ ∀ d ∈ log, d.IsWithin e L X := by
  induction hrun with
  | refl => exact ⟨hstart, nofun⟩
  | @move log ds m₁ m₂ hrun hmove ih =>
    obtain ⟨φ₁, ψ₁, hc₁, -⟩ := hc.extend he hrun
    obtain ⟨φ₂, ψ₂, hpass, -⟩ := hc₁.move he hmove
    have hle := hpass.le hc₁.sound
    obtain ⟨hthreads, hdeeds⟩ := ih {
      strict := hgoverns.strict
      fits := fun log₁ m₀ log₂ h₁ h₂ => hgoverns.fits _ m₀ _ h₁ (h₂.move hmove)
      enters := fun t p w s hd => hgoverns.enters t p w s (List.mem_append_left _ hd)
      reacts := hgoverns.reacts
      works := fun t j hX hj => hgoverns.works t j hX (World.job?_of_le hle hj) }
    have hfits₁ := hgoverns.fits _ m₁ _ hrun (Run.single hmove)
    have hfits₂ := hgoverns.fits _ m₂ _ (hrun.move hmove) .refl
    obtain ⟨hthreads', hdeeds'⟩ := hmove.within hfits₁ hfits₂
      (fun t p w s hd => hgoverns.enters t p w s (List.mem_append_right _ hd))
      (fun t l v k w hd => hgoverns.reacts w l v ((hmove.of_performed hd).2 ▸ hfits₁))
      (fun t j hX hlive => hgoverns.works t j hX (World.job?_of_le hle hlive.job?))
      (fun t p w hd hX => (hthreads t p hX (hmove.of_performed hd).1).plain_or_exempt.resolve_right
        fun ⟨_, x, _, hx, _⟩ => hgoverns.strict x hx) hthreads
    exact ⟨hthreads', fun d hd => (List.mem_append.1 hd).elim (hdeeds d) (hdeeds' d)⟩

/-- Limits that allow what happens between the steps of threads: tasks end, callers drop their calls
and appear, and time passes. -/
class MoveLimits (L : Limits) : Prop extends BasicLimits L where
  finish (w : World) (t : TaskId) : L.Allows w (w.finish t)
  forsake (w : World) (t : TaskId) (p : Execution Unit) : L.Allows w (Machine.forsake w t p)
  reschedule {w w' : World} : w.Rescheduled w' → L.Allows w w'
  newCaller (w : World) : L.Allows w w.newCaller

/-- What a move comes to is allowed, if its step is. -/
theorem Move.allows [MoveLimits L] (hmove : Move e m ds m')
    (hsteps : ∀ t p w q w', .performed t p w ∈ ds → e.step t w p = some (q, w') → L.Allows w w') :
    L.Allows m.world m'.world := by
  cases hmove with
  | perform _ hstep => exact hsteps _ _ _ _ _ (List.mem_singleton_self _) hstep
  | begin | call | «return» => exact BasicLimits.refl _
  | finish | leaveEarly => exact MoveLimits.finish _ _
  | leave => exact BasicLimits.trans (MoveLimits.forsake _ _ _) (MoveLimits.finish _ _)
  | drop => exact MoveLimits.forsake _ _ _
  | reschedule h => exact MoveLimits.reschedule h
  | appear => exact MoveLimits.newCaller _

/-- What a run comes to is allowed, if all of its steps are. -/
theorem Run.allows [MoveLimits L] (hrun : Run e m log m')
    (hsteps : ∀ t p w q w', .performed t p w ∈ log → e.step t w p = some (q, w') →
      L.Allows w w') : L.Allows m.world m'.world := by
  induction hrun with
  | refl => exact BasicLimits.refl _
  | @move log ds m₁ m₂ hrun hmove ih =>
    exact BasicLimits.trans
      (ih fun t p w q w' hd => hsteps t p w q w' (List.mem_append_left _ hd))
      (hmove.allows fun t p w q w' hd => hsteps t p w q w' (List.mem_append_right _ hd))

/-! ## What threads have done, and told -/

/-- The value that the next step of an execution signals on a lock, if it does so. -/
def Execution.tells (l : LockId) : Execution α → List Json
  | .signal l' v _ => if l' = l then [v] else []
  | _ => []

/-- The values that are signalled on a lock in a deed. -/
def Deed.tells (l : LockId) : Deed → List Json
  | .performed _ p _ => p.tells l
  | .dropped .. => []

/-- The steps that a task has performed: what it had to do, and the state. -/
def Deed.stepsOf (t : TaskId) (log : List Deed) : List (Execution Unit × World) :=
  log.filterMap fun
    | .performed u p w => if u = t then some (p, w) else none
    | .dropped .. => none

namespace Engine

/-- The steps of an execution in some states: what it had to do before each of them. -/
def history (e : Engine) (t : TaskId) : Execution α → List World → List (Execution α × World)
  | _, [] => []
  | p, w :: ws => (p, w) :: ((e.step t w p).map fun r => e.history t r.1 ws).getD []

/-- The values that an execution signals on a lock in its steps in some states. -/
def told (e : Engine) (t : TaskId) (l : LockId) (p : Execution α) (ws : List World) : List Json :=
  (e.history t p ws).flatMap fun x => x.1.tells l

variable {l : LockId} {p q : Execution α} {ws ws' : List World}

theorem history_cons (h : e.step t w p = some (q, w')) (ws : List World) :
    e.history t p (w :: ws) = (p, w) :: e.history t q ws := by
  rw [history, h]
  rfl

theorem history_append (h : e.replay t p ws = some q) (ws' : List World) :
    e.history t p (ws ++ ws') = e.history t p ws ++ e.history t q ws' := by
  induction ws generalizing p with
  | nil =>
    obtain rfl := Option.some.inj h
    rfl
  | cons w ws ih =>
    obtain ⟨⟨q', w'⟩, hstep, hrest⟩ := Option.bind_eq_some_iff.1 h
    rw [List.cons_append, history_cons hstep, history_cons hstep, ih hrest, List.cons_append]

/-- What is still to be done has a next step in its state. -/
theorem ne_done_of_history (h : e.replay t p ws = some q) :
    ∀ x ∈ e.history t p ws, ∀ a, x.1 ≠ .done a := by
  induction ws generalizing p with
  | nil => exact nofun
  | cons w ws ih =>
    obtain ⟨⟨q', w'⟩, hstep, hrest⟩ := Option.bind_eq_some_iff.1 h
    rw [history_cons hstep]
    refine List.forall_mem_cons.2 ⟨?_, ih hrest⟩
    rintro a (rfl : p = .done a)
    cases hstep

theorem history_bind {p' : Execution α} (h : e.replay t p ws = some p') (k : α → Execution β) :
    e.history t (p.bind k) ws = (e.history t p ws).map fun x => (x.1.bind k, x.2) := by
  induction ws generalizing p with
  | nil => rfl
  | cons w ws ih =>
    obtain ⟨⟨q', w'⟩, hstep, hrest⟩ := Option.bind_eq_some_iff.1 h
    have hp : ∀ a, p ≠ .done a := by
      rintro a rfl
      cases hstep
    rw [history_cons hstep, history_cons (by rw [step_bind e t w k hp, hstep]; rfl), ih hrest]
    rfl

theorem tells_bind (hp : ∀ a, p ≠ .done a) (l : LockId) (k : α → Execution β) :
    (p.bind k).tells l = p.tells l := by
  cases p with
  | done a => exact absurd rfl (hp a)
  | _ => rfl

/-- What a composition tells in its first part. -/
theorem told_bind {p' : Execution α} (h : e.replay t p ws = some p') (k : α → Execution β) :
    e.told t l (p.bind k) ws = e.told t l p ws := by
  unfold told
  rw [history_bind h, List.flatMap_map]
  exact List.flatMap_congr fun x hx => tells_bind (ne_done_of_history h x hx) l k

theorem told_bind_of_done {a : α} {k : α → Execution β} (h : e.replay t p ws = some (.done a))
    (ws' : List World) :
    e.told t l (p.bind k) (ws ++ ws') = e.told t l p ws ++ e.told t l (k a) ws' := by
  rw [← told_bind h k]
  unfold told
  rw [history_append (replay_bind_of_some h k), List.flatMap_append]
  rfl

theorem told_cons (h : e.step t w p = some (q, w')) (ws : List World) :
    e.told t l p (w :: ws) = p.tells l ++ e.told t l q ws := by
  unfold told
  rw [history_cons h]
  rfl

end Engine

theorem Deed.stepsOf_append (t : TaskId) (log ds : List Deed) :
    stepsOf t (log ++ ds) = stepsOf t log ++ stepsOf t ds := List.filterMap_append

theorem Deed.stepsOf_eq_nil (h : ∀ p w, .performed t p w ∉ ds) : stepsOf t ds = [] := by
  refine List.filterMap_eq_nil_iff.2 fun d hd => ?_
  cases d with
  | dropped => rfl
  | performed u p w => exact if_neg fun (hu : u = t) => h p w (hu ▸ hd)

theorem Deed.stepsOf_performed (t : TaskId) (p : Execution Unit) (w : World) :
    stepsOf t [.performed t p w] = [(p, w)] := by
  unfold stepsOf
  simp

/-- A task has performed steps of its job only: what it has come to is what its thread has to do. -/
theorem Run.task_steps (he : e.Orderly) (hrun : Run e (.start capacity) log m) {j : Job}
    (hj : m.world.job? t = some j) :
    ∃ q, e.replay t (e.work j) (Deed.statesOf t log) = some q ∧
      (∀ p, m.threads[t]? = some p → p = q) ∧
      Deed.stepsOf t log = e.history t (e.work j) (Deed.statesOf t log) := by
  induction hrun with
  | refl =>
    obtain ⟨r, hr, hrj⟩ := Option.bind_eq_some_iff.1 hj
    have hstanding : (World.start capacity).view.tasks t = some r.standing :=
      congrArg (Option.map TaskRecord.standing) hr
    cases hrj.symm.trans (congrArg Standing.job (Conducted.tasks_start hstanding).2)
  | @move log ds m₁ m₂ hrun hmove ih =>
    obtain ⟨φ, ψ, hc⟩ := Conducted.run he hrun
    obtain ⟨φ', ψ', hpass, -⟩ := hc.move he hmove
    have hle := hpass.le hc.sound
    -- A thread of the task is there only if the task was.
    have hwas : ∀ p, m₁.threads[t]? = some p → m₁.world.job? t = some j := fun p hp => by
      obtain ⟨x, hx, -⟩ := (hc.task t).carries p hp
      obtain ⟨r, hr, -⟩ := Option.map_eq_some_iff.1 hx
      exact Option.bind_eq_some_iff.2 ⟨r, hr, World.job_eq_of_le hle hr hj⟩
    by_cases hds : ∃ p, ds = [.performed t p m₁.world]
    · obtain ⟨p, rfl⟩ := hds
      cases hmove with
      | @perform _ _ q w hp hstep =>
        obtain ⟨q', hreplay, hthread, hsteps⟩ := ih (hwas p hp)
        obtain rfl := hthread p hp
        refine ⟨q, ?_, fun p' hp' => ?_, ?_⟩
        · rw [Deed.statesOf_append, Deed.statesOf_performed, Engine.replay_append, hreplay]
          simp [Engine.replay, hstep]
        · rw [threads_insert, if_pos rfl] at hp'
          exact (Option.some.inj hp').symm
        · rw [Deed.stepsOf_append, Deed.stepsOf_performed, hsteps, Deed.statesOf_append,
            Deed.statesOf_performed, Engine.history_append hreplay]
          simp [Engine.history, hstep]
    · have hothers : ∀ p w, .performed t p w ∉ ds := fun p w hd => by
        cases hmove with
        | perform =>
          obtain ⟨rfl, rfl, rfl⟩ := Deed.performed.inj (List.mem_singleton.1 hd)
          exact hds ⟨_, rfl⟩
        | drop => cases List.mem_singleton.1 hd
        | _ => cases hd
      rw [Deed.statesOf_append, Deed.statesOf_eq_nil hothers, List.append_nil,
        Deed.stepsOf_append, Deed.stepsOf_eq_nil hothers, List.append_nil]
      have hthread : ∀ p, m₂.threads[t]? = some p →
          m₁.threads[t]? = some p ∨ m₁.world.IsLive t j ∧ m₁.threads[t]? = none ∧ p = e.work j := by
        intro p hp
        rcases hmove.origin hp with hsame | ⟨q, -, rfl, -⟩ | ⟨j', hlive, hnone, rfl⟩ | ⟨c, hcaller, -⟩
        · exact .inl hsame
        · exact absurd ⟨q, rfl⟩ hds
        · obtain rfl := Option.some.inj ((World.job?_of_le hle hlive.job?).symm.trans hj)
          exact .inr ⟨hlive, hnone, rfl⟩
        · obtain ⟨r, hr, hrj⟩ := hcaller
          cases hrj.symm.trans (World.job_eq_of_le hle hr hj)
      by_cases hold : m₁.world.job? t = some j
      · obtain ⟨q, hreplay, hq, hsteps⟩ := ih hold
        refine ⟨q, hreplay, fun p hp => ?_, hsteps⟩
        rcases hthread p hp with hsame | ⟨⟨r, hr, hrj, hlive⟩, hnone, rfl⟩
        · exact hq p hsame
        · have hnone' := (hc.task t).untouched hnone fun x hx => by
            obtain rfl := Option.some.inj ((congrArg (Option.map TaskRecord.standing) hr).symm.trans hx)
            exact ⟨by simp [show r.standing.job = some j from hrj], hlive⟩
          rw [hnone'] at hreplay
          exact Option.some.inj hreplay
      · have hnone : m₁.threads[t]? = none := by
          cases hp : m₁.threads[t]? with
          | none => rfl
          | some p => exact absurd (hwas p hp) hold
        have hnew : m₁.world.view.tasks t = none := by
          cases hx : m₁.world.view.tasks t with
          | none => rfl
          | some x =>
            obtain ⟨r, hr, -⟩ := Option.map_eq_some_iff.1 hx
            exact absurd (Option.bind_eq_some_iff.2 ⟨r, hr, World.job_eq_of_le hle hr hj⟩) hold
        have hstates : Deed.statesOf t log = [] := (hc.task t).untouched hnone fun x hx => by
          cases hnew.symm.trans hx
        have hsteps : Deed.stepsOf t log = [] := Deed.stepsOf_eq_nil fun p w hd =>
          absurd (List.mem_filterMap.2 ⟨_, hd, if_pos rfl⟩) (hstates ▸ List.not_mem_nil)
        rw [hstates, hsteps]
        refine ⟨e.work j, rfl, fun p hp => ?_, rfl⟩
        rcases hthread p hp with hsame | ⟨-, -, rfl⟩
        · cases hnone.symm.trans hsame
        · rfl

namespace Engine

variable {l : LockId} {p q : Execution α} {ws ws' : List World}

/-! ### Executions that tell nothing -/

/-- The states before and after every step of an execution fit limits. -/
def Fitting (e : Engine) (t : TaskId) (L : Limits) (p : Execution α) (ws : List World) : Prop :=
  ∀ x ∈ e.history t p ws, ∀ q w', e.step t x.2 x.1 = some (q, w') → L.Fits x.2 ∧ L.Fits w'

theorem Fitting.tail (h : e.Fitting t L p (w :: ws)) (hstep : e.step t w p = some (q, w')) :
    e.Fitting t L q ws := fun x hx =>
  h x (by rw [history_cons hstep]; exact List.mem_cons_of_mem _ hx)

theorem Fitting.append (h : e.Fitting t L p (ws ++ ws')) (hr : e.replay t p ws = some q) :
    e.Fitting t L p ws ∧ e.Fitting t L q ws' := by
  unfold Fitting at h
  rw [history_append hr] at h
  exact ⟨fun x hx => h x (List.mem_append_left _ hx), fun x hx => h x (List.mem_append_right _ hx)⟩

/-- The states of a composition fit its first part. -/
theorem Fitting.of_bind {k : α → Execution β} (h : e.Fitting t L (p.bind k) ws)
    (hr : e.replay t p ws = some q) : e.Fitting t L p ws := fun x hx q' w' hstep => by
  refine h (x.1.bind k, x.2) ?_ (q'.bind k) w' ?_
  · rw [history_bind hr]
    exact List.mem_map_of_mem hx
  · rw [step_bind e t x.2 k (ne_done_of_history hr x hx), hstep]
    rfl

end Engine

/-- Limits that hold all blocks of an engine. -/
structure Limits.Binds (L : Limits) (e : Engine) : Prop where
  strict : ∀ {β : Type} (x : Execution β), ¬ L.Exempts x
  enters : ∀ s, e.WithinAt L s
  reacts : ∀ w l v, L.Fits w → L.Signals l → ∀ r ∈ (w.locks.deliver l v).1.2, (e.react v r).Within L

namespace Execution.Within

variable {l : LockId} {p q : Execution α} {ws : List World}

theorem tells_nil (hp : p.Within L) (hL : L.Binds e) (hl : ¬ L.Signals l) : p.tells l = [] := by
  cases hp with
  | @signal l' v k hl' =>
    have hne : l' ≠ l := fun h => hl (h ▸ hl')
    exact if_neg hne
  | exempt hx => exact absurd hx (hL.strict _)
  | _ => rfl

/-- What stays within limits that do not let it signal a lock tells the lock nothing. -/
theorem told_nil [BlockLimits L] (hp : p.Within L) (hL : L.Binds e) (hl : ¬ L.Signals l)
    (hfit : e.Fitting t L p ws) (h : e.replay t p ws = some q) : e.told t l p ws = [] := by
  induction ws generalizing p with
  | nil => rfl
  | cons w ws ih =>
    obtain ⟨⟨q', w'⟩, hstep, hrest⟩ := Option.bind_eq_some_iff.1 h
    obtain ⟨hw, hw'⟩ := hfit (p, w) List.mem_cons_self q' w' hstep
    obtain ⟨-, hq'⟩ := (hp.step hstep hw hw' (fun s _ => hL.enters s)
      fun l v _ _ => hL.reacts w l v hw).resolve_right fun ⟨β, x, k, hx, _⟩ => hL.strict x hx
    rw [Engine.told_cons hstep, hp.tells_nil hL hl, ih hq' (hfit.tail hstep) hrest]
    rfl

end Execution.Within

end BlockEngine
