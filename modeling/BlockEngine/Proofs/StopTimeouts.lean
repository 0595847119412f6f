import BlockEngine.Proofs.Contexts
import BlockEngine.Proofs.Script
import BlockEngine.Proofs.Unwinding

/-!
# Stop timeouts

A stop timeout cancels the context of the chain it stands in. That is the context of one task, whatever
the task runs the chain for and however deep the block is nested in it.

* `Engine.Starts` : when and where a task starts to run its chain;
* `Starts.context`, `Reached.site` : every statement of the chain has the context of the task;
* `Sown.ofContext` : the tasks of a context are one task, or none;
* `Engine.Arms` : a chain has come to a stop timeout;
* `Run.stop_timeout_exact` : it cancels the task of its chain if that is running, and no other.
-/

namespace BlockEngine

variable {e : Engine} {t u : TaskId} {log : List Deed} {m : Machine} {w w' : World} {capacity n : Nat}

/-! ## Contexts of sites -/

namespace Site

variable {s s' : Site} {limit : Nat}

theorem context_goTo {id : String} {depth : Nat} (h : s.goTo limit id depth = .ok s') :
    s'.context = s.context := by
  obtain ⟨-, b, -, rfl⟩ := goTo_eq_ok_iff.1 h
  rfl

theorem context_next? (h : s.next? limit = some s') : s'.context = s.context := by
  obtain ⟨id, -, hid⟩ := next?_eq_some_iff.1 h
  exact context_goTo hid

theorem context_inputBlock? {env : Environment} {key : String}
    (h : s.inputBlock? env key = .ok (some s')) : s'.context = s.context := by
  obtain ⟨id, hid⟩ := child_of_inputBlock? h
  exact context_goTo hid

end Site

namespace Engine

variable {j : Job} {pre ws ws' : List World} {root b : Site} {visited : List String} {c : Context}

/-! ## Statements of a chain -/

/-- The value that the filter of a hat is made from. -/
def guardItem (e : Engine) (hat : Site) : Attempt Json :=
  if hat.hasInput itemInput then hat.inputValue e.environment itemInput else pure .null

/-- What is left of a guarded chain when it has the item. -/
def afterItem (operator : ChangeOperator) (v : Json) (next : Site) (item : Json) :
    Attempt Signal := do
  let f ← Attempt.ofExcept (operator.filter item)
  if f.accepts v then Attempt.handle next else return .proceed

theorem work_chainIf (e : Engine) (hat : Site) (operator : ChangeOperator) (v : Json) (next : Site) :
    e.work (.chainIf hat operator v next) =
      Attempt.conclude hat (e.guardItem hat >>= afterItem operator v next) := by
  refine congrArg (Attempt.conclude hat) ?_
  unfold guardedChain guardItem
  split <;> rfl

/-- After some steps of its work a task is about to run a chain: a block that is no expression, the
chain after a hat if its filter accepts the value, or the body of a procedure when the arguments are
kept. -/
inductive Starts (e : Engine) (t : TaskId) : Job → List World → Site → Prop
  | root {s : Site} : e.registry.kind? s.block.opcode ≠ some .reporter → Starts e t (.root s) [] s
  | chain {s : Site} : Starts e t (.chain s) [] s
  | guarded {hat next : Site} {operator : ChangeOperator} {v item : Json} {f : ChangeFilter}
      {ws : List World} :
      e.replay t (ExceptT.run (e.guardItem hat)) ws = some (.done (.ok item)) →
      operator.filter item = .ok f → f.accepts v = true →
      Starts e t (.chainIf hat operator v next) ws next
  | body {s first : Site} {arguments : List (String × String)} {request : Json} {returns : LockId}
      {ws : List World} :
      e.replay t (keepArguments s request arguments) ws = some (.done ()) →
      s.next? e.settings.maxDepth = some first →
      Starts e t (.body s arguments request returns) ws first

/-- What the task has to do then begins with the chain. -/
theorem Starts.replay (h : e.Starts t j pre root) :
    ∃ k, e.replay t (e.work j) pre = some ((ExceptT.run (Attempt.handle root)).bind k) := by
  cases h with
  | root hkind => exact ⟨_, congrArg some (work_root hkind)⟩
  | chain => exact ⟨_, rfl⟩
  | @guarded hat _ operator v item f ws hitem hf haccepts =>
    rw [work_chainIf]
    have hguard := replay_bind_of_done hitem (k := ExceptT.bindCont (afterItem operator v root)) []
    rw [List.append_nil] at hguard
    refine ⟨_, (replay_bind_of_some (hguard.trans ?_) _)⟩
    change some (ExceptT.run (afterItem operator v root item)) = _
    unfold afterItem
    rw [hf]
    change some (ExceptT.run (if f.accepts v then Attempt.handle root else return .proceed)) = _
    rw [if_pos haccepts]
  | @body s _ arguments request returns _ hkept hfirst =>
    refine ⟨reply returns request, ?_⟩
    change e.replay t ((e.bodyChain s arguments request).bind (reply returns request)) pre = _
    refine replay_bind_of_some ?_ _
    unfold bodyChain
    rw [← List.append_nil pre]
    refine (replay_bind_of_done hkept []).trans ?_
    simp only [hfirst]
    rfl

/-- A chain is run under the context that its task was started in. -/
theorem Starts.context (h : e.Starts t j pre root) (hj : j.RunsIn c) : root.context = c := by
  cases h with
  | root | chain | guarded => exact hj
  | body _ hfirst => exact (Site.context_next? hfirst).trans hj

theorem Starts.generation (h : e.Starts t j pre root) {v : View} (hj : j.Coherent v) :
    root.generation.number = j.owner := by
  cases h with
  | root | chain => rfl
  | guarded => exact congrArg Generation.number hj.2
  | body _ hfirst => exact congrArg Generation.number (Site.generation_next? hfirst)

/-- What is plugged into a block is run under its context. -/
theorem Opens.site {body : Site} (h : e.Opens t b ws body) :
    body.generation = b.generation ∧ body.context = b.context := by
  have hplugged : ∀ {key : String} {body : Site},
      b.inputBlock? e.environment key = .ok (some body) →
        body.generation = b.generation ∧ body.context = b.context :=
    fun h => ⟨Site.generation_inputBlock? h, Site.context_inputBlock? h⟩
  cases h with
  | ifThen _ _ hbody | ifElse _ _ hbody => exact hplugged hbody
  | loop hloops =>
    cases hloops with
    | forever _ hbody | counted _ hbody | conditional _ hbody | scheduled _ hbody =>
      exact hplugged hbody

/-- Every statement of a chain is run under the context of the chain. -/
theorem Reached.site (h : e.Reached t root ws visited b) :
    b.generation = root.generation ∧ b.context = root.context := by
  induction h with
  | root => exact ⟨rfl, rfl⟩
  | next _ _ _ _ hnext ih =>
    exact ⟨(Site.generation_next? hnext).trans ih.1, (Site.context_next? hnext).trans ih.2⟩
  | body _ _ hopens ih => exact ⟨hopens.site.1.trans ih.1, hopens.site.2.trans ih.2⟩

/-- What a task that has come to a statement has to do begins with the chain from there on. -/
theorem Starts.reached (he : e.HasCore) (h : e.Starts t j pre root)
    (hreached : e.Reached t root ws visited b) :
    ∃ k, e.replay t (e.work j) (pre ++ ws) = some (.run (.chain visited b) k) := by
  obtain ⟨k, hstart⟩ := h.replay
  obtain ⟨k', hchain, -⟩ := hreached.hands he
  refine ⟨fun r => (k' r).bind k, ?_⟩
  rw [replay_append, hstart]
  exact replay_bind_of_some hchain k

/-! ## Stop timeouts -/

/-- After some steps of a task its chain has come to a stop timeout in it, which has read its
duration. -/
inductive Arms (e : Engine) (t : TaskId) (j : Job) : List World → Site → Nat → Prop
  | intro {pre ws ws' : List World} {root b : Site} {visited : List String} {begun : World}
      {ns : Nat} :
      e.Starts t j pre root → e.Reached t root ws visited b → b.id ∉ visited →
      b.block.opcode = ⟨"control", "stop_timeout"⟩ →
      e.replay t (ExceptT.run (Library.inputDuration e.environment b "TIMES")) ws' =
        some (.done (.ok ns)) →
      Arms e t j (pre ++ ws ++ begun :: ws') b (max ns Library.shortestTimeout)

theorem Arms.statement {ns : Nat} (h : e.Arms t j ws b ns) :
    ∃ pre root ws visited, e.Starts t j pre root ∧ e.Reached t root ws visited b := by
  cases h with
  | intro hstarts hreached => exact ⟨_, _, _, _, hstarts, hreached⟩

/-- Next it starts the task of the timeout. -/
theorem Arms.step (he : e.HasCore) {ns : Nat} (h : e.Arms t j ws b ns) {q : Execution Unit}
    (hreplay : e.replay t (e.work j) ws = some q) (w : World) :
    ∃ q', e.step t w q = some (q', (w.fresh.2.spawn b.generation.number b.description
      (b.context.child w.issued) (.stopAfter b.generation.number b.context.id ns)).2) := by
  cases h with
  | @intro pre ws ws' root _ visited begun ns hstarts hreached hnew hop hduration =>
    obtain ⟨k, hchain⟩ := hstarts.reached he hreached
    have hcommand : e.IsCommand b Library.stopTimeout := he.isCommand rfl hop
    rw [replay_append, hchain, Option.bind_some, replay_cons (hcommand.step hnew t begun k)] at hreplay
    have htimeout := replay_bind_of_some (replay_bind_of_some hduration fun r => ExceptT.bindCont
      (fun ns => do
        let _ ← (Execution.spawnIn b fun _ => .stopAfter b.generation.number b.context.id
          (max ns Library.shortestTimeout) : Execution (Option TaskId))
        return Signal.proceed) r) (e.afterCommand visited b k)
    obtain rfl := Option.some.inj (htimeout.symm.trans hreplay)
    exact ⟨_, rfl⟩

end Engine

/-! ## The tasks of a context -/

/-- The tasks of the context of a task are this task while it is running, and none otherwise. -/
theorem Sown.ofContext {κ : Nat → Use} (h : Sown e m κ) {φ : TaskId → Stage} {ψ : TaskId → Stance}
    (hc : Conducted e log m φ ψ) {c : Nat} {x : Tracked} (hx : κ c = .taken n x) :
    m.world.ofContext n c =
      if m.world.isEnded x.task || m.world.isDestroyed n then [] else [x.task] := by
  obtain ⟨hid, s, j, hs, hj, howner, -⟩ := h.ledger.runs c n x hx
  have hsole : ∀ y ∈ m.world.tracked n, y.context.id = c → y = x := by
    intro y hy hyid
    obtain ⟨g, hg, hmem⟩ := World.mem_tracked.1 hy
    have hbooked := (h.ledger.tracked n g hg).2 y hmem
    rw [hyid, hx] at hbooked
    exact (Use.taken.inj hbooked).2.symm
  have hended : m.world.isEnded x.task = s.ended := by
    rw [World.isEnded_eq, hs]
    rfl
  unfold World.ofContext
  split
  · next hover =>
    refine List.map_eq_nil_iff.2 (List.filter_eq_nil_iff.2 fun y hy hmatch => ?_)
    simp only [Bool.and_eq_true, decide_eq_true_eq, Bool.not_eq_true'] at hmatch
    obtain rfl := hsole y hy hmatch.1
    rw [hmatch.2, Bool.false_or] at hover
    obtain ⟨g, hg, hmem⟩ := World.mem_tracked.1 hy
    have hd : g.destroyed = true := (View.isDestroyed_of_some (v := m.world.view) hg).symm.trans hover
    rw [h.ledger.destroyed n g hg hd] at hmem
    cases hmem
  · next hrunning =>
    simp only [Bool.or_eq_true, not_or, Bool.not_eq_true] at hrunning
    obtain ⟨g, hg, htracked⟩ := hc.supervised.tracked x.task s j hs hj
    rw [howner] at hg
    have hd : g.destroyed = false := (View.isDestroyed_of_some (v := m.world.view) hg).symm.trans hrunning.2
    obtain ⟨y, hy, hytask⟩ := htracked (hended.symm.trans hrunning.1) hd
    have hmem : y ∈ m.world.tracked n := World.mem_tracked.2 ⟨g, hg, hy⟩
    have hyx : y = x := by
      obtain ⟨hnodup, hbooked⟩ := h.ledger.tracked n g hg
      exact hsole y hmem (h.ledger.once _ c n n y x (hbooked y hy) hx hytask)
    subst hyx
    have hnodup : (m.world.tracked n).Nodup := by
      rw [World.tracked_of_some hg]
      exact (h.ledger.tracked n g hg).1
    have hfilter : (m.world.tracked n).filter
        (fun y => y.context.id = c && !m.world.isEnded y.task) = [y] := by
      refine List.perm_singleton.1 ((List.perm_ext_iff_of_nodup (hnodup.filter _)
        (List.nodup_singleton y)).2 fun z => ?_)
      rw [List.mem_filter, List.mem_singleton]
      constructor
      · rintro ⟨hz, hmatch⟩
        simp only [Bool.and_eq_true, decide_eq_true_eq] at hmatch
        exact hsole z hz hmatch.1
      · rintro rfl
        exact ⟨hmem, by simp [hid, hrunning.1]⟩
    rw [hfilter]
    rfl

/-! ## The theorem -/

/-- No two tracked tasks have one context, neither of one generation nor of two. -/
structure World.ContextsDiffer (w : World) : Prop where
  within : ∀ n, ((w.tracked n).map (·.context.id)).Nodup
  across : ∀ n n' x x', x ∈ w.tracked n → x' ∈ w.tracked n' → x.context.id = x'.context.id →
    n = n' ∧ x = x'

/-- The task `u` is the timeout of the task `t`, for the block `b` of its chain. In its third step, when
it has looked at the clock and slept, it cancels the task `t` if that is running, and nothing
otherwise. -/
structure Engine.TimesOut (e : Engine) (t : TaskId) (b : Site) (ns : Nat) (u : TaskId)
    (log : List Deed) (m : Machine) : Prop where
  job : m.world.job? u = some (.stopAfter b.generation.number b.context.id ns)
  fires : ∀ q w log₁ log₂, log = log₁ ++ .performed u q w :: log₂ →
    (Deed.statesOf u log₁).length = 2 →
      ∃ ts q', e.step u w q = some (q', ts.foldl World.cancel w) ∧
        ts = if w.isEnded t || w.isDestroyed b.generation.number then [] else [t]

theorem Sown.contextsDiffer {κ : Nat → Use} (h : Sown e m κ) : m.world.ContextsDiffer where
  within n := by
    cases hg : m.world.generation? n with
    | none =>
      unfold World.tracked
      rw [hg]
      exact List.nodup_nil
    | some s =>
      obtain ⟨hnodup, hbooked⟩ := h.ledger.tracked n s hg
      rw [World.tracked_of_some hg]
      refine hnodup.map_on fun x hx y hy heq => ?_
      have hxy := (hbooked x hx).symm.trans (heq ▸ hbooked y hy)
      exact (Use.taken.inj hxy).2
  across n n' x x' hx hx' heq := by
    obtain ⟨s, hs, hmem⟩ := World.mem_tracked.1 hx
    obtain ⟨s', hs', hmem'⟩ := World.mem_tracked.1 hx'
    have hbooked := (h.ledger.tracked n s hs).2 x hmem
    rw [heq, (h.ledger.tracked n' s' hs').2 x' hmem'] at hbooked
    obtain ⟨rfl, rfl⟩ := Use.taken.inj hbooked
    exact ⟨rfl, rfl⟩

theorem World.standing_of_job? {j : Job} (h : w.job? t = some j) :
    ∃ s, w.view.tasks t = some s ∧ s.job = some j := by
  obtain ⟨r, hr, hj⟩ := Option.bind_eq_some_iff.1 h
  exact ⟨r.standing, congrArg (Option.map TaskRecord.standing) hr, hj⟩

/-- The statements of the chain of a task belong to the generation that the task works for. -/
theorem Engine.Starts.owner {j : Job} {pre ws : List World} {root b : Site} {visited : List String}
    (h : e.Starts t j pre root) (hreached : e.Reached t root ws visited b) (hs : w.view.Sound e)
    (hj : w.job? t = some j) : b.generation.number = j.owner := by
  obtain ⟨s, hs', hj'⟩ := World.standing_of_job? hj
  rw [hreached.site.1]
  exact h.generation (hs.jobs _ s j hs' hj')

/-- A statement of the chain of a task has the context under which the task has been recorded. -/
theorem Ledger.statement {κ : Nat → Use} (h : Ledger κ w.view) {c : Nat} {x : Tracked} {j : Job}
    {pre ws : List World} {root b : Site} {visited : List String} (hsound : w.view.Sound e)
    (hx : κ c = .taken n x) (hj : w.job? x.task = some j) (hstarts : e.Starts x.task j pre root)
    (hreached : e.Reached x.task root ws visited b) :
    b.generation.number = n ∧ b.context = x.context := by
  obtain ⟨-, s, j', hs, hj', howner, hruns⟩ := h.runs c n x hx
  obtain ⟨s', hs', hj''⟩ := World.standing_of_job? hj
  obtain rfl := Option.some.inj (hs'.symm.trans hs)
  obtain rfl := Option.some.inj (hj'.symm.trans hj'')
  exact ⟨(hstarts.owner hreached hsound hj).trans howner,
    hreached.site.2.trans (hstarts.context hruns)⟩

/-- A task that is running is recorded under a context. -/
theorem Sown.of_thread {κ : Nat → Use} (h : Sown e m κ) {φ : TaskId → Stage} {ψ : TaskId → Stance}
    (hc : Conducted e log m φ ψ) {p : Execution Unit} {j : Job} (hp : m.threads[t]? = some p)
    (hj : m.world.job? t = some j) (hlive : m.world.isDestroyed j.owner = false) :
    ∃ c x, κ c = .taken j.owner x ∧ x.task = t := by
  obtain ⟨s, hs, hend, -⟩ := (hc.task t).carries p hp
  obtain ⟨s', hs', hsj⟩ := World.standing_of_job? hj
  obtain rfl := Option.some.inj (hs'.symm.trans hs)
  obtain ⟨g, hg, htracked⟩ := hc.supervised.tracked t _ j hs hsj
  have hd : g.destroyed = false :=
    (View.isDestroyed_of_some (v := m.world.view) hg).symm.trans hlive
  obtain ⟨y, hy, rfl⟩ := htracked hend hd
  exact ⟨_, y, (h.ledger.tracked _ g hg).2 y hy, rfl⟩

/-- A task that has been started has its job. -/
theorem World.job?_spawn {g : Nat} (hlive : w.isDestroyed g = false) (d : String) (c : Context)
    (j : Job) : (w.spawn g d c j).2.job? w.taskCount = some j := by
  have htask := View.tasks_spawn (v := w.view) hlive d c j w.taskCount
  rw [← World.view_spawn] at htask
  obtain ⟨r, hr, hstanding⟩ := Option.map_eq_some_iff.1 (htask.trans (if_pos rfl))
  exact Option.bind_eq_some_iff.2 ⟨r, hr, congrArg Standing.job hstanding⟩

/-- After a look at the clock and a sleep a timeout cancels its context. -/
theorem Engine.step_stopAfter {c ns : Nat} {ws : List World} {q : Execution Unit}
    (hreplay : e.replay u (e.work (.stopAfter n c ns)) ws = some q) (hlength : ws.length = 2)
    (w : World) : ∃ q', e.step u w q = some (q', (w.ofContext n c).foldl World.cancel w) := by
  match ws, hlength with
  | [looked, slept], _ =>
    obtain ⟨⟨q₁, w₁⟩, hlook, hreplay⟩ := Option.bind_eq_some_iff.1 hreplay
    obtain ⟨rfl, rfl⟩ := Prod.mk.inj (Option.some.inj hlook)
    obtain ⟨⟨q₂, w₂⟩, hsleep, hreplay⟩ := Option.bind_eq_some_iff.1 hreplay
    obtain ⟨r, -, rfl, rfl⟩ := Engine.step_pause hsleep
    obtain rfl := Option.some.inj hreplay
    exact ⟨_, rfl⟩

/-- A stop timeout stops exactly its own chain. In every reachable state tracked tasks have contexts of
their own, and every statement in the chain of a tracked task is run under the context of the task;
and when a timeout fires that a statement of such a chain has started, it cancels the task of the chain
if that is still running, and nothing otherwise. -/
theorem Run.stop_timeout_exact (he : e.HasCore) (hrun : Run e (.start capacity) log m) :
    m.world.ContextsDiffer ∧
    (∀ n x j pre root ws visited b, x ∈ m.world.tracked n → m.world.job? x.task = some j →
      e.Starts x.task j pre root → e.Reached x.task root ws visited b →
        b.generation.number = n ∧ b.context = x.context) ∧
    ∀ log₁ t p w log₂ j b ns, log = log₁ ++ .performed t p w :: log₂ → w.job? t = some j →
      e.Arms t j (Deed.statesOf t log₁) b ns → w.isDestroyed b.generation.number = false →
        e.TimesOut t b ns w.taskCount log₂ m := by
  have horderly := Engine.orderly_of_core he
  obtain ⟨κ, hsown⟩ := hrun.sown he
  obtain ⟨φ, ψ, hc⟩ := Conducted.run horderly hrun
  refine ⟨hsown.contextsDiffer, fun n x j pre root ws visited b hx hj hstarts hreached => ?_, ?_⟩
  · obtain ⟨s, hs, hmem⟩ := World.mem_tracked.1 hx
    exact hsown.ledger.statement hc.sound ((hsown.ledger.tracked n s hs).2 x hmem) hj hstarts hreached
  rintro log₁ t p w log₂ j b ns rfl hj harms hlive
  obtain ⟨m₁, m₂, q, rfl, hstep, hbefore, hmove, hafter⟩ := hrun.at_deed
  obtain ⟨q₁, hreplay, hthread, -⟩ := hbefore.task_steps horderly hj
  obtain rfl := hthread p hmove.thread
  obtain ⟨κ₁, hsown₁⟩ := hbefore.sown he
  obtain ⟨φ₁, ψ₁, hc₁⟩ := Conducted.run horderly hbefore
  -- The task of the chain is recorded under the context of the block.
  obtain ⟨pre, root, ws, visited, hstarts, hreached⟩ := harms.statement
  have howner := hstarts.owner hreached hc₁.sound hj
  obtain ⟨c, x, hx, rfl⟩ := hsown₁.of_thread hc₁ hmove.thread hj (howner ▸ hlive)
  obtain ⟨-, hcontext⟩ := hsown₁.ledger.statement hc₁.sound hx hj hstarts hreached
  obtain ⟨rfl, -⟩ := hsown₁.ledger.runs c _ x hx
  -- The next step starts the timeout.
  obtain ⟨q', harmed⟩ := harms.step he hreplay m₁.world
  obtain ⟨-, hworld⟩ := Prod.mk.inj (Option.some.inj (hstep.symm.trans harmed))
  have hjob₂ : m₂.world.job? m₁.world.taskCount =
      some (.stopAfter b.generation.number b.context.id ns) := by
    rw [hworld]
    exact World.job?_spawn (w := m₁.world.fresh.2) hlive _ _ _
  have hrun₂ : Run e (.start capacity) (log₁ ++ [.performed x.task p m₁.world]) m₂ :=
    hbefore.move hmove
  obtain ⟨φ₂, ψ₂, hc₂⟩ := Conducted.run horderly hrun₂
  obtain ⟨-, -, -, hle⟩ := hc₂.extend horderly hafter
  refine ⟨World.job?_of_le hle hjob₂, ?_⟩
  rintro q₃ w log₃ log₄ rfl hlength
  obtain ⟨m₃, m₄, -, rfl, -, hrun₃, hmove₃, -⟩ := hafter.at_deed
  have hreached₃ := hrun₂.trans hrun₃
  obtain ⟨φ₃, ψ₃, hc₃⟩ := Conducted.run horderly hreached₃
  obtain ⟨-, -, -, hle₃⟩ := hc₂.extend horderly hrun₃
  obtain ⟨κ₃, hlater, hsown₃⟩ := ((Run.single hmove).trans hrun₃).sown_extend he hc₁ hsown₁
  -- Before it was started the timeout had no steps.
  have hstates : Deed.statesOf m₁.world.taskCount
      (log₁ ++ [.performed x.task p m₁.world] ++ log₃) = Deed.statesOf m₁.world.taskCount log₃ := by
    have hne : m₁.world.taskCount ≠ x.task :=
      (Nat.ne_of_lt (Worker.lt_of_thread hc₁ hmove.thread)).symm
    rw [Deed.statesOf_append, Deed.statesOf_append, hc₁.new.2,
      Deed.statesOf_performed_of_ne hne, List.nil_append, List.nil_append]
  obtain ⟨q₄, hreplay₃, hthread₃, -⟩ := hreached₃.task_steps horderly (World.job?_of_le hle₃ hjob₂)
  obtain rfl := hthread₃ q₃ hmove₃.thread
  rw [hstates] at hreplay₃
  obtain ⟨q', hfired⟩ := Engine.step_stopAfter hreplay₃ hlength m₃.world
  refine ⟨_, q', hfired, ?_⟩
  rw [howner, hcontext]
  exact hsown₃.ofContext hc₃ (hlater _ _ x hx)

namespace Script

/-- A tab that has two seconds for a wait of a minute. -/
def impatient : String :=
  let members (parent input amount : String) := parent ++ ",\"inputs\":\x7b\"" ++ input ++
    "\":[1,[4,\"" ++ amount ++ "\"]]\x7d,\"fields\":\x7b\"UNIT\":[\"SECONDS\",null]\x7d"
  document [
    block "t" "control_stop_timeout" (members "\"topLevel\":true,\"next\":\"w\"" "TIMES" "2"),
    block "w" "control_wait" (members "\"topLevel\":false,\"parent\":\"t\"" "DURATION" "60")]

/-- The stop timeout that a task has to begin with, and how long it takes. -/
def timeout? (m : Machine) (t : TaskId) : Option (Site × Nat) :=
  match m.liveJob? t with
  | some (.root s) =>
    match engine.replay t (ExceptT.run (Library.inputDuration engine.environment s "TIMES")) [] with
    | some (.done (.ok ns)) =>
      if s.block.opcode = ⟨"control", "stop_timeout"⟩ then some (s, ns) else none
    | _ => none
  | _ => none

theorem timeout?_spec {m : Machine} {s : Site} {ns : Nat} (h : timeout? m t = some (s, ns)) :
    m.world.IsLive t (.root s) ∧ s.block.opcode = ⟨"control", "stop_timeout"⟩ ∧
      engine.replay t (ExceptT.run (Library.inputDuration engine.environment s "TIMES")) [] =
        some (.done (.ok ns)) := by
  unfold timeout? at h
  split at h
  · next s' hjob =>
    split at h
    · next ns' hduration =>
      split at h
      · next hop =>
        obtain ⟨rfl, rfl⟩ := Prod.mk.inj (Option.some.inj h)
        exact ⟨Machine.isLive_of_liveJob? hjob, hop, hduration⟩
      · cases h
    · cases h
  · cases h

/-- A step that is played is a step of the thread. -/
theorem performed_of_length {m : Machine} (h : (m.performAll engine t 1).1.length = 1) :
    ∃ p, (m.performAll engine t 1).1 = [.performed t p m.world] := by
  unfold Machine.performAll at h ⊢
  split
  · next hp => simp [hp] at h
  · next p hp =>
    split
    · next hstep => simp [hp, hstep] at h
    · exact ⟨p, rfl⟩

/-- Whether the task 1 has come to the timeout, and starts the task 2 next. -/
def isArmed (s : Site) (log₀ : List Deed) (r : List Deed × Machine) : Bool :=
  decide ((Deed.statesOf 1 (log₀ ++ r.1)).length = 1) &&
    !r.2.world.isDestroyed s.generation.number && decide (r.2.world.taskCount = 2) &&
    decide ((r.2.performAll engine 1 1).1.length = 1)

/-- Whether the task 2 has slept, and goes on while the task 1 is running. -/
def isDue (s : Site) (r : List Deed × Machine) : Bool :=
  decide ((Deed.statesOf 2 r.1).length = 2) && !r.2.world.isEnded 1 &&
    !r.2.world.isDestroyed s.generation.number && decide ((r.2.performAll engine 2 1).1.length = 1)

/-- The timeout is armed in the second step of the task, looks at the clock and sleeps for two seconds,
and is about to fire while the task waits. -/
theorem run_impatient :
    ∃ log₀ m₀ s ns log₁ m₁ log₃ m₃, Run engine (.start 10) log₀ m₀ ∧ timeout? m₀ 1 = some (s, ns) ∧
      Run engine m₀ log₁ m₁ ∧ (Deed.statesOf 1 (log₀ ++ log₁)).length = 1 ∧
      m₁.world.isDestroyed s.generation.number = false ∧ m₁.world.taskCount = 2 ∧
      (m₁.performAll engine 1 1).1.length = 1 ∧ Run engine (m₁.performAll engine 1 1).2 log₃ m₃ ∧
      (Deed.statesOf 2 log₃).length = 2 ∧ m₃.world.isEnded 1 = false ∧
      m₃.world.isDestroyed s.generation.number = false ∧ (m₃.performAll engine 2 1).1.length = 1 := by
  obtain ⟨log₀, m₀, hrun, hf⟩ := Run.of_playAll_any (e := engine) (m := .start 10)
    [.call 0 (.save "main" impatient), .perform 0 100]
    (f := fun log₀ m₀ => (timeout? m₀ 1).any fun x =>
      (m₀.playAll engine [.begin 1, .perform 1 1]).any fun r => isArmed x.1 log₀ r &&
        ((r.2.performAll engine 1 1).2.playAll engine
          [.perform 1 10, .begin 2, .perform 2 1, .pass 2000, .perform 2 1]).any (isDue x.1))
    (by decide +kernel)
  obtain ⟨x, hs, hf⟩ := (Option.any_eq_true _ _).1 hf
  obtain ⟨r, hplay, hf⟩ := (Option.any_eq_true _ _).1 hf
  obtain ⟨harmed, hf⟩ := Bool.and_eq_true_iff.1 hf
  obtain ⟨r', hplay', hdue⟩ := (Option.any_eq_true _ _).1 hf
  simp only [isArmed, Bool.and_eq_true, decide_eq_true_eq, Bool.not_eq_true'] at harmed
  simp only [isDue, Bool.and_eq_true, decide_eq_true_eq, Bool.not_eq_true'] at hdue
  obtain ⟨⟨⟨hone, hlive⟩, hcount⟩, hstep⟩ := harmed
  obtain ⟨⟨⟨htwo, hended⟩, hlive'⟩, hstep'⟩ := hdue
  exact ⟨log₀, m₀, x.1, x.2, r.1, r.2, r'.1, r'.2, hrun, hs, .of_playAll hplay, hone, hlive, hcount,
    hstep, .of_playAll hplay', htwo, hended, hlive', hstep'⟩

end Script

/-- A timeout of two seconds fires while its task waits, and cancels it. -/
theorem timeout_stops_wait :
    ∃ log₁ p w b ns q w' log₂ m q', Run Script.engine (.start 10)
        (log₁ ++ .performed 1 p w :: (log₂ ++ [.performed 2 q w'])) m ∧
      Script.engine.Arms 1 (.root b) (Deed.statesOf 1 log₁) b ns ∧
      m.world.ContextsDiffer ∧ (Deed.statesOf 2 log₂).length = 2 ∧
      Script.engine.step 2 w' q = some (q', w'.cancel 1) := by
  obtain ⟨log₀, m₀, s, ns, log₁, m₁, log₃, m₃, hrun₀, htimeout, hrun₁, hone, hlive, hcount, harmed,
    hrun₃, htwo, hended, hlive', hfired⟩ := Script.run_impatient
  obtain ⟨hjob, hop, hduration⟩ := Script.timeout?_spec htimeout
  obtain ⟨p, hp⟩ := Script.performed_of_length harmed
  obtain ⟨q, hq⟩ := Script.performed_of_length hfired
  have hbefore := hrun₀.trans hrun₁
  have harm := Run.of_performAll Script.engine 1 1 m₁
  have hfire := Run.of_performAll Script.engine 2 1 m₃
  rw [hp] at harm
  rw [hq] at hfire
  have hrun := hbefore.trans (harm.trans (hrun₃.trans hfire))
  rw [List.singleton_append] at hrun
  obtain ⟨begun, hbegun⟩ := List.length_eq_one_iff.1 hone
  have harms : Script.engine.Arms 1 (.root s) (Deed.statesOf 1 (log₀ ++ log₁)) s
      (max ns Library.shortestTimeout) := by
    rw [hbegun]
    exact .intro (.root (by rw [hop]; decide)) .root List.not_mem_nil hop hduration
  have horderly := Engine.orderly_of_core (e := Script.engine) rfl
  obtain ⟨φ, ψ, hc⟩ := Conducted.run horderly hrun₀
  obtain ⟨-, -, -, hle⟩ := hc.extend horderly hrun₁
  obtain ⟨hdiffer, -, hfires⟩ := Run.stop_timeout_exact (e := Script.engine) rfl hrun
  have htimes := hfires _ _ _ _ _ _ _ _ rfl (World.job?_of_le hle hjob.job?) harms hlive
  rw [hcount] at htimes
  obtain ⟨ts, q', hstep, rfl⟩ := htimes.fires q m₃.world log₃ [] rfl htwo
  rw [hended, hlive'] at hstep
  exact ⟨_, p, m₁.world, s, _, q, m₃.world, log₃, _, q', hrun, harms, hdiffer, htwo, hstep⟩

end BlockEngine
