import BlockEngine.Proofs.Clearing
import BlockEngine.Proofs.Listening

/-!
# The start of the roots

A reload handles the roots that run once in its own thread, then starts a task for each hat, and in
the end one for each other root. On one thread the hats have come to their end by then.

* `Engine.Bound` : what all steps of an execution are like; `Course.own_steps`;
* `HasTurn.keeps` : a caller keeps the turn on a course whose steps leave it there;
* `Supervisor.onceRoots`, `hatRoots`, `commandRoots` : the roots by how they are started;
* `Supervisor.Assigned` : tasks that a thread starts for sites, one after the other;
* `Supervisor.RootsStarted` : what a reload does with the roots of the generation it starts;
* `Run.begun` : a task that performs a step has begun with its whole work;
* `Supervisor.EachTracked`, `HatsFirst`, `HatsHeard` : what each root is started by, and what holds
  when a root that is no hat performs a step;
* `Worker.Runs.roots_started` : a reload starts all roots so;
* `Worker.go` : what one thread does, computed.
-/

namespace BlockEngine

variable {α β : Type} {e : Engine} {t u h : TaskId} {log log' log₀ ds : List Deed}
  {m m' : Machine} {w w' : World} {n : Nat}

/-! ## What the steps of an execution are like -/

/-- Each step of an execution is as `R` allows, in whatever state it is performed. -/
inductive Engine.Bound (e : Engine) (t : TaskId) (R : World → World → Prop) : Execution α → Prop
  | intro {p : Execution α} :
      (∀ w q w', e.step t w p = some (q, w') → R w w') →
      (∀ w q w', e.step t w p = some (q, w') → Bound e t R q) → Bound e t R p

namespace Engine.Bound

variable {R : World → World → Prop} {p q : Execution α}

theorem done (a : α) : e.Bound t R (.done a) := .intro nofun nofun

theorem act {f : World → World} {k : World → Execution α} (hf : ∀ w, R w (f w))
    (hk : ∀ w, e.Bound t R (k w)) : e.Bound t R (.act f k) := by
  constructor <;> intro w q w' hstep <;> obtain ⟨rfl, rfl⟩ := Prod.mk.inj (Option.some.inj hstep)
  · exact hf w
  · exact hk w

theorem change {f : World → World} (hf : ∀ w, R w (f w)) : e.Bound t R (Execution.change f) :=
  act hf fun _ => .done ()

theorem atomically {f : World → α × World} (hf : ∀ w, R w (f w).2) :
    e.Bound t R (Execution.atomically f) := act hf fun _ => .done _

theorem pause {c : Pause} {k : c.Reply → Execution α} (hc : ∀ w, R w (w.settle t c))
    (hk : ∀ r, e.Bound t R (k r)) : e.Bound t R (.pause c k) := by
  constructor <;> intro w q w' hstep <;> obtain ⟨r, -, heq⟩ := Option.map_eq_some_iff.1 hstep <;>
    obtain ⟨rfl, rfl⟩ := Prod.mk.inj heq
  · exact hc w
  · exact hk r

theorem bind (hp : e.Bound t R p) {k : α → Execution β} (hk : ∀ a, e.Bound t R (k a)) :
    e.Bound t R (p.bind k) := by
  induction hp with
  | @intro p hR _ ih =>
    by_cases hdone : ∃ a, p = .done a
    · obtain ⟨a, rfl⟩ := hdone
      exact hk a
    · have hstep : ∀ w q w', e.step t w (p.bind k) = some (q, w') →
          ∃ q₀, e.step t w p = some (q₀, w') ∧ q = q₀.bind k := by
        intro w q w' hstep
        rw [step_bind e t w k fun a ha => hdone ⟨a, ha⟩] at hstep
        obtain ⟨⟨q₀, w₀⟩, hp, heq⟩ := Option.map_eq_some_iff.1 hstep
        obtain ⟨rfl, rfl⟩ := Prod.mk.inj heq
        exact ⟨q₀, hp, rfl⟩
      refine .intro (fun w q w' h => ?_) fun w q w' h => ?_
      · obtain ⟨q₀, hp, -⟩ := hstep w q w' h
        exact hR w q₀ w' hp
      · obtain ⟨q₀, hp, rfl⟩ := hstep w q w' h
        exact ih w q₀ w' hp

/-- One attempt after the other. -/
theorem attempt {ε : Type} {p : ExceptT ε Execution α} (hp : e.Bound t R (ExceptT.run p))
    {k : α → ExceptT ε Execution β} (hk : ∀ a, e.Bound t R (ExceptT.run (k a))) :
    e.Bound t R (ExceptT.run (p >>= k)) := by
  refine hp.bind fun r => ?_
  cases r with
  | ok a => exact hk a
  | error err => exact .done _

theorem lift {ε : Type} (hp : e.Bound t R p) :
    e.Bound t R (ExceptT.run (liftM p : ExceptT ε Execution α)) :=
  hp.bind fun a => .done (Except.ok a)

theorem mapM {f : β → Execution α} (hf : ∀ b, e.Bound t R (f b)) (bs : List β) :
    e.Bound t R (bs.mapM f) := by
  induction bs with
  | nil => exact done []
  | cons b bs ih =>
    rw [List.mapM_cons]
    exact (hf b).bind fun _ => ih.bind fun _ => .done _

theorem of_straight (hp : e.Straight t R p) : e.Bound t R p := by
  induction hp with
  | done a => exact done a
  | step q f _ hstep hR _ ih =>
    constructor <;> intro w q' w' h <;>
      obtain ⟨rfl, rfl⟩ := Prod.mk.inj (Option.some.inj ((hstep w).symm.trans h))
    · exact hR w
    · exact ih w

theorem mono (hp : e.Bound t R p) {R' : World → World → Prop} (hR : ∀ w w', R w w' → R' w w') :
    e.Bound t R' p := by
  induction hp with
  | intro hstep _ ih => exact .intro (fun w q w' h => hR w w' (hstep w q w' h)) ih

end Engine.Bound

/-- The steps of one thread in a log are as `R` allows. -/
def Deed.Allows (e : Engine) (t : TaskId) (R : World → World → Prop) (log : List Deed) : Prop :=
  ∀ p w q w', .performed t p w ∈ log → e.step t w p = some (q, w') → R w w'

theorem Deed.Allows.mono {R R' : World → World → Prop} (h : Deed.Allows e t R log)
    (hR : ∀ w w', R w w' → R' w w') : Deed.Allows e t R' log := fun p w q w' hmem hstep =>
  hR w w' (h p w q w' hmem hstep)

theorem Deed.Allows.append {R : World → World → Prop} (h : Deed.Allows e t R log)
    (h' : Deed.Allows e t R log') : Deed.Allows e t R (log ++ log') := fun p w q w' hmem =>
  (List.mem_append.1 hmem).elim (h p w q w') (h' p w q w')

/-- On a course the thread performs only steps of its execution. -/
theorem Course.own_steps {R : World → World → Prop} {p : Execution α} (hp : e.Bound t R p)
    {k : α → Execution Unit} {a : α} (hcourse : Course e t k m' m p log a) :
    Deed.Allows e t R log := by
  induction hcourse with
  | done _ hothers => exact fun q w _ _ hmem _ => absurd rfl (hothers _ hmem)
  | @step m m₁ p q w log log' a _ hothers _ hstep _ ih =>
    obtain ⟨hR, hrest⟩ := hp
    intro p' w' q' w'' hmem hstep'
    rcases List.mem_append.1 hmem with hmem | hmem
    · exact absurd rfl (hothers _ hmem)
    rcases List.mem_cons.1 hmem with heq | hmem
    · obtain ⟨-, rfl, rfl⟩ := Deed.performed.inj heq
      rw [Engine.step_bind e t _ k (by rintro a rfl; cases hstep), hstep] at hstep'
      obtain ⟨-, rfl⟩ := Prod.mk.inj (Option.some.inj hstep')
      exact hR _ _ _ hstep
    · exact ih (hrest _ _ _ hstep) p' w' q' w'' hmem hstep'

/-- Steps that start no tasks have started none. -/
theorem Deed.Allows.started_eq_nil (h : Deed.Allows e t (fun w w' => w'.taskCount = w.taskCount) log) :
    Deed.started e t log = [] := by
  refine List.flatMap_eq_nil_iff.2 fun d hd => ?_
  cases d with
  | dropped => rfl
  | performed u p w =>
    by_cases hu : u = t
    · subst hu
      simp only [if_true]
      cases hstep : e.step u w p with
      | none => rfl
      | some r => exact World.added_of_taskCount (h p w r.1 r.2 hd hstep)
    · exact if_neg hu

/-! ## A caller that keeps the turn -/

/-- The turn is where it was, and the same generations take tasks. -/
structure World.Steady (w w' : World) : Prop where
  holder : w'.turn.holder = w.turn.holder
  destroyed : ∀ n, w'.isDestroyed n = w.isDestroyed n

theorem World.Stays.of_view (h : w'.view = w.view) : w.Stays w' :=
  ⟨congrArg View.taskCount h, congrArg View.tabs h, congrArg View.holder h,
    fun n => congrArg (View.isDestroyed · n) h⟩

theorem World.Stays.steady (h : w.Stays w') : w.Steady w' := ⟨h.holder, h.destroyed⟩

theorem World.Steady.spawn (w : World) (n : Nat) (d : String) (ctx : Context) (j : Job) :
    w.Steady (w.spawn n d ctx j).2 := by
  have hview := World.view_spawn w n d ctx j
  refine ⟨?_, fun k => ?_⟩
  · refine (congrArg View.holder hview).trans ?_
    unfold View.spawn
    split
    · rfl
    · exact View.holder_modifyGeneration ..
  · unfold World.spawn
    split
    · rfl
    · refine isDestroyed_modifyGeneration (w.newTask j).2 n ?_ k
      exact fun _ => rfl

/-- No task more, and the turn is where it was. -/
structure World.Idles (w w' : World) : Prop where
  holder : w'.turn.holder = w.turn.holder
  taskCount : w'.taskCount = w.taskCount

theorem World.Stays.idles (h : w.Stays w') : w.Idles w' := ⟨h.holder, h.taskCount⟩

theorem World.Idles.of_view {v : View} (hview : w'.view = v) (hholder : v.holder = w.view.holder)
    (hcount : v.taskCount = w.view.taskCount) : w.Idles w' :=
  ⟨(congrArg View.holder hview).trans hholder, (congrArg View.taskCount hview).trans hcount⟩

/-- On a course whose steps leave the turn where it is the caller keeps it. If they let the same
generations take tasks, the same do after it. -/
theorem HasTurn.keeps (h : HasTurn e t m) (he : e.Orderly) {k : α → Execution Unit}
    {p : Execution α} {a : α} (hcourse : Course e t k m' m p log a)
    (hown : Deed.Allows e t (fun w w' => w'.turn.holder = w.turn.holder) log) :
    HasTurn e t m' ∧ ∀ n, Deed.Allows e t (fun w w' => w'.isDestroyed n = w.isDestroyed n) log →
      m'.world.isDestroyed n = m.world.isDestroyed n := by
  induction hcourse with
  | done hrun hothers =>
    obtain ⟨h', hbeside, -⟩ := h.others he hrun hothers
    exact ⟨h', fun n _ => hbeside.isDestroyed hbeside.le n⟩
  | @step m m₁ p q w log log' a hrun hothers hthread hstep _ ih =>
    obtain ⟨h₁, hbeside, -⟩ := h.others he hrun hothers
    have hstep' : e.step t m₁.world (p.bind k) = some (q.bind k, w) := by
      rw [Engine.step_bind e t _ k (by rintro a rfl; cases hstep), hstep]
      rfl
    have hown' : ∀ {R : World → World → Prop},
        Deed.Allows e t R (log ++ .performed t (p.bind k) m₁.world :: log') →
          R m₁.world w ∧ Deed.Allows e t R log' := fun hR =>
      ⟨hR _ _ _ _ (List.mem_append_right _ List.mem_cons_self) hstep',
        fun p w q w' hmem => hR p w q w' (List.mem_append_right _ (List.mem_cons_of_mem _ hmem))⟩
    obtain ⟨h', hsame⟩ := ih (h₁.move he (.perform hthread hstep')
      ((hown' hown).1.trans h₁.holder)) (hown' hown).2
    refine ⟨h', fun n hn => (hsame n (hown' hn).2).trans ?_⟩
    exact ((hown' hn).1).trans (hbeside.isDestroyed hbeside.le n)

/-- Who has a deed in a run was there by its end. -/
theorem Run.actor_lt (he : e.Orderly) {φ : TaskId → Stage} {ψ : TaskId → Stance}
    (hc : Conducted e log₀ m φ ψ) (hrun : Run e m log m') :
    ∀ d ∈ log, d.actor < m'.world.taskCount := by
  induction hrun with
  | refl => nofun
  | @move log ds m₁ m₂ hrun hmove ih =>
    obtain ⟨φ₁, ψ₁, hc₁, -⟩ := hc.extend he hrun
    obtain ⟨φ₂, ψ₂, hpass, -⟩ := hc₁.move he hmove
    have hcount : m₁.world.taskCount ≤ m₂.world.taskCount := (hpass.le hc₁.sound).taskCount
    intro d hd
    rcases List.mem_append.1 hd with hd | hd
    · exact Nat.lt_of_lt_of_le (ih d hd) hcount
    · cases hmove with
      | perform hp | drop _ hp =>
        obtain rfl := List.mem_singleton.1 hd
        exact Nat.lt_of_lt_of_le (Worker.lt_of_thread hc₁ hp) hcount
      | _ => cases hd

/-! ## Roots by how they are started -/

namespace Supervisor

/-- The roots that run once. -/
def onceRoots (sites : List Site) : List Site :=
  sites.filter fun s => Library.isOnce s.block.opcode

/-- The roots that get a task of their own. -/
def taskRoots (sites : List Site) : List Site :=
  sites.filter fun s => !Library.isOnce s.block.opcode

/-- The hats among them. -/
def hatRoots (e : Engine) (sites : List Site) : List Site :=
  (taskRoots sites).filter fun s => e.registry.kind? s.block.opcode = some .hat

/-- The others, commands and reporters. -/
def commandRoots (e : Engine) (sites : List Site) : List Site :=
  (taskRoots sites).filter fun s => !decide (e.registry.kind? s.block.opcode = some .hat)

/-- Every root is started in one way. -/
theorem roots_perm (e : Engine) (sites : List Site) :
    (onceRoots sites ++ (hatRoots e sites ++ commandRoots e sites)).Perm sites :=
  ((List.filter_append_perm _ (taskRoots sites)).append_left _).trans
    (List.filter_append_perm _ sites)

theorem startRoots_eq (e : Engine) (g : Generation) : startRoots e g =
    (rootSites g).bind fun sites => (handleAll (onceRoots sites)).bind fun _ =>
      (spawnRoots (hatRoots e sites)).bind fun started => Execution.look.bind fun w =>
        (Execution.pause (.allEnded started (w.clock + e.settings.pollInterval)) .done).bind fun _ =>
          (spawnRoots (commandRoots e sites)).bind fun _ => .done () := by
  unfold startRoots
  simp only [List.partition_eq_filter_filter]
  rfl

variable {g : Generation} {s : Site} {sites : List Site}

/-! ### Sites -/

theorem straight_rootSites {R : World → World → Prop} (hR : ∀ w : World, R w w.fresh.2)
    (g : Generation) : e.Straight t R (rootSites g) := by
  unfold rootSites
  generalize g.graph.roots = roots
  induction roots with
  | nil => exact .done []
  | cons b roots ih =>
    rw [List.mapM_cons]
    have hsite : e.Straight t R (rootSite g b) := .act hR fun _ => .done _
    exact hsite.bind fun _ => ih.bind fun _ => .done _

/-- The roots have one site each, in the order of the document. -/
theorem sites_of_rootSites {k : List Site → Execution Unit}
    (hcourse : Course e t k m' m (rootSites g) log sites) :
    sites.map Site.block = g.graph.roots ∧ ∀ s ∈ sites, s.generation = g := by
  unfold rootSites at hcourse
  generalize g.graph.roots = roots at hcourse
  induction roots generalizing m m' log sites k with
  | nil =>
    cases hcourse with
    | done => exact ⟨rfl, nofun⟩
    | step _ _ _ hstep => cases hstep
  | cons b roots ih =>
    rw [List.mapM_cons] at hcourse
    obtain ⟨m₁, log₁, log₂, s, rfl, hsite, hrest⟩ := Course.of_bind hcourse
    obtain ⟨m₂, log₃, log₄, rest, rfl, hsites, hdone⟩ := Course.of_bind hrest
    obtain ⟨hblocks, hown⟩ := ih hsites
    have hs : s.block = b ∧ s.generation = g := by
      cases hsite with
      | step _ _ _ hstep hlast =>
        obtain ⟨rfl, -⟩ := Prod.mk.inj (Option.some.inj hstep)
        cases hlast with
        | done => exact ⟨rfl, rfl⟩
        | step _ _ _ hstep => cases hstep
    cases hdone with
    | step _ _ _ hstep => cases hstep
    | done => exact ⟨by rw [List.map_cons, hblocks, hs.1], List.forall_mem_cons.2 ⟨hs.2, hown⟩⟩

/-! ### Tasks for sites -/

/-- In a log the thread `t` starts a task for each of some sites, one after the other, and performs
no other step. -/
inductive Assigned (e : Engine) (t : TaskId) : List (Site × TaskId) → List Deed → Prop
  | nil {log : List Deed} : (∀ d ∈ log, d.actor ≠ t) → Assigned e t [] log
  | cons {s : Site} {xs : List (Site × TaskId)} {log log' : List Deed} {p q : Execution Unit}
      {w : World} :
      (∀ d ∈ log, d.actor ≠ t) → w.isDestroyed s.generation.number = false →
      e.step t w p = some (q, (w.spawn s.generation.number s.description s.context (.root s)).2) →
      Assigned e t xs log' → Assigned e t ((s, w.taskCount) :: xs) (log ++ .performed t p w :: log')

namespace Assigned

variable {xs : List (Site × TaskId)}

theorem after_others (hlog : ∀ d ∈ log, d.actor ≠ t) (h : Assigned e t xs log') :
    Assigned e t xs (log ++ log') := by
  have hboth : ∀ log₁ : List Deed, (∀ d ∈ log₁, d.actor ≠ t) → ∀ d ∈ log ++ log₁, d.actor ≠ t :=
    fun log₁ h d hd => (List.mem_append.1 hd).elim (hlog d) (h d)
  cases h with
  | nil hothers => exact .nil (hboth _ hothers)
  | cons hothers hlive hstep hrest =>
    rw [← List.append_assoc]
    exact .cons (hboth _ hothers) hlive hstep hrest

theorem append {ys : List (Site × TaskId)} (h : Assigned e t xs log) (h' : Assigned e t ys log') :
    Assigned e t (xs ++ ys) (log ++ log') := by
  induction h with
  | nil hothers => exact h'.after_others hothers
  | cons hothers hlive hstep _ ih =>
    rw [List.append_assoc]
    exact .cons hothers hlive hstep ih

/-- These are the tasks that the thread has started. -/
theorem started (h : Assigned e t xs log) :
    Deed.started e t log = xs.map fun x => (x.2, .root x.1) := by
  induction h with
  | nil hothers => exact Deed.started_of_others fun p w hmem => hothers _ hmem rfl
  | @cons s xs log log' p q w hothers hlive hstep _ ih =>
    obtain ⟨-, hstarted⟩ := Course.deeds_of_others (e := e) hothers p w log'
    rw [hstarted, ih, Deed.started_performed hstep, World.added_spawn, hlive]
    rfl

/-- Each task was started by a deed of the log, and was tracked from then on. -/
theorem split (h : Assigned e t xs log) {x : Site × TaskId} (hx : x ∈ xs) :
    ∃ log₁ p w q log₂, log = log₁ ++ .performed t p w :: log₂ ∧
      w.isDestroyed x.1.generation.number = false ∧ x.2 = w.taskCount ∧
      e.step t w p = some (q,
        (w.spawn x.1.generation.number x.1.description x.1.context (.root x.1)).2) := by
  induction h with
  | nil => cases hx
  | @cons s xs log log' p q w _ hlive hstep _ ih =>
    rcases List.mem_cons.1 hx with rfl | hx
    · exact ⟨log, p, w, q, log', rfl, hlive, rfl, hstep⟩
    · obtain ⟨log₁, p', w', q', log₂, rfl, hrest⟩ := ih hx
      exact ⟨log ++ .performed t p w :: log₁, p', w', q', log₂, by simp, hrest⟩

end Assigned

/-- The numbers of the tasks lie between two counts, in ascending order. -/
structure Numbered (xs : List (Site × TaskId)) (low high : Nat) : Prop where
  le : low ≤ high
  between : ∀ x ∈ xs, low ≤ x.2 ∧ x.2 < high
  ascending : (xs.map Prod.snd).Pairwise (· < ·)

theorem Numbered.cons {xs : List (Site × TaskId)} {i low low' high high' : Nat}
    (h : Numbered xs low' high) (hlow : low ≤ i) (hnext : i + 1 ≤ low') (hhigh : high ≤ high') :
    Numbered ((s, i) :: xs) low high' where
  le := Nat.le_trans hlow (Nat.le_trans (Nat.le_of_succ_le hnext) (Nat.le_trans h.le hhigh))
  between := by
    refine List.forall_mem_cons.2 ⟨⟨hlow, ?_⟩, fun x hx => ?_⟩
    · exact Nat.lt_of_lt_of_le hnext (Nat.le_trans h.le hhigh)
    · obtain ⟨hle, hlt⟩ := h.between x hx
      exact ⟨by omega, Nat.lt_of_lt_of_le hlt hhigh⟩
  ascending := by
    refine List.pairwise_cons.2 ⟨fun j hj => ?_, h.ascending⟩
    obtain ⟨x, hx, rfl⟩ := List.mem_map.1 hj
    exact Nat.lt_of_lt_of_le hnext (h.between x hx).1

theorem Numbered.append {xs ys : List (Site × TaskId)} {low mid mid' high : Nat}
    (h : Numbered xs low mid) (h' : Numbered ys mid' high) (hmid : mid ≤ mid') :
    Numbered (xs ++ ys) low high where
  le := Nat.le_trans h.le (Nat.le_trans hmid h'.le)
  between x hx := by
    rcases List.mem_append.1 hx with hx | hx
    · obtain ⟨hle, hlt⟩ := h.between x hx
      exact ⟨hle, Nat.lt_of_lt_of_le hlt (Nat.le_trans hmid h'.le)⟩
    · obtain ⟨hle, hlt⟩ := h'.between x hx
      exact ⟨Nat.le_trans h.le (Nat.le_trans hmid hle), hlt⟩
  ascending := by
    rw [List.map_append]
    refine List.pairwise_append.2 ⟨h.ascending, h'.ascending, fun i hi j hj => ?_⟩
    obtain ⟨x, hx, rfl⟩ := List.mem_map.1 hi
    obtain ⟨y, hy, rfl⟩ := List.mem_map.1 hj
    exact Nat.lt_of_lt_of_le (h.between x hx).2 (Nat.le_trans hmid (h'.between y hy).1)

/-- A caller that has the turn starts a task for each of some sites, in this order. -/
theorem assigned_of_spawns (he : e.Orderly) (h : HasTurn e t m)
    (hsites : ∀ s ∈ sites, m.world.isDestroyed s.generation.number = false)
    {k : List (Option TaskId) → Execution Unit} {us : List (Option TaskId)}
    (hcourse : Course e t k m' m
      (sites.mapM fun s => Execution.spawn s s.context (.root s)) log us) :
    ∃ xs : List (Site × TaskId), xs.map Prod.fst = sites ∧ Assigned e t xs log ∧
      Numbered xs m.world.taskCount m'.world.taskCount ∧ HasTurn e t m' ∧
      ∀ n, m'.world.isDestroyed n = m.world.isDestroyed n := by
  induction sites generalizing m m' log us k with
  | nil =>
    cases hcourse with
    | step _ _ _ hstep => cases hstep
    | done hrun hothers =>
      obtain ⟨h', hbeside, -⟩ := h.others he hrun hothers
      exact ⟨[], rfl, .nil hothers, ⟨hbeside.le.taskCount, nofun, .nil⟩, h',
        fun n => hbeside.isDestroyed hbeside.le n⟩
  | cons s sites ih =>
    rw [List.mapM_cons] at hcourse
    obtain ⟨m₁, log₁, log₂, u, rfl, hspawn, hrest⟩ := Course.of_bind hcourse
    obtain ⟨m₂, log₃, log₄, rest, rfl, hspawns, hdone⟩ := Course.of_bind hrest
    have hone : (Execution.spawn s s.context (.root s)).IsSingle e t :=
      .atomically fun w => (World.Steady.spawn w _ _ _ _).holder
    obtain ⟨loga, ma, mb, logb, hsingle⟩ := h.single he hone hspawn
    obtain ⟨r, rfl, hmove⟩ := hsingle.through.step
    have hlive : ma.world.isDestroyed s.generation.number = false :=
      (hsingle.before.isDestroyed hsingle.before.le _).trans (hsites s List.mem_cons_self)
    have hworld : mb.world =
        (ma.world.spawn s.generation.number s.description s.context (.root s)).2 :=
      (Prod.mk.inj (Option.some.inj hsingle.step)).2.symm
    have hsteady : ma.world.Steady mb.world := hworld ▸ .spawn ..
    have hsame : ∀ n, m₁.world.isDestroyed n = m.world.isDestroyed n := fun n =>
      (hsingle.after.isDestroyed hsingle.after.le n).trans
        ((hsteady.destroyed n).trans (hsingle.before.isDestroyed hsingle.before.le n))
    obtain ⟨xs, hfst, hassigned, hnumbered, h', hsame'⟩ := ih hsingle.turn
      (fun s' hs' => (hsame _).trans (hsites s' (List.mem_cons_of_mem _ hs'))) hspawns
    cases hdone with
    | step _ _ _ hstep => cases hstep
    | done hrun hothers =>
      obtain ⟨h'', hbeside, -⟩ := h'.others he hrun hothers
      have hcount : ma.world.taskCount + 1 ≤ m₁.world.taskCount := by
        have hspawned := (World.spawn_spec hlive s.description s.context (.root s)).2.1
        rw [← hworld] at hspawned
        exact hspawned ▸ hsingle.after.le.taskCount
      have hfirst : Assigned e t [(s, ma.world.taskCount)]
          (loga ++ .performed t r ma.world :: logb) := by
        cases hmove with
        | @perform _ _ q w _ hstep =>
          have hstep' := hstep.trans (congrArg (fun w => some (q, w)) hworld)
          exact .cons hsingle.others₁.1 hlive hstep' (.nil hsingle.others₂.1)
      refine ⟨(s, ma.world.taskCount) :: xs, by rw [List.map_cons, hfst],
        hfirst.append (by simpa using hassigned.append (.nil hothers)), ?_, h'',
        fun n => (hbeside.isDestroyed hbeside.le n).trans ((hsame' n).trans (hsame n))⟩
      exact hnumbered.cons hsingle.before.le.taskCount hcount hbeside.le.taskCount

/-! ## What a reload does with the roots -/

/-- What the thread `t` does with the roots of a generation in a log: it handles those that run once
one after the other, without a task; then it starts one task for each hat and, after a wait, one for
each other root, and no more. Until the first ones have been handled none of these tasks does
anything. -/
structure RootsStarted (e : Engine) (t : TaskId) (g : Generation) (sites : List Site)
    (hats commands : List (Site × TaskId)) (log : List Deed) : Prop where
  roots : sites.map Site.block = g.graph.roots
  own : ∀ s ∈ sites, s.generation = g
  sites_hats : hats.map Prod.fst = hatRoots e sites
  sites_commands : commands.map Prod.fst = commandRoots e sites
  ascending : ((hats ++ commands).map Prod.snd).Pairwise (· < ·)
  started : Deed.started e t log = (hats ++ commands).map fun x => (x.2, .root x.1)
  phases : ∃ before once first wait second after v,
    log = before ++ once ++ first ++ wait ++ second ++ after ∧
    Performs e t v (handleAll (onceRoots sites)) (Deed.statesOf t once) [] () ∧
    Assigned e t hats first ∧ Assigned e t commands second ∧
    ∀ x ∈ hats ++ commands, ∀ d ∈ before ++ once, d.actor ≠ x.2

/-- Before and after it the thread may do other things, if it starts no task. -/
theorem RootsStarted.extend {hats commands : List (Site × TaskId)} {log₁ log₂ : List Deed}
    (h : RootsStarted e t g sites hats commands log) (hnone₁ : Deed.started e t log₁ = [])
    (hothers : ∀ x ∈ hats ++ commands, ∀ d ∈ log₁, d.actor ≠ x.2)
    (hnone₂ : Deed.started e t log₂ = []) :
    RootsStarted e t g sites hats commands (log₁ ++ log ++ log₂) :=
  { h with
    started := by rw [Deed.started_append, Deed.started_append, hnone₁, hnone₂, h.started]; simp
    phases := by
      obtain ⟨before, once, first, wait, second, after, v, rfl, hphases, hfirst, hsecond, hnot⟩ :=
        h.phases
      refine ⟨log₁ ++ before, once, first, wait, second, after ++ log₂, v, by simp, hphases, hfirst,
        hsecond, fun x hx d hd => ?_⟩
      rw [List.append_assoc] at hd
      exact (List.mem_append.1 hd).elim (hothers x hx d) (hnot x hx d) }

/-- To handle the roots that run once is straight. -/
theorem straight_handleAll (he : e.HasCore) {R : World → World → Prop}
    (hR : ∀ s ∈ sites, HatRule s R) : e.Straight t R (handleAll (onceRoots sites)) := by
  have honce : ∀ s ∈ onceRoots sites, HatRule s R ∧ Library.isOnce s.block.opcode = true :=
    fun s hs => (List.mem_filter.1 hs).imp_left (hR s)
  generalize onceRoots sites = once at honce
  induction once with
  | nil => exact .done ()
  | cons s once ih =>
    obtain ⟨hrule, hs⟩ := honce s List.mem_cons_self
    exact (he.straight_conclude (he.isHat_of_once hs)).bind fun _ =>
      ih fun s' hs' => honce s' (List.mem_cons_of_mem _ hs')

/-- To start a task for each of some sites. -/
theorem assigned_of_spawnRoots (he : e.Orderly) (h : HasTurn e t m)
    (hlive : m.world.isDestroyed g.number = false) (hsites : ∀ s ∈ sites, s.generation = g)
    {k : List TaskId → Execution Unit} {us : List TaskId}
    (hcourse : Course e t k m' m (spawnRoots sites) log us) :
    ∃ xs : List (Site × TaskId), xs.map Prod.fst = sites ∧ Assigned e t xs log ∧
      Numbered xs m.world.taskCount m'.world.taskCount ∧ HasTurn e t m' ∧
      m'.world.isDestroyed g.number = false := by
  obtain ⟨m₁, log₁, log₂, us', rfl, hspawns, hdone⟩ := Course.of_bind hcourse
  obtain ⟨xs, hfst, hassigned, hnumbered, h₁, hsame⟩ := assigned_of_spawns he h
    (fun s hs => by rw [hsites s hs]; exact hlive) hspawns
  cases hdone with
  | step _ _ _ hstep => cases hstep
  | done hrun hothers =>
    obtain ⟨h', hbeside, -⟩ := h₁.others he hrun hothers
    refine ⟨xs, hfst, by simpa using hassigned.append (.nil hothers), ?_, h',
      (hbeside.isDestroyed hbeside.le _).trans ((hsame _).trans hlive)⟩
    exact { hnumbered with
      le := Nat.le_trans hnumbered.le hbeside.le.taskCount
      between := fun x hx => ⟨(hnumbered.between x hx).1,
        Nat.lt_of_lt_of_le (hnumbered.between x hx).2 hbeside.le.taskCount⟩ }

/-- A caller that has the turn starts the roots of a generation that takes tasks. -/
theorem rootsStarted_of_startRoots (he : e.HasCore) (h : HasTurn e t m)
    (hlive : m.world.isDestroyed g.number = false) {k : Unit → Execution Unit} {u : Unit}
    (hcourse : Course e t k m' m (startRoots e g) log u) :
    ∃ sites hats commands, RootsStarted e t g sites hats commands log ∧
      (∀ x ∈ hats ++ commands, m.world.taskCount ≤ x.2) ∧ HasTurn e t m' := by
  have horderly := Engine.orderly_of_core he
  rw [startRoots_eq] at hcourse
  obtain ⟨m₁, log₁, logb, sites, rfl, hsites, hcourse⟩ := hcourse.of_bind
  obtain ⟨m₂, log₂, logc, u₂, rfl, honce, hcourse⟩ := hcourse.of_bind
  obtain ⟨m₃, log₃, logd, started, rfl, hhats, hcourse⟩ := hcourse.of_bind
  obtain ⟨m₄, log₄, loge, w, rfl, hlook, hcourse⟩ := hcourse.of_bind
  obtain ⟨m₅, log₅, logf, u₅, rfl, hwait, hcourse⟩ := hcourse.of_bind
  obtain ⟨m₆, log₆, log₇, cs, rfl, hcommands, hdone⟩ := hcourse.of_bind
  obtain ⟨hroots, hown⟩ := sites_of_rootSites hsites
  have hquiet : ∀ {γ : Type} {p : Execution γ} {ma mb : Machine} {l : List Deed}
      {k : γ → Execution Unit} {a : γ}, e.Bound t World.Stays p → HasTurn e t ma →
      Course e t k mb ma p l a → HasTurn e t mb ∧ Deed.started e t l = [] ∧
        mb.world.isDestroyed g.number = ma.world.isDestroyed g.number := by
    intro γ p ma mb l k a hp hturn hc
    have hown := hc.own_steps hp
    obtain ⟨hturn', hsame⟩ := hturn.keeps horderly hc fun q w q' w' hmem hstep =>
      (hown q w q' w' hmem hstep).holder
    exact ⟨hturn', Deed.Allows.started_eq_nil fun q w q' w' hmem hstep =>
      (hown q w q' w' hmem hstep).taskCount, hsame _ fun q w q' w' hmem hstep =>
        (hown q w q' w' hmem hstep).destroyed _⟩
  have hrootSites : e.Straight t World.Stays (rootSites g) :=
    straight_rootSites (fun _ => ⟨rfl, rfl, rfl, fun _ => rfl⟩) g
  obtain ⟨h₁, hnone₁, hsame₁⟩ := hquiet (.of_straight hrootSites) h hsites
  obtain ⟨h₂, hnone₂, hsame₂⟩ := hquiet
    (.of_straight (straight_handleAll he fun _ _ => inferInstance)) h₁ honce
  have hlive₂ := hsame₂.trans (hsame₁.trans hlive)
  obtain ⟨hats, hfst, hassigned, hnumbered, h₃, hlive₃⟩ := assigned_of_spawnRoots horderly h₂ hlive₂
    (fun s hs => hown s (List.mem_filter.1 (List.mem_filter.1 hs).1).1) hhats
  obtain ⟨h₄, hnone₄, hsame₄⟩ := hquiet (.act .refl fun w => .done w) h₃ hlook
  obtain ⟨h₅, hnone₅, hsame₅⟩ := hquiet
    (.pause (fun w => .of_view (World.view_settle w t (.allEnded _ _))) fun r => .done r) h₄ hwait
  obtain ⟨commands, hfst', hassigned', hnumbered', h₆, -⟩ := assigned_of_spawnRoots horderly h₅
    (hsame₅.trans (hsame₄.trans hlive₃))
    (fun s hs => hown s (List.mem_filter.1 (List.mem_filter.1 hs).1).1) hcommands
  obtain ⟨h₇, hnone₇, -⟩ := hquiet (.done ()) h₆ hdone
  obtain ⟨log₀, φ, ψ, hc⟩ := h.conducted horderly
  obtain ⟨log₁', φ₁, ψ₁, hc₁⟩ := h₁.conducted horderly
  obtain ⟨hhandled, -⟩ := honce.performs horderly hc₁
  rw [hnone₂] at hhandled
  obtain ⟨log₃', φ₃, ψ₃, hc₃⟩ := h₃.conducted horderly
  have hbefore := (hsites.run.trans honce.run).actor_lt horderly hc
  obtain ⟨-, -, -, hle₂⟩ := hc.extend horderly (hsites.run.trans honce.run)
  obtain ⟨-, -, -, hle₅⟩ := hc₃.extend horderly (hlook.run.trans hwait.run)
  have hall := hnumbered.append hnumbered' hle₅.taskCount
  refine ⟨sites, hats, commands, ⟨hroots, hown, hfst, hfst', hall.ascending, ?_, log₁, log₂, log₃,
    log₄ ++ log₅, log₆, log₇, _, by simp, hhandled, hassigned, hassigned', fun x hx d hd => ?_⟩,
    fun x hx => Nat.le_trans hle₂.taskCount (hall.between x hx).1, h₇⟩
  · simp only [Deed.started_append, hnone₁, hnone₂, hnone₄, hnone₅, hnone₇, hassigned.started,
      hassigned'.started, List.nil_append, List.append_nil, List.map_append]
  · exact Nat.ne_of_lt (Nat.lt_of_lt_of_le (hbefore d hd) (hall.between x hx).1)

/-! ### The parts of a reload -/

/-- What a reload does when it has tried to start a generation. -/
def install (id name : String) : Except EngineError (Option Generation) → Request Unit
  | .ok g =>
    modifyTab id fun entry =>
      { entry with
        status := if g.isSome then .running else .unloaded
        generation := g }
  | .error err => do
    Execution.change fun w =>
      w.notify .error (some id) s!"Unable to load tab '{name}': {err.message}"
    modifyTab id fun entry => { entry with status := .stopped (some err.message) }
    throw (.engine err)

/-- What a reload does when the generation before has been torn down. -/
def renew (e : Engine) (id : String) (old : TabEntry) : Request Unit := do
  modifyTab id fun entry => { entry with status := .parsing }
  install id old.name (← (ExceptT.run (start e id old.name old.content) :
    Execution (Except EngineError (Option Generation))))

theorem run_reload (e : Engine) (id : String) : ExceptT.run (reload e id) =
    (Execution.pause .turn .done).bind fun _ =>
      ((ExceptT.run (clear (retire id .reloading) id)).bind fun
        | .ok old => ExceptT.run (renew e id old)
        | .error err => .done (.error err)).bind fun r =>
          (Execution.change World.passTurn).bind fun _ => .done r := by
  have hparts : ExceptT.run (reload e id) = alone (ExceptT.run (retire id .reloading >>= fun old =>
      liftM (teardown id old.generation) >>= fun _ => renew e id old)) := rfl
  rw [hparts, Call.Clears.run_teardown]
  rfl

/-- The roots of a graph are started in a new generation. -/
theorem run_start {id name content : String} {graph : Graph}
    (hgraph : contentGraph? content = .ok (some graph)) :
    ExceptT.run (start e id name content) =
      (declareVariables graph.declaredVariables).bind fun _ =>
        (Execution.atomically fun w => w.newGeneration id name graph).bind fun g =>
          (startRoots e g).bind fun _ => .done (.ok (some g)) := by
  unfold start
  rw [hgraph]
  change ((declareVariables _).bind _).bind _ = _
  rw [Execution.bind_assoc]
  congr 1
  funext _
  change ((Execution.atomically _).bind _).bind _ = _
  rw [Execution.bind_assoc]
  congr 1
  funext g
  change ((startRoots e g).bind _).bind _ = _
  rw [Execution.bind_assoc]
  rfl

theorem run_renew (e : Engine) (id : String) (old : TabEntry) : ExceptT.run (renew e id old) =
    (modifyTab id fun entry => { entry with status := .parsing }).bind fun _ =>
      (ExceptT.run (start e id old.name old.content)).bind fun r =>
        ExceptT.run (install id old.name r) := by
  change ((modifyTab id _).bind _).bind _ = _
  rw [Execution.bind_assoc]
  congr 1
  funext _
  change ((ExceptT.run (start e id old.name old.content)).bind _).bind _ = _
  rw [Execution.bind_assoc]
  rfl

/-! ### Steps that start no task -/

theorem idles_modifyTab (w : World) (id : String) (f : TabEntry → TabEntry) :
    w.Idles (w.modifyTab id f) := by
  unfold World.modifyTab
  split <;> exact ⟨rfl, rfl⟩

theorem bound_modifyTab (id : String) (f : TabEntry → TabEntry) :
    e.Bound t World.Idles (modifyTab id f) := .change fun w => idles_modifyTab w id f

theorem bound_install (id name : String) (r : Except EngineError (Option Generation)) :
    e.Bound t World.Idles (ExceptT.run (install id name r)) := by
  cases r with
  | ok g => exact (bound_modifyTab id _).lift
  | error err =>
    exact .attempt (.lift (.change fun w => ⟨rfl, rfl⟩)) fun _ =>
      .attempt (bound_modifyTab id _).lift fun _ => .done _

theorem bound_retire (id : String) (status : TabStatus) :
    e.Bound t World.Idles (ExceptT.run (retire id status)) := by
  refine .atomically fun w => ?_
  split
  · exact idles_modifyTab w id _
  · exact ⟨rfl, rfl⟩

/-- A rule that allows the steps of a teardown of `g` in a tab. -/
class TeardownRule (tab : String) (g : Option Generation) (R : World → World → Prop) : Prop where
  releaseLocks (w : World) : R w (w.releaseLocks tab)
  releaseBlocks (w : World) {x : Generation} : g = some x → R w (w.releaseBlocks x.number).2
  destroy (w : World) {x : Generation} : g = some x → R w (w.destroy x.number).2
  cancel (w : World) (u : TaskId) : R w (w.cancel u)
  ended (w : World) (t u : TaskId) : R w (w.settle t (.ended u))

section

variable {R : World → World → Prop}

theorem bound_endTasks (tab : String) (g : Option Generation) [TeardownRule tab g R]
    {x : Generation} (hx : g = some x) : e.Bound t R (endTasks x) := by
  have hcancel : ∀ ts : List TaskId, e.Bound t R (cancelAll ts) := by
    intro ts
    induction ts with
    | nil => exact .done ()
    | cons u ts ih => exact (Engine.Bound.change fun w => TeardownRule.cancel tab g w u).bind fun _ => ih
  have hawait : ∀ ts : List TaskId, e.Bound t R (awaitAll ts) := by
    intro ts
    induction ts with
    | nil => exact .done ()
    | cons u ts ih => exact .pause (fun w => TeardownRule.ended tab g w t u) fun _ => ih
  exact (Engine.Bound.atomically fun w => TeardownRule.destroy tab w hx).bind fun ts =>
    (hcancel ts).bind fun _ => hawait ts

theorem bound_teardown (tab : String) (g : Option Generation) [TeardownRule tab g R] :
    e.Bound t R (teardown tab g) := by
  have hrelease : e.Bound t R (Execution.change (·.releaseLocks tab)) :=
    .change fun w => TeardownRule.releaseLocks g w
  rw [teardown_eq]
  refine hrelease.bind fun _ => ?_
  cases hg : g with
  | none => exact hrelease
  | some x =>
    exact .bind (.atomically fun w => TeardownRule.releaseBlocks tab w hg) fun _ =>
      (bound_endTasks tab g hg).bind fun _ => hrelease

end

instance (tab : String) (g : Option Generation) : TeardownRule tab g World.Idles where
  releaseLocks w := .of_view (World.view_releaseLocks w tab) rfl rfl
  releaseBlocks w x _ := .of_view (view_releaseBlocks w x.number) (View.holder_modifyGeneration ..)
    (View.taskCount_modifyGeneration ..)
  destroy w x _ := .of_view (view_destroy w x.number) (View.holder_modifyGeneration ..)
    (View.taskCount_modifyGeneration ..)
  cancel w u := .of_view (World.view_cancel w u) (View.cancelAll_spec w.view [u]).2.2.1 rfl
  ended w t u := .of_view (World.view_settle w t (.ended u)) rfl rfl

theorem bound_clear (id : String) (status : TabStatus) :
    e.Bound t World.Idles (ExceptT.run (clear (retire id status) id)) := by
  rw [run_clear]
  refine (bound_retire id status).bind fun r => ?_
  cases r with
  | ok old => exact (bound_teardown id old.generation).bind fun _ => .done _
  | error err => exact .done _

/-- A part of a caller's work that starts no task and leaves it the turn. -/
theorem idles_on_course (he : e.Orderly) (h : HasTurn e t m) {p : Execution α}
    (hp : e.Bound t World.Idles p) {k : α → Execution Unit} {a : α}
    (hcourse : Course e t k m' m p log a) : HasTurn e t m' ∧ Deed.started e t log = [] := by
  have hown := hcourse.own_steps hp
  exact ⟨(h.keeps he hcourse fun q w q' w' hmem hstep => (hown q w q' w' hmem hstep).holder).1,
    Deed.Allows.started_eq_nil fun q w q' w' hmem hstep => (hown q w q' w' hmem hstep).taskCount⟩

/-- A caller that has the turn finds the entry of the tab in the first state, when it takes the
generation out. -/
theorem entry_of_clear (h : HasTurn e t m) (he : e.Orderly) {id : String} {take : Request TabEntry}
    (htakes : Takes id take) {k : Except SupervisorError TabEntry → Execution Unit} {old : TabEntry}
    (hcourse : Course e t k m' m (ExceptT.run (clear take id)) log (.ok old)) :
    ∃ w ws, Deed.statesOf t log = w :: ws ∧ w.tab? id = some old := by
  rw [run_clear] at hcourse
  obtain ⟨m₁, log₁, log₂, r, rfl, htake, hrest⟩ := hcourse.of_bind
  obtain ⟨loga, ma, mb, logb, hsingle⟩ := h.single he htakes.isSingle htake
  obtain ⟨q, rfl, -⟩ := hsingle.through.step
  have hstates := (Course.deeds_of_others (e := e) hsingle.others₁.1 q ma.world (logb ++ log₂)).1
  refine ⟨ma.world, _, by rwa [List.append_assoc, List.cons_append], ?_⟩
  cases r with
  | error err => cases hrest with
    | step _ _ _ hstep => cases hstep
  | ok entry =>
    obtain ⟨m₂, log₃, log₄, u, rfl, -, hdone⟩ := hrest.of_bind
    cases hdone with
    | step _ _ _ hstep => cases hstep
    | done => exact (htakes.step hsingle.step).1

theorem bound_passTurn (r : β) : e.Bound t (fun w w' => w'.taskCount = w.taskCount)
    ((Execution.change World.passTurn).bind fun _ => .done r) :=
  .bind (.change fun w => congrArg View.taskCount (World.view_passTurn w)) fun _ => .done r

/-- A new generation takes tasks. -/
theorem isDestroyed_newGeneration (w : World) (id name : String) (graph : Graph) :
    (w.newGeneration id name graph).2.isDestroyed w.issued = false := by
  simp [World.newGeneration, World.fresh, World.isDestroyed, World.generation?,
    GenerationState.new]

/-- The roots of a graph are started in a new generation of the tab. -/
theorem rootsStarted_of_start (he : e.HasCore) (h : HasTurn e t m) {id name content : String}
    {graph : Graph} (hgraph : contentGraph? content = .ok (some graph))
    {k : Except EngineError (Option Generation) → Execution Unit}
    {r : Except EngineError (Option Generation)}
    (hcourse : Course e t k m' m (ExceptT.run (start e id name content)) log r) :
    ∃ g sites hats commands, g.graph = graph ∧ g.tab = id ∧
      RootsStarted e t g sites hats commands log ∧
      ∀ x ∈ hats ++ commands, m.world.taskCount ≤ x.2 := by
  have horderly := Engine.orderly_of_core he
  rw [run_start hgraph] at hcourse
  obtain ⟨m₁, log₁, logb, u, rfl, hdeclare, hcourse⟩ := hcourse.of_bind
  obtain ⟨m₂, log₂, logc, g, rfl, hnew, hcourse⟩ := hcourse.of_bind
  obtain ⟨m₃, log₃, log₄, u', rfl, hstart, hdone⟩ := hcourse.of_bind
  have hdeclares : e.Bound t World.Idles (declareVariables graph.declaredVariables) :=
    .change fun w => ⟨rfl, rfl⟩
  obtain ⟨h₁, hnone₁⟩ := idles_on_course horderly h hdeclares hdeclare
  have hnone₂ := (hnew.own_steps (R := fun w w' => w'.taskCount = w.taskCount)
    (.atomically fun w => rfl)).started_eq_nil
  obtain ⟨loga, ma, mb, logd, hsingle⟩ := h₁.single horderly (.atomically fun w => rfl) hnew
  obtain ⟨hg, hworld⟩ := Prod.mk.inj (Option.some.inj hsingle.step)
  obtain rfl := Execution.done.inj hg
  have hlive : m₂.world.isDestroyed ma.world.issued = false := by
    refine (hsingle.after.isDestroyed hsingle.after.le _).trans ?_
    rw [← hworld]
    exact isDestroyed_newGeneration ma.world id name graph
  obtain ⟨sites, hats, commands, hroots, hcount, -⟩ :=
    rootsStarted_of_startRoots he hsingle.turn hlive hstart
  obtain ⟨log₀, φ, ψ, hc⟩ := h.conducted horderly
  have hbefore := (hdeclare.run.trans hnew.run).actor_lt horderly hc
  obtain ⟨-, -, -, hle⟩ := hc.extend horderly (hdeclare.run.trans hnew.run)
  have hfirst : ∀ x ∈ hats ++ commands, ∀ d ∈ log₁ ++ log₂, d.actor ≠ x.2 := fun x hx d hd =>
    Nat.ne_of_lt (Nat.lt_of_lt_of_le (hbefore d hd) (hcount x hx))
  have hnone : Deed.started e t (log₁ ++ log₂) = [] := by
    rw [Deed.started_append, hnone₁, hnone₂, List.nil_append]
  cases hdone with
  | step _ _ _ hstep => cases hstep
  | done hrun hothers =>
    have hlast : Deed.started e t log₄ = [] :=
      Deed.started_of_others fun p w hmem => hothers _ hmem rfl
    refine ⟨(ma.world.newGeneration id name graph).1, sites, hats, commands, rfl, rfl, ?_,
      fun x hx => Nat.le_trans hle.taskCount (hcount x hx)⟩
    simpa using hroots.extend hnone hfirst hlast

/-- A caller that has waited for its turn has it. -/
theorem hasTurn_of_turn (he : e.Orderly) {capacity : Nat}
    (hreached : Run e (.start capacity) log₀ m) (hcaller : m.world.IsCaller t)
    {k : Unit → Execution Unit} {u : Unit}
    (hcourse : Course e t k m' m (.pause .turn .done) log u) :
    HasTurn e t m' ∧ Deed.started e t log = [] ∧ ∃ w, Deed.statesOf t log = [w] := by
  have hone : ∀ w (q : Execution Unit) w',
      e.step t w (.pause .turn .done) = some (q, w') → w' = w.settle t .turn ∧ ∃ a, q = .done a := by
    intro w q w' hstep
    obtain ⟨r, -, heq⟩ := Option.map_eq_some_iff.1 hstep
    obtain ⟨rfl, rfl⟩ := Prod.mk.inj heq
    exact ⟨rfl, _, rfl⟩
  have hbound : e.Bound t (fun w w' => w'.taskCount = w.taskCount)
      (.pause .turn Execution.done) :=
    .pause (fun w => congrArg View.taskCount (World.view_settle w t .turn)) fun _ => .done ()
  have hnone := (hcourse.own_steps hbound).started_eq_nil
  obtain ⟨m₁, log₁, log₂, q, w, rfl, hstep, hrun₁, hothers₁, hmove, hrun₂, hothers₂⟩ :=
    hcourse.of_single nofun fun w q w' h => (hone w q w' h).2
  obtain ⟨rfl, -⟩ := hone _ _ _ hstep
  have hreached₁ := (hreached.trans hrun₁).move hmove
  obtain ⟨φ, ψ, hc⟩ := Conducted.run he hreached
  obtain ⟨-, -, -, hle⟩ := hc.extend he (hrun₁.move hmove)
  have h₁ : HasTurn e t ⟨m₁.world.settle t .turn, m₁.threads.insert t (k u)⟩ :=
    ⟨⟨⟨capacity, _, hreached₁⟩, Reached.isCaller_of_le hcaller hle⟩,
      congrArg View.holder (World.view_settle m₁.world t .turn)⟩
  refine ⟨(h₁.others he hrun₂ hothers₂).1, hnone, m₁.world, ?_⟩
  rw [(Course.deeds_of_others (e := e) hothers₁ q m₁.world log₂).1,
    Deed.statesOf_of_others hothers₂]

/-- A reload starts the roots of the graph of the content that it finds. -/
theorem rootsStarted_of_reload (he : e.HasCore) {capacity : Nat} {id : String}
    (hreached : Run e (.start capacity) log₀ m) (hcaller : m.world.IsCaller t)
    {k : Except SupervisorError Unit → Execution Unit}
    (hcourse : Course e t k m' m (ExceptT.run (reload e id)) log (.ok ())) {old : TabEntry}
    {graph : Graph} (hstate : (Deed.statesOf t log)[1]? = some w) (hold : w.tab? id = some old)
    (hgraph : contentGraph? old.content = .ok (some graph)) :
    ∃ g sites hats commands, g.graph = graph ∧ g.tab = id ∧
      RootsStarted e t g sites hats commands log := by
  have horderly := Engine.orderly_of_core he
  rw [run_reload] at hcourse
  obtain ⟨m₁, log₁, logb, u, rfl, hturn, hcourse⟩ := hcourse.of_bind
  obtain ⟨m₂, logb, log₇, r, rfl, hcourse, hpass⟩ := hcourse.of_bind
  obtain ⟨m₃, log₂, logc, entry, rfl, hclear, hcourse⟩ := hcourse.of_bind
  obtain ⟨h₁, hnone₁, wturn, hstates₁⟩ := hasTurn_of_turn horderly hreached hcaller hturn
  obtain ⟨h₃, hnone₂⟩ := idles_on_course horderly h₁ (bound_clear id .reloading) hclear
  have hnone₇ := (hpass.own_steps (bound_passTurn r)).started_eq_nil
  obtain ⟨m₄, log₅, log₆, u', rfl, -, hdone⟩ := hpass.of_bind
  cases hdone with
  | step _ _ _ hstep => cases hstep
  | done =>
  cases entry with
  | error err => cases hcourse with
    | step _ _ _ hstep => cases hstep
  | ok found =>
    obtain ⟨w₂, ws, hstates₂, hfound⟩ := entry_of_clear h₁ horderly (.retire _) hclear
    obtain rfl : w₂ = w := by simpa [Deed.statesOf_append, hstates₁, hstates₂] using hstate
    obtain rfl : found = old := Option.some.inj (hfound.symm.trans hold)
    simp only [run_renew] at hcourse
    obtain ⟨ma, loga, logb, _, rfl, hmark, hcourse⟩ := hcourse.of_bind
    obtain ⟨mb, logb, logz, r, rfl, hstart, hinstall⟩ := hcourse.of_bind
    obtain ⟨ha, hnonea⟩ := idles_on_course horderly h₃ (bound_modifyTab id _) hmark
    have hnonez := ((hinstall.own_steps (bound_install id found.name r)).mono
      fun _ _ h => h.taskCount).started_eq_nil
    obtain ⟨g, sites, hats, commands, hg, htab, hroots, hcount⟩ :=
      rootsStarted_of_start he ha hgraph hstart
    refine ⟨g, sites, hats, commands, hg, htab, ?_⟩
    obtain ⟨φ, ψ, hc⟩ := Conducted.run horderly hreached
    have hbefore := (hturn.run.trans (hclear.run.trans hmark.run)).actor_lt horderly hc
    have hfirst : ∀ x ∈ hats ++ commands, ∀ d ∈ log₁ ++ (log₂ ++ loga), d.actor ≠ x.2 :=
      fun x hx d hd => Nat.ne_of_lt (Nat.lt_of_lt_of_le (hbefore d hd) (hcount x hx))
    have hparts : RootsStarted e t g sites hats commands
        (log₁ ++ (log₂ ++ loga) ++ logb ++ (logz ++ (log₅ ++ log₆))) := hroots.extend
      (by simp [Deed.started_append, hnone₁, hnone₂, hnonea]) hfirst
      (by rw [Deed.started_append, hnonez, hnone₇]; rfl)
    simpa using hparts

end Supervisor

/-! ## Tasks of hats in a run -/

variable {φ : TaskId → Stage} {ψ : TaskId → Stance} {j : Job}

/-- A task that has ended performs no step any more. -/
theorem Run.statesOf_of_ended (he : e.Orderly) (hc : Conducted e log₀ m φ ψ)
    (hrun : Run e m log m') (hx : ∃ x, m.world.view.tasks h = some x)
    (hended : m.world.view.isEnded h = true) : Deed.statesOf h log = [] := by
  induction hrun with
  | refl => rfl
  | @move log ds m₁ m₂ hrun hmove ih =>
    obtain ⟨φ₁, ψ₁, hc₁, hle⟩ := hc.extend he hrun
    rw [Deed.statesOf_append, ih]
    exact Deed.statesOf_eq_nil (hc₁.not_performed hmove (View.isEnded_mono hended hle hx))

/-- A task that has performed a step has begun its work before. -/
theorem Run.begun (he : e.Orderly) (hc : Conducted e log₀ m φ ψ) (hrun : Run e m log m')
    (hlive : m.world.IsLive h j) (hnone : m.threads[h]? = none)
    (hstates : Deed.statesOf h log ≠ []) :
    ∃ m₁ log₁ log₂, log = log₁ ++ log₂ ∧ Deed.statesOf h log₁ = [] ∧ Run e m log₁ m₁ ∧
      m₁.threads[h]? = some (e.work j) ∧ Run e m₁ log₂ m' := by
  suffices hboth : (m'.threads[h]? = none ∧ Deed.statesOf h log = []) ∨
      ∃ m₁ log₁ log₂, log = log₁ ++ log₂ ∧ Deed.statesOf h log₁ = [] ∧ Run e m log₁ m₁ ∧
        m₁.threads[h]? = some (e.work j) ∧ Run e m₁ log₂ m' from
    hboth.resolve_left fun h => hstates h.2
  clear hstates
  induction hrun with
  | refl => exact .inl ⟨hnone, rfl⟩
  | @move log ds m₁ m₂ hrun hmove ih =>
    rcases ih with ⟨hnone₁, hstates⟩ | ⟨mb, log₁, log₂, rfl, hstates, hbefore, hwork, hafter⟩
    · obtain ⟨φ₁, ψ₁, hc₁, hle⟩ := hc.extend he hrun
      obtain ⟨r, hr, hj, -⟩ := hlive
      obtain ⟨x, hx, hjob, -⟩ := hle.task h r.standing (by rw [World.view_tasks, hr]; rfl)
      obtain ⟨r₁, hr₁, rfl⟩ := Option.map_eq_some_iff.1 hx
      have hjob₁ : r₁.job = some j := hjob.trans hj
      have hquiet : Deed.statesOf h (log ++ ds) = [] := by
        rw [Deed.statesOf_append, hstates, List.nil_append]
        refine Deed.statesOf_eq_nil fun p w hmem => ?_
        cases hmove with
        | perform hp =>
          cases List.mem_singleton.1 hmem
          exact absurd (hnone₁.symm.trans hp) (Option.some_ne_none _).symm
        | drop => cases List.mem_singleton.1 hmem
        | _ => exact List.not_mem_nil hmem
      have hinsert : ∀ {m : Machine} {u : TaskId} {p : Execution Unit},
          m.threads = m₁.threads → h ≠ u → (m.threads.insert u p)[h]? = none :=
        fun hthreads hu => (threads_insert ..).trans ((if_neg hu).trans (hthreads ▸ hnone₁))
      have herase : ∀ u, (m₁.threads.erase u)[h]? = none := fun u =>
        (threads_erase ..).trans (by split <;> first | rfl | exact hnone₁)
      cases hmove with
      | @perform u p q w hp =>
        refine .inl ⟨hinsert rfl ?_, hquiet⟩
        rintro rfl
        exact absurd (hnone₁.symm.trans hp) (Option.some_ne_none _).symm
      | @begin u j' hlive' =>
        by_cases hu : h = u
        · subst hu
          obtain ⟨r', hr', hj', hend⟩ := hlive'
          obtain rfl := Option.some.inj (hr'.symm.trans hr₁)
          obtain rfl := Option.some.inj (hj'.symm.trans hjob₁)
          exact .inr ⟨_, log ++ [], [], (List.append_nil _).symm, hquiet,
            hrun.move (.begin ⟨_, hr', hj', hend⟩ hnone₁), (threads_insert ..).trans (if_pos rfl),
            .refl⟩
        · exact .inl ⟨hinsert rfl hu, hquiet⟩
      | @call u c hcaller =>
        refine .inl ⟨hinsert rfl ?_, hquiet⟩
        rintro rfl
        obtain ⟨r', hr', hj'⟩ := hcaller
        obtain rfl := Option.some.inj (hr'.symm.trans hr₁)
        exact absurd (hj'.symm.trans hjob₁) (Option.some_ne_none _).symm
      | finish | leave | «return» | drop => exact .inl ⟨herase _, hquiet⟩
      | _ => exact .inl ⟨hnone₁, hquiet⟩
    · exact .inr ⟨mb, log₁, log₂ ++ _, List.append_assoc .., hstates, hbefore, hwork,
        hafter.move hmove⟩

/-! ## Roots in the order of the queue -/

namespace Worker

variable {c c' c'' : Worker} {R : World → World → Prop} {p q : Execution Unit} {log₁ log₂ log₃
  log₄ : List Deed}

/-- Where a task is started, it takes its place in the queue. -/
theorem Runs.spawned (he : e.Orderly) (hobeys : e.Obeys World.Lined) {capacity : Nat}
    (hbefore : Runs e ⟨.start capacity, none⟩ log₀ c)
    (hrun : Runs e c (log₁ ++ .performed t p w :: log₂) c') {d : String} {ctx : Context}
    (hlive : w.isDestroyed n = false) (hstep : e.step t w p = some (q, (w.spawn n d ctx j).2)) :
    ∃ c₂, Runs e c (log₁ ++ [.performed t p w]) c₂ ∧ Runs e c₂ log₂ c' ∧
      c₂.machine.world = (w.spawn n d ctx j).2 ∧ c₂.machine.threads[w.taskCount]? = none ∧
      Place e w.taskCount j [] c₂ := by
  obtain ⟨c₁, c₂, hrun₁, hmove, hrun₂⟩ := hrun.split
  have hreached := hbefore.trans hrun₁
  obtain ⟨φ, ψ, hc⟩ := Conducted.run he hreached.run
  have hk := hreached.kept (.start e capacity) hobeys
  refine ⟨c₂, hrun₁.step hmove, hrun₂, ?_⟩
  cases hmove with
  | perform hp hstep' =>
    obtain ⟨rfl, rfl⟩ := Prod.mk.inj (Option.some.inj (hstep'.symm.trans hstep))
    refine ⟨rfl, ?_, Place.of_spawn hc hk hp hlive d ctx j⟩
    rw [threads_insert, if_neg (Nat.ne_of_gt (lt_of_thread hc hp))]
    refine Option.eq_none_iff_forall_ne_some.2 fun p hp => ?_
    exact Nat.lt_irrefl _ (lt_of_thread hc hp)

/-- A task performs its steps after it has been started. -/
theorem Runs.deed_after (he : e.Orderly) {φ : TaskId → Stage} {ψ : TaskId → Stance}
    (hc : Conducted e log₀ c.machine φ ψ) (hrun : Runs e c (log₁ ++ .performed t p w :: log₂) c')
    {p' : Execution Unit}
    (hlog : log₁ ++ .performed t p w :: log₂ = log₃ ++ .performed u p' w' :: log₄)
    (hu : w.taskCount ≤ u) : ∃ log₅, log₃ = log₁ ++ .performed t p w :: log₅ ∧
      log₂ = log₅ ++ .performed u p' w' :: log₄ := by
  obtain ⟨c₁, c₂, hrun₁, hmove, -⟩ := hrun.split
  obtain ⟨-, hp, rfl⟩ := hmove.actor (List.mem_singleton_self _)
  obtain ⟨φ₁, ψ₁, hc₁, -⟩ := hc.extend he hrun₁.run
  have hnot : ∀ d ∈ log₁ ++ [.performed t p c₁.machine.world], d ≠ .performed u p' w' := by
    rintro d hd rfl
    refine absurd hu (Nat.not_le.2 ?_)
    rcases List.mem_append.1 hd with hd | hd
    · exact hrun₁.run.actor_lt he hc _ hd
    · cases List.mem_singleton.1 hd
      exact lt_of_thread hc₁ hp
  rw [← List.singleton_append, ← List.append_assoc] at hlog
  rcases List.append_eq_append_iff.1 hlog with ⟨log₅, rfl, hlog₂⟩ | ⟨log₅, hsplit, hlog₂⟩
  · exact ⟨log₅, by simp, hlog₂⟩
  · cases log₅ with
    | nil => exact ⟨[], by simpa using hsplit.symm, by simpa using hlog₂.symm⟩
    | cons d log₅ =>
      obtain ⟨rfl, -⟩ := List.cons.inj hlog₂
      exact absurd rfl (hnot _ (hsplit ▸ List.mem_append_right _ List.mem_cons_self))

/-- Until a task has been started it has no deeds. -/
theorem Runs.quiet_until_spawned (he : e.Orderly) {φ : TaskId → Stage} {ψ : TaskId → Stance}
    (hc : Conducted e log₀ c.machine φ ψ) (hrun : Runs e c (log₁ ++ [.performed t p w]) c') :
    Deed.statesOf w.taskCount (log₁ ++ [.performed t p w]) = [] := by
  obtain ⟨c₁, c₂, hrun₁, hstep, -⟩ := hrun.split
  obtain ⟨-, hp, rfl⟩ := hstep.actor (List.mem_singleton_self _)
  obtain ⟨φ₁, ψ₁, hc₁, -⟩ := hc.extend he hrun₁.run
  refine Deed.statesOf_eq_nil fun q w hmem => ?_
  rcases List.mem_append.1 hmem with hmem | hmem
  · exact Nat.lt_irrefl _ (hrun₁.run.actor_lt he hc _ hmem)
  · cases List.mem_singleton.1 hmem
    exact Nat.lt_irrefl _ (lt_of_thread hc₁ hp)

/-- A hat in a task of its own: where the task was started, and how far it has come when a later
task performs a step. -/
theorem Runs.hat_ended (he : e.HasCore) {capacity : Nat} {s : Site} {q : Execution Unit}
    (hbefore : Runs e ⟨.start capacity, none⟩ log₀ c)
    (hkind : e.registry.kind? s.block.opcode = some .hat)
    (hlive : w.isDestroyed s.generation.number = false)
    (hspawn : e.step t w p =
      some (q, (w.spawn s.generation.number s.description s.context (.root s)).2))
    (hrun : Runs e c (log₁ ++ .performed t p w :: log₂) c') {p' : Execution Unit}
    (hlog : log₁ ++ .performed t p w :: log₂ = log₃ ++ .performed u p' w' :: log₄)
    (hu : w.taskCount < u) (hcaller : ¬ w'.IsCaller u) :
    ∃ c₂ c₃ log₅, Runs e c (log₁ ++ [.performed t p w]) c₂ ∧ Runs e c₂ log₅ c₃ ∧
      Runs e c₃ (.performed u p' w' :: log₄) c' ∧ c₃.machine.world = w' ∧
      log₃ = log₁ ++ .performed t p w :: log₅ ∧
      Deed.statesOf w.taskCount log₃ = Deed.statesOf w.taskCount log₅ ∧
      c₂.machine.world.IsLive w.taskCount (.root s) ∧
      c₂.machine.threads[w.taskCount]? = none ∧
      ∃ r, w'.task? w.taskCount = some r ∧ r.ended = true ∧ (r.cancelled = true ∨
        e.replay w.taskCount (e.work (.root s)) (Deed.statesOf w.taskCount log₃) =
          some (.done ())) := by
  have horderly := Engine.orderly_of_core he
  have hobeys : e.Obeys World.Lined := Engine.obeys_of_core he
  obtain ⟨φ, ψ, hc⟩ := Conducted.run horderly hbefore.run
  obtain ⟨log₅, hlog₃, hlog₂⟩ := hrun.deed_after horderly hc hlog (Nat.le_of_lt hu)
  obtain ⟨c₂, hrun₂, hrest, hworld, hthread, hplace⟩ :=
    hbefore.spawned horderly hobeys hrun hlive hspawn
  have hquiet := hrun₂.quiet_until_spawned horderly hc
  have hreached := hbefore.trans hrun₂
  obtain ⟨φ₂, ψ₂, hc₂⟩ := Conducted.run horderly hreached.run
  have hk := hreached.kept (.start e capacity) hobeys
  have hwork : e.Straight w.taskCount World.Stays (e.work (.root s)) := by
    rw [Engine.work_root (Engine.ne_reporter_of_hat hkind)]
    refine he.straight_conclude fun b hb => ?_
    obtain ⟨b', run, hb', hrun⟩ := Engine.exists_hat_of_kind hkind
    obtain rfl := Except.ok.inj (hb.symm.trans hb')
    exact ⟨run, hrun⟩
  rw [hlog₂] at hrest
  obtain ⟨r, hr, hended, hend⟩ :=
    hrest.overtakes_nobody horderly hobeys hc₂ hk hwork hplace hu hcaller
  obtain ⟨c₄, c₅, hrun₄, hstep, hrun₅⟩ := hrest.split
  obtain ⟨-, -, hstate⟩ := hstep.actor (List.mem_singleton_self _)
  have hstates : Deed.statesOf w.taskCount log₃ = Deed.statesOf w.taskCount log₅ := by
    rw [hlog₃, ← List.singleton_append, ← List.append_assoc, Deed.statesOf_append, hquiet,
      List.nil_append]
  refine ⟨c₂, c₄, log₅, hrun₂, hrun₄, (Runs.single hstep).trans hrun₅, hstate.symm, hlog₃, hstates,
    ?_, hthread, r, hr, hended, hstates ▸ hend⟩
  rw [hworld]
  obtain ⟨-, -, htask, -⟩ := World.spawn_spec hlive s.description s.context (.root s)
  exact ⟨_, (htask _).trans (if_pos rfl), rfl, rfl⟩

/-- A hat that comes to its end without an error has its subscription when a later task performs a
step, and from then on, as long as the tab records its generation. -/
theorem Runs.hat_told (he : e.HasCore) {capacity : Nat} {s : Site} {q : Execution Unit}
    (hbefore : Runs e ⟨.start capacity, none⟩ log₀ c)
    (hkind : e.registry.kind? s.block.opcode = some .hat)
    (honce : Library.isOnce s.block.opcode = false)
    (hlive : w.isDestroyed s.generation.number = false)
    (hspawn : e.step t w p =
      some (q, (w.spawn s.generation.number s.description s.context (.root s)).2))
    (hrun : Runs e c (log₁ ++ .performed t p w :: log₂) c')
    (hrec : c'.machine.world.view.Records s.generation.number) {x : Signal}
    (hdone : e.replay w.taskCount (ExceptT.run (e.handleOrEvaluate s))
      (Deed.statesOf w.taskCount (log₁ ++ .performed t p w :: log₂)) = some (.done (.ok x)))
    {p' : Execution Unit}
    (hlog : log₁ ++ .performed t p w :: log₂ = log₃ ++ .performed u p' w' :: log₄)
    (hu : w.taskCount < u) (hcaller : ¬ w'.IsCaller u) :
    ∃ key r l, Library.Hears s key r ∧ w'.Tells s.tab key l r ∧
      ∀ v q' w'', .performed v q' w'' ∈ log₄ → w''.Tells s.tab key l r := by
  have horderly := Engine.orderly_of_core he
  obtain ⟨c₂, c₃, log₅, hrun₂, hrun₃, hlast, rfl, hlog₃, hstates, hlives, hnone, rec, hrec', hended, -⟩ :=
    Runs.hat_ended he hbefore hkind hlive hspawn hrun hlog hu hcaller
  have hbefore₂ := hbefore.trans hrun₂
  have hbefore₃ := hbefore₂.trans hrun₃
  obtain ⟨φ₂, ψ₂, hc₂⟩ := Conducted.run horderly hbefore₂.run
  obtain ⟨φ₃, ψ₃, hc₃⟩ := Conducted.run horderly hbefore₃.run
  have hafter : Deed.statesOf w.taskCount (.performed u p' c₃.machine.world :: log₄) = [] := by
    refine hlast.run.statesOf_of_ended horderly hc₃ ⟨rec.standing, ?_⟩ ?_
    · rw [World.view_tasks, hrec']
      rfl
    · refine (World.isEnded_eq c₃.machine.world w.taskCount).symm.trans ?_
      rw [World.isEnded, hrec']
      exact hended
  rw [hlog, Deed.statesOf_append, hafter, List.append_nil, hstates] at hdone
  -- The hat has begun after it was started, and its steps since then are all it ever does.
  have hbegun : Deed.statesOf w.taskCount log₅ ≠ [] := by
    intro hnil
    rw [hnil, Engine.handleOrEvaluate_of_ne (Engine.ne_reporter_of_hat hkind)] at hdone
    cases hdone
  obtain ⟨m₁, loga, logb, rfl, hquiet, hruna, hthread, hrunb⟩ :=
    hrun₃.run.begun horderly hc₂ hlives hnone hbegun
  rw [Deed.statesOf_append, hquiet, List.nil_append] at hdone
  have hknown : c₂.machine.world.view.Known s.generation := by
    obtain ⟨r, hr, hj, -⟩ := hlives
    exact hc₂.sound.jobs _ r.standing (.root s) (by rw [World.view_tasks, hr]; rfl) hj
  obtain ⟨-, -, -, hlea⟩ := hc₂.extend horderly hruna
  obtain ⟨-, -, -, hle₃⟩ := hc₂.extend horderly hrun₃.run
  obtain ⟨key, r, hhears, l, hlock, hr⟩ := Run.hat_listens he hkind honce
    (hbefore₂.run.trans hruna) (hknown.mono hlea) hthread hrunb
    (fun w hmem => hrun₃.run.not_dropped horderly hc₂ hlives w (List.mem_append_right _ hmem)) hdone
    hlast.run hrec
  refine ⟨key, r, l, hhears, hlock.tells hc₃.sound hr, fun v q' w'' hmem => ?_⟩
  obtain ⟨log₆, log₇, hsplit⟩ := List.append_of_mem (List.mem_cons_of_mem (.performed u p' _) hmem)
  rw [hsplit] at hlast
  obtain ⟨c₄, c₅, hrun₄, hstep, hrun₅⟩ := hlast.split
  obtain ⟨-, -, rfl⟩ := hstep.actor (List.mem_singleton_self _)
  obtain ⟨φ₄, ψ₄, hc₄, -⟩ := hc₃.extend horderly hrun₄.run
  obtain ⟨hlock', hsub⟩ := hbefore₃.run.lock_kept horderly hrun₄.run (hknown.mono hle₃)
    (hstep.run.trans hrun₅.run) hrec hlock
  exact hlock'.tells hc₄.sound (hsub r hr)

/-- Who has been started with a job stands for no caller. -/
theorem Runs.not_caller_of_spawned (he : e.Orderly) {capacity : Nat}
    (hbefore : Runs e ⟨.start capacity, none⟩ log₀ c)
    (hrun : Runs e c (log₁ ++ .performed t p w :: log₂) c') {d : String} {ctx : Context}
    (hlive : w.isDestroyed n = false) (hstep : e.step t w p = some (q, (w.spawn n d ctx j).2))
    {p' : Execution Unit}
    (hlog : log₁ ++ .performed t p w :: log₂ = log₃ ++ .performed w.taskCount p' w' :: log₄) :
    ¬ w'.IsCaller w.taskCount := by
  obtain ⟨φ, ψ, hc⟩ := Conducted.run he hbefore.run
  obtain ⟨log₅, -, rfl⟩ := hrun.deed_after he hc hlog (Nat.le_refl _)
  obtain ⟨c₁, c₂, hrun₁, hstart, hrest⟩ := hrun.split
  obtain ⟨c₃, c₄, hrun₃, hstep', -⟩ := hrest.split
  obtain ⟨-, -, rfl⟩ := hstep'.actor (List.mem_singleton_self _)
  have hreached := (hbefore.trans hrun₁).step hstart
  obtain ⟨φ₂, ψ₂, hc₂⟩ := Conducted.run he hreached.run
  obtain ⟨-, -, -, hle⟩ := hc₂.extend he hrun₃.run
  have hworld : c₂.machine.world = (w.spawn n d ctx j).2 := by
    cases hstart with
    | perform _ hperform => exact (Prod.mk.inj (Option.some.inj (hperform.symm.trans hstep))).2
  obtain ⟨-, -, htask, -⟩ := World.spawn_spec hlive d ctx j
  have hrec : c₂.machine.world.task? w.taskCount = some ⟨some j, true, false, false, []⟩ :=
    (congrArg (World.task? · w.taskCount) hworld).trans ((htask _).trans (if_pos rfl))
  obtain ⟨x, hx, hjob, -⟩ := hle.task w.taskCount _
    ((World.view_tasks ..).trans (congrArg (Option.map TaskRecord.standing) hrec))
  rintro ⟨r, hr, hnone⟩
  obtain ⟨r', hr', rfl⟩ := Option.map_eq_some_iff.1 hx
  obtain rfl := Option.some.inj (hr.symm.trans hr')
  exact absurd (hjob.symm.trans hnone) (Option.some_ne_none j)

end Worker

/-! ## The roots of a reload -/

namespace Supervisor

variable {hats commands : List (Site × TaskId)} {g : Generation}

/-- Each task was started by the thread `t` in one step, and tracked from then on. -/
def EachTracked (e : Engine) (t : TaskId) (xs : List (Site × TaskId)) (log : List Deed) : Prop :=
  ∀ x ∈ xs, ∃ p w q w', .performed t p w ∈ log ∧ e.step t w p = some (q, w') ∧
    w.taskCount = x.2 ∧ (w'.task? x.2).bind (·.job) = some (.root x.1) ∧
    ⟨x.2, x.1.description, x.1.context⟩ ∈ w'.tracked x.1.generation.number

/-- When a hat or a command performs a step, the hats started before it have ended; those that were
not cancelled have done their work. -/
def HatsFirst (e : Engine) (hats commands : List (Site × TaskId)) (log : List Deed) : Prop :=
  ∀ x ∈ hats, ∀ y ∈ hats ++ commands, x.2 < y.2 →
    ∀ log₁ p w log₂, log = log₁ ++ .performed y.2 p w :: log₂ →
      ∃ r, w.task? x.2 = some r ∧ r.ended = true ∧ (r.cancelled = true ∨
        e.replay x.2 (e.work (.root x.1)) (Deed.statesOf x.2 log₁) = some (.done ()))

/-- When a command performs a step, each hat that comes to its end without an error has its
subscription. From then on a signal of what it listens to runs what it does then. -/
def HatsHeard (e : Engine) (hats commands : List (Site × TaskId)) (log : List Deed) : Prop :=
  ∀ x ∈ hats, ∀ signal,
    e.replay x.2 (ExceptT.run (e.handleOrEvaluate x.1)) (Deed.statesOf x.2 log) =
      some (.done (.ok signal)) →
    ∀ y ∈ commands, ∀ log₁ p w log₂, log = log₁ ++ .performed y.2 p w :: log₂ →
      ∃ key r l, Library.Hears x.1 key r ∧ w.Tells x.1.tab key l r ∧
        ∀ u p' w', .performed u p' w' ∈ log₂ → w'.Tells x.1.tab key l r

namespace RootsStarted

variable {sites : List Site} {x y : Site × TaskId}

theorem mem_hats (h : RootsStarted e t g sites hats commands log) (hx : x ∈ hats) :
    e.registry.kind? x.1.block.opcode = some .hat ∧
      Library.isOnce x.1.block.opcode = false := by
  have hmem : x.1 ∈ hatRoots e sites := h.sites_hats ▸ List.mem_map_of_mem hx
  obtain ⟨htask, hkind⟩ := List.mem_filter.1 hmem
  exact ⟨of_decide_eq_true hkind, by simpa using (List.mem_filter.1 htask).2⟩

/-- Hats are started before commands. -/
theorem hats_before (h : RootsStarted e t g sites hats commands log) (hx : x ∈ hats)
    (hy : y ∈ commands) : x.2 < y.2 := by
  have hascending := h.ascending
  rw [List.map_append] at hascending
  exact (List.pairwise_append.1 hascending).2.2 _ (List.mem_map_of_mem hx) _
    (List.mem_map_of_mem hy)

/-- The deed that started a task. -/
theorem started_by (h : RootsStarted e t g sites hats commands log) (hx : x ∈ hats ++ commands) :
    ∃ log₁ p w q log₂, log = log₁ ++ .performed t p w :: log₂ ∧
      w.isDestroyed x.1.generation.number = false ∧ x.2 = w.taskCount ∧
      e.step t w p = some (q,
        (w.spawn x.1.generation.number x.1.description x.1.context (.root x.1)).2) := by
  obtain ⟨before, once, first, wait, second, after, v, rfl, -, hfirst, hsecond, -⟩ := h.phases
  rcases List.mem_append.1 hx with hx | hx
  · obtain ⟨log₁, p, w, q, log₂, rfl, hrest⟩ := hfirst.split hx
    exact ⟨before ++ once ++ log₁, p, w, q, log₂ ++ (wait ++ second ++ after), by simp, hrest⟩
  · obtain ⟨log₁, p, w, q, log₂, rfl, hrest⟩ := hsecond.split hx
    exact ⟨before ++ once ++ first ++ wait ++ log₁, p, w, q, log₂ ++ after, by simp, hrest⟩

theorem eachTracked (h : RootsStarted e t g sites hats commands log) :
    EachTracked e t (hats ++ commands) log := by
  intro x hx
  obtain ⟨log₁, p, w, q, log₂, rfl, hlive, hcount, hstep⟩ := h.started_by hx
  obtain ⟨-, -, htask, -, htracked⟩ := World.spawn_spec hlive x.1.description x.1.context (.root x.1)
  refine ⟨p, w, q, _, List.mem_append_right _ List.mem_cons_self, hstep, hcount.symm, ?_, ?_⟩
  · rw [htask, if_pos hcount]
    rfl
  · rw [htracked, hcount]
    exact List.mem_append_right _ List.mem_cons_self

variable {c c' : Worker} {capacity : Nat}

/-- Who performs a step of a root stands for no caller. -/
theorem not_caller (h : RootsStarted e t g sites hats commands log) (he : e.Orderly)
    (hbefore : Worker.Runs e ⟨.start capacity, none⟩ log₀ c)
    (hrun : Worker.Runs e c (log ++ log') c') (hy : y ∈ hats ++ commands) {log₁ log₂ : List Deed}
    {p : Execution Unit} (hlog : log ++ log' = log₁ ++ .performed y.2 p w :: log₂) :
    ¬ w.IsCaller y.2 := by
  obtain ⟨loga, pa, wa, qa, logb, rfl, hlive, hcount, hstep⟩ := h.started_by hy
  rw [List.append_assoc] at hrun hlog
  rw [hcount] at hlog ⊢
  exact hbefore.not_caller_of_spawned he hrun hlive hstep hlog

theorem hatsFirst (h : RootsStarted e t g sites hats commands log) (he : e.HasCore)
    (hbefore : Worker.Runs e ⟨.start capacity, none⟩ log₀ c)
    (hrun : Worker.Runs e c (log ++ log') c') : HatsFirst e hats commands (log ++ log') := by
  intro x hx y hy hxy log₁ p w log₂ hlog
  have hcaller := h.not_caller (Engine.orderly_of_core he) hbefore hrun hy hlog
  obtain ⟨loga, pa, wa, qa, logb, rfl, hlive, hcount, hstep⟩ :=
    h.started_by (List.mem_append_left commands hx)
  rw [List.append_assoc] at hrun hlog
  rw [hcount] at hxy ⊢
  obtain ⟨-, -, -, -, -, -, -, -, -, -, -, hended⟩ :=
    hbefore.hat_ended he (h.mem_hats hx).1 hlive hstep hrun hlog hxy hcaller
  exact hended

theorem hatsHeard (h : RootsStarted e t g sites hats commands log) (he : e.HasCore)
    (hbefore : Worker.Runs e ⟨.start capacity, none⟩ log₀ c)
    (hrun : Worker.Runs e c (log ++ log') c')
    (hrec : c'.machine.world.view.Records g.number) : HatsHeard e hats commands (log ++ log') := by
  intro x hx signal hdone y hy log₁ p w log₂ hlog
  have hcaller := h.not_caller (Engine.orderly_of_core he) hbefore hrun
    (List.mem_append_right hats hy) hlog
  have hxy := h.hats_before hx hy
  have hmem : x.1 ∈ hatRoots e sites := h.sites_hats ▸ List.mem_map_of_mem hx
  have hgen := h.own x.1 (List.mem_filter.1 (List.mem_filter.1 hmem).1).1
  obtain ⟨hkind, honce⟩ := h.mem_hats hx
  obtain ⟨loga, pa, wa, qa, logb, rfl, hlive, hcount, hstep⟩ :=
    h.started_by (List.mem_append_left commands hx)
  rw [List.append_assoc] at hrun hlog hdone
  rw [hcount] at hxy hdone
  exact hbefore.hat_told he hkind honce hlive hstep hrun (hgen ▸ hrec) hdone hlog hxy hcaller

end RootsStarted
end Supervisor

/-- A reload that has come to its end has handled each root of the content that it found: those that
run once in its own thread, before all others, each other one by a task that its generation tracks.
On one thread the hats are done one after the other, in the order of the document, before any
command performs a step; each that has not failed is heard then, as long as the tab records the
generation. -/
theorem Worker.Runs.roots_started (he : e.HasCore) {capacity : Nat} {c c' c'' : Worker}
    (hbefore : Runs e ⟨.start capacity, none⟩ log₀ c) (hcaller : c.machine.world.IsCaller t)
    {id : String} {k : Except SupervisorError Unit → Execution Unit}
    (hthread : c.machine.threads[t]? = some ((ExceptT.run (Supervisor.reload e id)).bind k))
    (hrun : Runs e c log c') (hkept : ∀ w, Deed.dropped t w ∉ log)
    (hdone : e.replay t (ExceptT.run (Supervisor.reload e id)) (Deed.statesOf t log) =
      some (.done (.ok ())))
    {old : TabEntry} {graph : Graph} (hstate : (Deed.statesOf t log)[1]? = some w)
    (hfound : w.tab? id = some old)
    (hgraph : Supervisor.contentGraph? old.content = .ok (some graph))
    (hrest : Runs e c' log' c'') :
    ∃ g sites hats commands, g.graph = graph ∧ g.tab = id ∧
      Supervisor.RootsStarted e t g sites hats commands log ∧
      Supervisor.EachTracked e t (hats ++ commands) log ∧
      Supervisor.HatsFirst e hats commands (log ++ log') ∧
      (c''.machine.world.view.Records g.number →
        Supervisor.HatsHeard e hats commands (log ++ log')) := by
  have horderly := Engine.orderly_of_core he
  obtain ⟨φ, ψ, hc⟩ := Conducted.run horderly hbefore.run
  have hcourse := hrun.run.course horderly hc hthread hkept hdone
  obtain ⟨g, sites, hats, commands, hg, htab, hroots⟩ := Supervisor.rootsStarted_of_reload he
    hbefore.run hcaller hcourse hstate hfound hgraph
  exact ⟨g, sites, hats, commands, hg, htab, hroots, hroots.eachTracked,
    hroots.hatsFirst he hbefore (hrun.trans hrest),
    hroots.hatsHeard he hbefore (hrun.trans hrest)⟩

/-! ## A broadcast at the start -/

namespace Worker

/-- What one thread does next when nothing happens around it, with the deeds of it. -/
def next (e : Engine) : Worker → Option (List Deed × Worker)
  | ⟨m, none⟩ =>
    match m.world.ready with
    | t :: rest => some ([], ⟨⟨m.world.dequeue t rest, m.threads⟩, some t⟩)
    | [] => none
  | ⟨m, some t⟩ =>
    match m.threads[t]? with
    | none =>
      match m.liveJob? t with
      | some j =>
        if Machine.isCancelled m.world t then some ([], ⟨⟨m.world.finish t, m.threads⟩, none⟩)
        else some ([], ⟨⟨m.world, m.threads.insert t (e.work j)⟩, some t⟩)
      | none => if m.world.isEnded t || m.isCaller t then some ([], ⟨m, none⟩) else none
    | some p =>
      match e.step t m.world p with
      | some (q, w) => some ([.performed t p m.world], ⟨⟨w, m.threads.insert t q⟩, some t⟩)
      | none =>
        match p with
        | .done () =>
          if (m.liveJob? t).isSome then
            some ([], ⟨⟨m.world.finish t, m.threads.erase t⟩, none⟩)
          else if m.isCaller t then some ([], ⟨⟨m.world, m.threads.erase t⟩, some t⟩)
          else none
        | .pause p _ => some ([], ⟨⟨m.world.await t p, m.threads⟩, none⟩)
        | _ => none

/-- What one thread does in so many steps, fewer if nobody can go on. -/
def go (e : Engine) : Nat → Worker → List Deed × Worker
  | 0, c => ([], c)
  | n + 1, c =>
    match c.next e with
    | none => ([], c)
    | some (ds, c') => (ds ++ (go e n c').1, (go e n c').2)

theorem Step.of_next {c c' : Worker} (h : c.next e = some (ds, c')) : Step e c ds c' := by
  obtain ⟨m, current⟩ := c
  cases current with
  | none =>
    rw [next] at h
    split at h
    · next hready =>
      obtain ⟨rfl, rfl⟩ := Prod.mk.inj (Option.some.inj h)
      exact .take hready
    · cases h
  | some t =>
    rw [next] at h
    split at h
    · next hnone =>
      split at h
      · next j hj =>
        have hlive := Machine.isLive_of_liveJob? hj
        split at h
        · next hcancelled =>
          obtain ⟨rfl, rfl⟩ := Prod.mk.inj (Option.some.inj h)
          exact .leaveEarly hlive hcancelled hnone
        · next hcancelled =>
          obtain ⟨rfl, rfl⟩ := Prod.mk.inj (Option.some.inj h)
          exact .begin hlive (Bool.eq_false_iff.2 hcancelled) hnone
      · split at h
        · next hover =>
          obtain ⟨rfl, rfl⟩ := Prod.mk.inj (Option.some.inj h)
          exact .rest ((Bool.or_eq_true_iff.1 hover).imp_right fun hcaller =>
            ⟨Machine.isCaller_of_isCaller hcaller, hnone⟩)
        · cases h
    · next p hp =>
      split at h
      · next q w hstep =>
        obtain ⟨rfl, rfl⟩ := Prod.mk.inj (Option.some.inj h)
        exact .perform hp hstep
      · split at h
        · split at h
          · next hlive =>
            obtain ⟨j, hj⟩ := Option.isSome_iff_exists.1 hlive
            obtain ⟨rfl, rfl⟩ := Prod.mk.inj (Option.some.inj h)
            exact .finish (Machine.isLive_of_liveJob? hj) hp
          · split at h
            · next hcaller =>
              obtain ⟨rfl, rfl⟩ := Prod.mk.inj (Option.some.inj h)
              exact .return (Machine.isCaller_of_isCaller hcaller) hp
            · cases h
        · obtain ⟨rfl, rfl⟩ := Prod.mk.inj (Option.some.inj h)
          exact .await hp
        · cases h

theorem Runs.of_go (e : Engine) (n : Nat) (c : Worker) : Runs e c (c.go e n).1 (c.go e n).2 := by
  induction n generalizing c with
  | zero => exact .refl
  | succ n ih =>
    rw [go]
    cases hnext : c.next e with
    | none => exact .refl
    | some r => exact (Runs.single (.of_next hnext)).trans (ih r.2)

end Worker

namespace Script

/-- A tab with a root that runs once, one that broadcasts a message, and a hat that prints. -/
def broadcasting : String :=
  document [
    block "d" "procedures_definition" "\"topLevel\":true,\"mutation\":\x7b\"proccode\":\"p\"\x7d",
    block "c" "event_broadcast"
      "\"topLevel\":true,\"inputs\":\x7b\"BROADCAST_INPUT\":[1,[11,\"go\",\"b1\"]]\x7d",
    block "h" "event_gotbroadcast"
      ("\"topLevel\":true,\"next\":\"s\"," ++
        "\"fields\":\x7b\"BROADCAST_OPTION\":[\"go\",\"b1\"]\x7d"),
    block "s" "debug_print"
      "\"topLevel\":false,\"parent\":\"h\",\"inputs\":\x7b\"TEXT\":[1,[10,\"heard\"]]\x7d"]

/-- The host, which has nothing to do, makes a call. -/
def ask (m : Machine) (c : Call) : Worker :=
  ⟨⟨m.world, m.threads.insert 0 (c.execution engine)⟩, some 0⟩

/-- The host has made the tab. -/
def created : Worker := (Worker.go engine 100 (ask (.start 10) (.create "a" "a" broadcasting))).2

/-- The host has asked for a reload of the tab. -/
def asking : Worker := ask created.machine (.reload "a")

/-- What has come of it. -/
def reloaded : List Deed × Worker := Worker.go engine 1000 asking

/-- The opcodes of the roots of the tab. -/
def opcodes : List Opcode :=
  [⟨"procedures", "definition"⟩, ⟨"event", "broadcast"⟩, ⟨"event", "gotbroadcast"⟩]

/-- Whether a job is no root of another generation than the first. -/
def isOfFirst : Job → Bool
  | .root s => decide (s.generation.number = 0)
  | _ => true

/-- Whether the host had nothing to do, has reloaded the tab with these roots, and roots were
started for the first generation alone, which the tab records. -/
def isReloaded : Bool :=
  created.current.isNone && created.machine.isCaller 0 && (created.machine.threads[0]?).isNone &&
    reloaded.1.all (!·.isDrop) &&
    (match engine.replay 0 (ExceptT.run (Supervisor.reload engine "a"))
        (Deed.statesOf 0 reloaded.1) with
      | some (.done (.ok ())) => true
      | _ => false) &&
    ((Deed.statesOf 0 reloaded.1)[1]?.any fun w => (w.tab? "a").any fun old =>
      match Supervisor.contentGraph? old.content with
      | .ok (some graph) => decide (graph.roots.map Block.opcode = opcodes)
      | _ => false) &&
    (reloaded.1.all fun
      | .performed t p w => (engine.step t w p).all fun r => r.2.tasks.toList.all fun x =>
        x.2.job.all isOfFirst
      | .dropped .. => true) &&
    reloaded.2.machine.world.recordsIn "a" 0

end Script

/-- A tab is reloaded: its broadcast is made when its hat listens, and the hat prints. -/
theorem Worker.roots_started_of_broadcast :
    ∃ g sites hats commands, g.graph.roots.map Block.opcode = Script.opcodes ∧
      Supervisor.RootsStarted Script.engine 0 g sites hats commands Script.reloaded.1 ∧
      Supervisor.EachTracked Script.engine 0 (hats ++ commands) Script.reloaded.1 ∧
      Supervisor.HatsFirst Script.engine hats commands Script.reloaded.1 ∧
      Supervisor.HatsHeard Script.engine hats commands Script.reloaded.1 ∧
      Script.reloaded.2.machine.world.notifications.entries.map (·.message) = ["heard"] := by
  have hcheck : Script.isReloaded = true := by decide +kernel
  simp only [Script.isReloaded, Bool.and_eq_true] at hcheck
  obtain ⟨⟨⟨⟨⟨⟨⟨hidle, hcaller⟩, hnone⟩, hkept⟩, hdone⟩, hstate⟩, hfirst⟩, hrecords⟩ := hcheck
  have hidle : Script.created.current = none := Option.isNone_iff_eq_none.1 hidle
  have hcaller := Machine.isCaller_of_isCaller hcaller
  have hstart : (Machine.start 10).world.IsCaller 0 :=
    Machine.isCaller_of_isCaller (by decide +kernel)
  have hempty : (Machine.start 10).threads[0]? = none := by simp [Machine.start]
  have hcreated : Runs Script.engine ⟨.start 10, none⟩ _ Script.created :=
    ((Runs.single (.attend hstart)).step (.call _ hstart hempty)).trans (.of_go ..)
  have hasking : Runs Script.engine Script.created [] Script.asking := by
    have hcreated : Script.created = ⟨Script.created.machine, none⟩ := by rw [← hidle]
    rw [hcreated]
    exact (Runs.single (.attend hcaller)).step (.call _ hcaller (Option.isNone_iff_eq_none.1 hnone))
  have hrun : Runs Script.engine Script.asking Script.reloaded.1 Script.reloaded.2 := .of_go ..
  obtain ⟨w, hw, hstate⟩ := (Option.any_eq_true _ _).1 hstate
  obtain ⟨old, hold, hgraph⟩ := (Option.any_eq_true _ _).1 hstate
  obtain ⟨graph, hgraph, hopcodes⟩ : ∃ graph, Supervisor.contentGraph? old.content =
      .ok (some graph) ∧ graph.roots.map Block.opcode = Script.opcodes := by
    split at hgraph
    · next graph hparse => exact ⟨graph, hparse, of_decide_eq_true hgraph⟩
    · cases hgraph
  have hdrop : ∀ w, Deed.dropped 0 w ∉ Script.reloaded.1 := by
    intro w hmem
    have hdrop := List.all_eq_true.1 hkept _ hmem
    simp [Deed.isDrop] at hdrop
  have hdone : Script.engine.replay 0 (ExceptT.run (Supervisor.reload Script.engine "a"))
      (Deed.statesOf 0 Script.reloaded.1) = some (.done (.ok ())) := by
    split at hdone
    · next hreplay => exact hreplay
    · cases hdone
  have hcore : Script.engine.HasCore := rfl
  obtain ⟨g, sites, hats, commands, rfl, -, hroots, htracked, hats_first, hheard⟩ :=
    Runs.roots_started hcore (hcreated.trans hasking) hcaller
      ((threads_insert ..).trans (if_pos rfl)) hrun hdrop hdone hw hold hgraph .refl
  rw [List.append_nil] at hats_first hheard
  refine ⟨g, sites, hats, commands, hopcodes, hroots, htracked, hats_first, hheard ?_,
    by decide +kernel⟩
  -- The broadcast was started for the first generation, so this is the one of the roots.
  have hmem : (⟨"event", "broadcast"⟩ : Opcode) ∈ g.graph.roots.map Block.opcode :=
    hopcodes ▸ by decide
  obtain ⟨b, hb, hopcode⟩ := List.mem_map.1 hmem
  obtain ⟨s, hs, rfl⟩ := List.mem_map.1 (hroots.roots ▸ hb)
  have hcommand : s ∈ commands.map Prod.fst := by
    rw [hroots.sites_commands]
    refine List.mem_filter.2 ⟨List.mem_filter.2 ⟨hs, ?_⟩, ?_⟩ <;> rw [hopcode] <;> decide +kernel
  obtain ⟨x, hx, rfl⟩ := List.mem_map.1 hcommand
  obtain ⟨p, w, q, w', hdeed, hstep, -, hjob, -⟩ := htracked x (List.mem_append_right _ hx)
  obtain ⟨r, hr, hj⟩ := Option.bind_eq_some_iff.1 hjob
  have hall := List.all_eq_true.1 hfirst _ hdeed
  simp only [hstep, Option.all_some] at hall
  have hone := List.all_eq_true.1 hall (x.2, r) (Std.ExtTreeMap.mem_toList_iff_getElem?_eq_some.2 hr)
  simp only [hj, Option.all_some] at hone
  have hnumber : x.1.generation.number = 0 := of_decide_eq_true hone
  rw [← hroots.own x.1 hs, hnumber]
  exact World.records_of_recordsIn hrecords

end BlockEngine
