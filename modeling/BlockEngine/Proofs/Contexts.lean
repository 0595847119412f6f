import BlockEngine.Proofs.Starting
import BlockEngine.Proofs.Within

/-!
# One context for each task

A context is told from all others by its number. Tasks are started in contexts whose numbers are
drawn in the same step, but for roots: a caller draws all of their numbers first, lets other blocks
run, and starts the tasks later.

* `Use`, `Ledger` : what each number has been used for, in agreement with a state;
* `Use.Later` : what a number has been used for once, it stays used for;
* `Effect.sprouts`, `Passage.sprouts` : a step tracks a task in a new context, or none;
* `Engine.Sows` : a caller starts tasks only in contexts planned for them;
* `Supervisor.sows_execution` : every call does;
* `Sown`, `Run.sown` : in every reachable state there is such a record.
-/

namespace BlockEngine

variable {α β : Type} {e : Engine} {t u : TaskId} {γ γ' : Stage} {σ σ' : Stance} {v v' : View}
  {w w' : World} {log ds : List Deed} {m m' : Machine}

/-! ## What numbers are used for -/

/-- What a number has been used for: for nothing, for the context of a root that a thread is about to
start, or for that of a task that a generation has tracked. -/
inductive Use where
  | unused
  | planned (t : TaskId)
  | taken (n : Nat) (x : Tracked)

namespace Use

/-- The uses after that of one number has changed. -/
def set (κ : Nat → Use) (c : Nat) (a : Use) : Nat → Use := fun c' => if c' = c then a else κ c'

@[simp] theorem set_same (κ : Nat → Use) (c : Nat) (a : Use) : set κ c a c = a := if_pos rfl

theorem set_of_ne {c c' : Nat} (h : c' ≠ c) (κ : Nat → Use) (a : Use) : set κ c a c' = κ c' :=
  if_neg h

/-- Whatever was taken still is, for the same. -/
def Later (κ κ' : Nat → Use) : Prop := ∀ c n x, κ c = .taken n x → κ' c = .taken n x

theorem Later.refl (κ : Nat → Use) : Later κ κ := fun _ _ _ h => h

theorem Later.trans {κ κ' κ'' : Nat → Use} (h : Later κ κ') (h' : Later κ' κ'') : Later κ κ'' :=
  fun c n x hc => h' c n x (h c n x hc)

theorem Later.set {κ : Nat → Use} {c : Nat} {a : Use} (h : ∀ n x, κ c ≠ .taken n x) :
    Later κ (set κ c a) := fun c' n x hc' => by
  rw [set_of_ne _ κ a]
  · exact hc'
  · rintro rfl
    exact h n x hc'

end Use

/-- A record of what numbers are used for. It has every tracked task under the number of its context,
and the chain that the task runs is run under that context. -/
structure Ledger (κ : Nat → Use) (v : View) : Prop where
  unused : ∀ c, v.issued ≤ c → κ c = .unused
  tracked : ∀ n s, v.generation? n = some s →
    s.tracked.Nodup ∧ ∀ x ∈ s.tracked, κ x.context.id = .taken n x
  destroyed : ∀ n s, v.generation? n = some s → s.destroyed = true → s.tracked = []
  runs : ∀ c n x, κ c = .taken n x → x.context.id = c ∧
    ∃ s j, v.tasks x.task = some s ∧ s.job = some j ∧ j.owner = n ∧ j.RunsIn x.context
  once : ∀ c c' n n' x x', κ c = .taken n x → κ c' = .taken n' x' → x.task = x'.task → c = c'

theorem World.mem_tracked {n : Nat} {x : Tracked} :
    x ∈ w.tracked n ↔ ∃ s, w.generation? n = some s ∧ x ∈ s.tracked := by
  unfold World.tracked
  cases w.generation? n <;> simp

/-- No generation tracks a task more. -/
structure View.TracksNoMore (v v' : View) : Prop where
  le : v ≤ v'
  generation : ∀ n s', v'.generation? n = some s' → s'.tracked = [] ∨
    ∃ s, v.generation? n = some s ∧ s'.tracked = s.tracked ∧ s'.destroyed = s.destroyed

namespace View.TracksNoMore

theorem of_generations (hle : v ≤ v') (h : v'.generations = v.generations) : v.TracksNoMore v' where
  le := hle
  generation n s' hs' := .inr ⟨s', by unfold generation? at *; rwa [← h], rfl, rfl⟩

theorem modifyGeneration {v₀ : View} {n : Nat} {f : GenerationState → GenerationState}
    (hle : v ≤ v₀.modifyGeneration n f) (h : v₀.generations = v.generations)
    (hf : ∀ s, (f s).tracked = [] ∨ (f s).tracked = s.tracked ∧ (f s).destroyed = s.destroyed) :
    v.TracksNoMore (v₀.modifyGeneration n f) where
  le := hle
  generation k s' hs' := by
    have hsame : ∀ k, v₀.generation? k = v.generation? k := fun k => by
      unfold generation?
      rw [h]
    rw [generation?_modifyGeneration] at hs'
    simp only [hsame] at hs'
    split at hs'
    · next hk =>
      subst hk
      obtain ⟨s, hs, rfl⟩ := Option.map_eq_some_iff.1 hs'
      exact (hf s).imp_right fun h => ⟨s, hs, h⟩
    · exact .inr ⟨s', hs', rfl, rfl⟩

end View.TracksNoMore

namespace Ledger

variable {κ : Nat → Use}

/-- As long as no task more is tracked, the record stays right. -/
theorem keep (h : Ledger κ v) (hv : v.TracksNoMore v') : Ledger κ v' where
  unused c hc := h.unused c (Nat.le_trans hv.le.issued hc)
  tracked n s' hs' := by
    rcases hv.generation n s' hs' with hnone | ⟨s, hs, htracked, -⟩
    · rw [hnone]
      exact ⟨List.nodup_nil, nofun⟩
    · rw [htracked]
      exact h.tracked n s hs
  destroyed n s' hs' hd := by
    rcases hv.generation n s' hs' with hnone | ⟨s, hs, htracked, hsame⟩
    · exact hnone
    · exact htracked.trans (h.destroyed n s hs (hsame ▸ hd))
  runs c n x hx := by
    obtain ⟨hid, s, j, hs, hj, hrest⟩ := h.runs c n x hx
    obtain ⟨s', hs', hjob, -⟩ := hv.le.task _ s hs
    exact ⟨hid, s', j, hs', hjob.trans hj, hrest⟩
  once := h.once

/-- A number that no thread has in mind is set apart for a thread. -/
theorem plan (h : Ledger κ v) (t : TaskId) (hle : v ≤ v')
    (hv : v'.generations = v.generations) (hlt : v.issued < v'.issued) :
    Ledger (Use.set κ v.issued (.planned t)) v' := by
  have hkeep := h.keep (.of_generations hle hv)
  have hfree := h.unused v.issued (Nat.le_refl _)
  have htaken : ∀ c n x, Use.set κ v.issued (.planned t) c = .taken n x → κ c = .taken n x := by
    intro c n x hx
    by_cases hc : c = v.issued
    · subst hc
      rw [Use.set_same] at hx
      cases hx
    · rwa [Use.set_of_ne hc] at hx
  refine ⟨fun c hc => ?_, fun n s hs => ?_, hkeep.destroyed,
    fun c n x hx => hkeep.runs c n x (htaken c n x hx),
    fun c c' n n' x x' hx hx' => h.once c c' n n' x x' (htaken c n x hx) (htaken c' n' x' hx')⟩
  · rw [Use.set_of_ne (by omega)]
    exact hkeep.unused c hc
  · obtain ⟨hnodup, htracked⟩ := hkeep.tracked n s hs
    refine ⟨hnodup, fun x hx => ?_⟩
    rw [Use.set_of_ne _]
    · exact htracked x hx
    · intro heq
      have hx' := htracked x hx
      rw [heq, hfree] at hx'
      cases hx'

/-- A task is started in a context that no task has had. -/
theorem spawn (h : Ledger κ v) (hs : v.Sound e) {i : Nat} (hi : v.issued ≤ i) {d : String}
    {c : Context} {j : Job} (hlive : v.isDestroyed j.owner = false) (hj : j.RunsIn c)
    (hlt : c.id < i) (hfree : ∀ n x, κ c.id ≠ .taken n x) :
    Ledger (Use.set κ c.id (.taken j.owner ⟨v.taskCount, d, c⟩))
      ({ v with issued := i }.spawn j.owner d c j) := by
  have hnone : v.tasks v.taskCount = none := by
    cases hx : v.tasks v.taskCount with
    | none => rfl
    | some x => exact absurd (hs.tasksNumbered _ x hx) (Nat.lt_irrefl _)
  have hlive' : View.isDestroyed { v with issued := i } j.owner = false := hlive
  have hother : ∀ n s x, v.generation? n = some s → x ∈ s.tracked →
      Use.set κ c.id (.taken j.owner ⟨v.taskCount, d, c⟩) x.context.id = .taken n x :=
    fun n s x hgen hx => by
      have hbooked := (h.tracked n s hgen).2 x hx
      rw [Use.set_of_ne _, hbooked]
      intro heq
      exact hfree n x (heq ▸ hbooked)
  unfold View.spawn
  rw [if_neg (by rw [hlive']; exact Bool.false_ne_true)]
  have hold : ∀ c' n x, c' ≠ c.id →
      Use.set κ c.id (.taken j.owner ⟨v.taskCount, d, c⟩) c' = .taken n x →
        κ c' = .taken n x ∧ x.task ≠ v.taskCount := by
    intro c' n x hc' hx
    rw [Use.set_of_ne hc'] at hx
    obtain ⟨-, s, -, hs', -⟩ := h.runs c' n x hx
    refine ⟨hx, fun heq => ?_⟩
    rw [heq, hnone] at hs'
    cases hs'
  have hnew : ∀ c' n x, c' = c.id →
      Use.set κ c.id (.taken j.owner ⟨v.taskCount, d, c⟩) c' = .taken n x →
        n = j.owner ∧ x = ⟨v.taskCount, d, c⟩ := by
    rintro c' n x rfl hx
    rw [Use.set_same] at hx
    obtain ⟨rfl, rfl⟩ := Use.taken.inj hx
    exact ⟨rfl, rfl⟩
  refine ⟨fun c' hc' => ?_, fun n s' hs' => ?_, fun n s' hs' hd => ?_, fun c' n x hx => ?_,
    fun c₁ c₂ n₁ n₂ x₁ x₂ hx₁ hx₂ htask => ?_⟩
  · rw [View.issued_modifyGeneration] at hc'
    have hc' : i ≤ c' := hc'
    rw [Use.set_of_ne (by omega)]
    exact h.unused c' (Nat.le_trans hi hc')
  · rw [View.generation?_modifyGeneration] at hs'
    split at hs'
    · next hn =>
      subst hn
      obtain ⟨s, hgen, rfl⟩ := Option.map_eq_some_iff.1 hs'
      have hgen : v.generation? j.owner = some s := hgen
      refine ⟨List.Nodup.append ((h.tracked _ s hgen).1.filter _) (List.nodup_singleton _) ?_,
        fun x hx => ?_⟩
      · intro x hx hnew
        obtain rfl := List.mem_singleton.1 hnew
        exact hfree _ _ ((h.tracked _ s hgen).2 _ (List.mem_filter.1 hx).1)
      · rcases List.mem_append.1 hx with hx | hx
        · exact hother _ s x hgen (List.mem_filter.1 hx).1
        · obtain rfl := List.mem_singleton.1 hx
          exact Use.set_same ..
    · have hgen : v.generation? n = some s' := hs'
      exact ⟨(h.tracked n s' hgen).1, fun x hx => hother n s' x hgen hx⟩
  · rw [View.generation?_modifyGeneration] at hs'
    split at hs'
    · next hn =>
      subst hn
      obtain ⟨s, hgen, rfl⟩ := Option.map_eq_some_iff.1 hs'
      have hgen : v.generation? j.owner = some s := hgen
      rw [View.isDestroyed_of_some hgen] at hlive
      exact absurd (hlive.symm.trans hd) Bool.false_ne_true
    · exact h.destroyed n s' hs' hd
  · rw [View.tasks_modifyGeneration, View.tasks_addTask]
    by_cases hc : c' = c.id
    · obtain ⟨rfl, rfl⟩ := hnew c' n x hc hx
      exact ⟨hc.symm, ⟨some j, false, false⟩, j, if_pos rfl, rfl, rfl, hj⟩
    · obtain ⟨hx, hne⟩ := hold c' n x hc hx
      obtain ⟨hid, s, j', hs', hrest⟩ := h.runs c' n x hx
      exact ⟨hid, s, j', (if_neg hne).trans hs', hrest⟩
  · by_cases hc₁ : c₁ = c.id <;> by_cases hc₂ : c₂ = c.id
    · exact hc₁.trans hc₂.symm
    · obtain ⟨-, rfl⟩ := hnew c₁ n₁ x₁ hc₁ hx₁
      exact absurd htask.symm (hold c₂ n₂ x₂ hc₂ hx₂).2
    · obtain ⟨-, rfl⟩ := hnew c₂ n₂ x₂ hc₂ hx₂
      exact absurd htask (hold c₁ n₁ x₁ hc₁ hx₁).2
    · exact h.once c₁ c₂ n₁ n₂ x₁ x₂ (hold c₁ n₁ x₁ hc₁ hx₁).1 (hold c₂ n₂ x₂ hc₂ hx₂).1 htask

end Ledger

/-! ## What a step tracks -/

/-- A step starts a task in a new context, or a thread that has the turn starts one. Otherwise no
task more is tracked. -/
def View.Sprouts (t : Prop) (v v' : View) : Prop :=
  v.TracksNoMore v' ∨ ∃ i d c, ∃ j : Job, v.issued ≤ i ∧ v.isDestroyed j.owner = false ∧
    v' = { v with issued := i }.spawn j.owner d c j ∧ j.RunsIn c ∧
    (v.issued ≤ c.id ∧ c.id < i ∨ t)

theorem View.Sprouts.spawn {i : Nat} (hi : v.issued ≤ i) {d : String}
    {c : Context} {j : Job} (hj : j.RunsIn c) {P : Prop} (hc : v.issued ≤ c.id ∧ c.id < i ∨ P) :
    v.Sprouts P ({ v with issued := i }.spawn j.owner d c j) := by
  cases hd : v.isDestroyed j.owner with
  | false => exact .inr ⟨i, d, c, j, hi, hd, rfl, hj, hc⟩
  | true =>
    have hd' : View.isDestroyed { v with issued := i } j.owner = true := hd
    unfold View.spawn
    rw [if_pos hd']
    exact .inl (.of_generations (View.le_draw hi) rfl)

theorem Effect.sprouts (h : Effect e t γ v γ' v') (hs : v.Sound e) :
    v.Sprouts (γ.hand.isSome = true) v' := by
  have hle := h.le hs
  cases h with
  | spawn hi _ _ hj hc => exact .spawn hi hj hc
  | touch hf => exact .inl (.modifyGeneration hle rfl fun s => .inr ⟨(hf s).2.1, (hf s).2.2⟩)
  | listen | unlisten => exact .inl (.modifyGeneration hle rfl fun s => .inr ⟨rfl, rfl⟩)
  | destroy => exact .inl (.modifyGeneration hle rfl fun s => .inl rfl)
  | renew =>
    refine .inl ⟨hle, fun k s' hs' => ?_⟩
    rw [View.generation?, View.get?_generations_insert] at hs'
    split at hs'
    · obtain rfl := Option.some.inj hs'
      exact .inl rfl
    · exact .inr ⟨s', hs', rfl, rfl⟩
  | cancel => exact .inl (.of_generations hle (View.cancelAll_spec _ _).1)
  | @abort _ _ u => exact .inl (.of_generations hle (View.cancelAll_spec v [u]).1)
  | mark | install =>
    refine .inl (.of_generations hle ?_)
    unfold View.modifyTab
    split <;> rfl
  | _ => exact .inl (.of_generations hle rfl)

theorem Talk.sprouts (h : Talk e σ v σ' v') (hs : v.Sound e) : v.Sprouts False v' := by
  have hle := h.le hs
  cases h with
  | @startBody _ a _ _ _ _ d arguments returns s =>
    have hj : (a.body d arguments returns v.issued).RunsIn (d.context.child v.issued) := rfl
    exact .spawn (d := s) (Nat.le_succ v.issued) hj
      (.inl ⟨Nat.le_refl v.issued, Nat.lt_succ_self v.issued⟩)
  | _ => exact .inl (.of_generations hle rfl)

/-- What a move tracks: a task in a new context, or one that a caller starts when it has the turn. -/
theorem Passage.sprouts {φ φ' : TaskId → Stage} {ψ ψ' : TaskId → Stance}
    (h : Passage e log m φ ψ ds v' φ' ψ') (hs : m.world.view.Sound e) :
    m.world.view.Sprouts (∃ t p, ds = [.performed t p m.world] ∧ (φ t).hand.isSome = true) v' := by
  have hle := h.le hs
  cases h with
  | @change t p x γ' σ' v' hp hx _ hchange =>
    generalize ψ t = σ at hchange
    cases hchange with
    | effect h =>
      refine (h.sprouts hs).imp_right ?_
      rintro ⟨i, d, c, j, hi, hd, hv, hj, hc⟩
      exact ⟨i, d, c, j, hi, hd, hv, hj, hc.imp_right fun hhand => ⟨t, p, rfl, hhand⟩⟩
    | talk h =>
      refine (h.sprouts hs).imp_right ?_
      rintro ⟨i, d, c, j, hi, hd, hv, hj, hc⟩
      exact ⟨i, d, c, j, hi, hd, hv, hj, hc.imp_right False.elim⟩
  | store => exact .inl (.modifyGeneration hle rfl fun s => .inr ⟨rfl, rfl⟩)
  | reply => exact .inl (.of_generations hle rfl)
  | depart _ _ _ hsettles | still hsettles => exact .inl (.of_generations hle hsettles.generations)

/-! ## Contexts that callers plan -/

/-- No task more. -/
abbrev World.SameCount (w w' : World) : Prop := w'.taskCount = w.taskCount

theorem World.sameCount_settle (w : World) (t : TaskId) (p : Pause) :
    w.SameCount (w.settle t p) := by
  refine (congrArg View.taskCount (World.view_settle w t p)).trans ?_
  cases p <;> rfl

/-- An execution that starts tasks only for roots, each in a context whose number is among `R`, the
numbers that it has drawn for them and has not used yet. -/
inductive Engine.Sows (e : Engine) (t : TaskId) : (Nat → Prop) → Execution α → Prop
  | done {R : Nat → Prop} (a : α) : Sows e t R (.done a)
  | quiet {β : Type} {R : Nat → Prop} {p : Execution β} {k : β → Execution α} :
      e.Bound t World.SameCount p → (∀ b, Sows e t R (k b)) → Sows e t R (p.bind k)
  | draw {R : Nat → Prop} {k : Nat → Execution α} :
      (∀ n, ¬ R n → Sows e t (fun c => R c ∨ c = n) (k n)) → Sows e t R (Execution.draw.bind k)
  | plant {R : Nat → Prop} {s : Site} {k : Option TaskId → Execution α} :
      R s.context.id → (∀ r, Sows e t (fun c => R c ∧ c ≠ s.context.id) (k r)) →
      Sows e t R ((Execution.spawn s s.context (.root s)).bind k)

namespace Engine.Sows

variable {R R' : Nat → Prop} {p q : Execution α}

theorem mono (h : e.Sows t R p) (hR : ∀ c, R c → R' c) : e.Sows t R' p := by
  induction h generalizing R' with
  | done a => exact .done a
  | quiet hp _ ih => exact .quiet hp fun b => ih b hR
  | draw _ ih =>
    exact .draw fun n hn => ih n (fun h => hn (hR n h)) fun c => Or.imp_left (hR c)
  | plant hs _ ih => exact .plant (hR _ hs) fun r => ih r fun c => And.imp_left (hR c)

theorem of_bound (h : e.Bound t World.SameCount p) : e.Sows t R p := by
  rw [← p.bind_done]
  exact .quiet h .done

theorem bind (h : e.Sows t R p) {k : α → Execution β}
    (hk : ∀ a, e.Sows t (fun _ => False) (k a)) : e.Sows t R (p.bind k) := by
  induction h with
  | done a => exact (hk a).mono fun _ => False.elim
  | quiet hp _ ih =>
    rw [Execution.bind_assoc]
    exact .quiet hp ih
  | draw _ ih => exact .draw ih
  | plant hs _ ih => exact .plant hs ih

/-- A step of it starts no task, draws a number, or starts a root in a context planned for it. -/
theorem step (h : e.Sows t R p) (hstep : e.step t w p = some (q, w')) :
    (w.SameCount w' ∧ e.Sows t R q) ∨
    (w' = w.fresh.2 ∧ (¬ R w.issued → e.Sows t (fun c => R c ∨ c = w.issued) q)) ∨
    ∃ s : Site, R s.context.id ∧
      w' = (w.spawn s.generation.number s.description s.context (.root s)).2 ∧
      e.Sows t (fun c => R c ∧ c ≠ s.context.id) q := by
  induction h with
  | done => cases hstep
  | @quiet β R p k hp hk ih =>
    by_cases hdone : ∃ b, p = .done b
    · obtain ⟨b, rfl⟩ := hdone
      exact ih b hstep
    · rw [step_bind e t w k fun b hb => hdone ⟨b, hb⟩] at hstep
      obtain ⟨⟨p', w₁⟩, hp', heq⟩ := Option.map_eq_some_iff.1 hstep
      obtain ⟨rfl, rfl⟩ := Prod.mk.inj heq
      obtain ⟨hR, hrest⟩ := hp
      exact .inl ⟨hR w p' w₁ hp', .quiet (hrest w p' w₁ hp') hk⟩
  | draw hk =>
    obtain ⟨rfl, rfl⟩ := Prod.mk.inj (Option.some.inj hstep)
    exact .inr (.inl ⟨rfl, hk w.issued⟩)
  | @plant R s k hs hk =>
    obtain ⟨rfl, rfl⟩ := Prod.mk.inj (Option.some.inj hstep)
    exact .inr (.inr ⟨s, hs, rfl, hk _⟩)

end Engine.Sows

namespace Supervisor

variable {R : Nat → Prop}

/-! ### Roots -/

/-- The numbers of the contexts of sites. -/
abbrev contextIds (sites : List Site) : List Nat := sites.map (·.context.id)

theorem sows_rootSites (g : Generation) {k : List Site → Execution α}
    (hk : ∀ sites, (contextIds sites).Nodup → (∀ s ∈ sites, ¬ R s.context.id) →
      e.Sows t (fun c => R c ∨ c ∈ contextIds sites) (k sites)) :
    e.Sows t R ((rootSites g).bind k) := by
  unfold rootSites
  generalize g.graph.roots = roots
  induction roots generalizing R k with
  | nil => exact (hk [] List.nodup_nil nofun).mono fun c => (Or.resolve_right · List.not_mem_nil)
  | cons b roots ih =>
    rw [List.mapM_cons]
    change e.Sows t R (Execution.draw.bind fun n =>
      (Execution.bind (roots.mapM (rootSite g)) fun sites =>
        .done (⟨g, b, 0, ⟨n, some g.tab, none⟩⟩ :: sites)).bind k)
    refine .draw fun n hn => ?_
    rw [Execution.bind_assoc]
    refine ih fun sites hnodup hnew => ?_
    let s : Site := ⟨g, b, 0, ⟨n, some g.tab, none⟩⟩
    refine (hk (s :: sites) (List.nodup_cons.2 ⟨fun hmem => ?_, hnodup⟩)
      (List.forall_mem_cons.2 ⟨hn, fun s' hs' h => hnew s' hs' (.inl h)⟩)).mono fun c => ?_
    · obtain ⟨s', hs', heq⟩ := List.mem_map.1 hmem
      exact hnew s' hs' (.inr heq)
    · change R c ∨ c ∈ n :: contextIds sites → _
      rw [List.mem_cons, or_assoc]
      exact id

theorem sows_spawnRoots {sites : List Site} (hnodup : (contextIds sites).Nodup)
    (hR : ∀ s ∈ sites, R s.context.id) {k : List TaskId → Execution α}
    (hk : ∀ us, e.Sows t (fun c => R c ∧ c ∉ contextIds sites) (k us)) :
    e.Sows t R ((spawnRoots sites).bind k) := by
  change e.Sows t R ((Execution.bind (sites.mapM fun s => Execution.spawn s s.context (.root s))
    _).bind k)
  rw [Execution.bind_assoc]
  change e.Sows t R (Execution.bind _ fun us : List (Option TaskId) => k (us.filterMap id))
  generalize hl : (fun us : List (Option TaskId) => k (us.filterMap id)) = l
  have hk' : ∀ us, e.Sows t (fun c => R c ∧ c ∉ contextIds sites) (l us) := fun us => hl ▸ hk _
  clear hk hl
  induction sites generalizing R l with
  | nil => exact (hk' []).mono fun c h => h.1
  | cons s sites ih =>
    obtain ⟨hs, hnodup⟩ := List.nodup_cons.1 hnodup
    rw [List.mapM_cons]
    change e.Sows t R ((Execution.bind (Execution.spawn s s.context (.root s)) fun r =>
      Execution.bind (sites.mapM fun s => Execution.spawn s s.context (.root s)) fun us =>
        .done (r :: us)).bind l)
    rw [Execution.bind_assoc]
    refine .plant (hR s List.mem_cons_self) fun r => ?_
    rw [Execution.bind_assoc]
    have hR' : ∀ s' ∈ sites, R s'.context.id ∧ s'.context.id ≠ s.context.id := fun s' hs' =>
      ⟨hR s' (List.mem_cons_of_mem _ hs'), fun heq => hs (List.mem_map.2 ⟨s', hs', heq⟩)⟩
    refine ih hnodup hR' _ fun us => (hk' (r :: us)).mono fun c hc => ⟨⟨hc.1, ?_⟩, ?_⟩
    · exact fun heq => hc.2 (heq ▸ List.mem_cons_self)
    · exact fun hmem => hc.2 (List.mem_cons_of_mem _ hmem)

theorem sows_startRoots (he : e.HasCore) (g : Generation) : e.Sows t R (startRoots e g) := by
  rw [startRoots_eq]
  refine sows_rootSites g fun sites hnodup _ => ?_
  have hsub : ∀ {ss : List Site}, ss.Sublist sites → (contextIds ss).Nodup := fun h =>
    hnodup.sublist (h.map _)
  have hhats : (hatRoots e sites).Sublist sites := List.filter_sublist.trans List.filter_sublist
  have hcommands : (commandRoots e sites).Sublist sites :=
    List.filter_sublist.trans List.filter_sublist
  -- A root is a hat or not, so the two lists share no number.
  have happart : ∀ s ∈ commandRoots e sites, s.context.id ∉ contextIds (hatRoots e sites) := by
    intro s hs hmem
    obtain ⟨s', hs', heq⟩ := List.mem_map.1 hmem
    obtain rfl := List.inj_on_of_nodup_map hnodup (hhats.subset hs') (hcommands.subset hs) heq
    have hhat := (List.mem_filter.1 hs').2
    have hnot := (List.mem_filter.1 hs).2
    rw [hhat] at hnot
    cases hnot
  have honce : e.Straight t World.Stays (handleAll (onceRoots sites)) :=
    straight_handleAll he fun _ _ => inferInstance
  refine .quiet (.of_straight (honce.mono fun _ _ h => h.taskCount)) fun _ => ?_
  refine sows_spawnRoots (hsub hhats)
    (fun s hs => .inr (List.mem_map_of_mem (hhats.subset hs))) fun started => ?_
  refine .quiet (.act (fun _ => rfl) fun _ => .done _) fun w => ?_
  refine .quiet (.pause (fun w => w.sameCount_settle t _) fun _ => .done _) fun _ => ?_
  exact sows_spawnRoots (hsub hcommands)
    (fun s hs => ⟨.inr (List.mem_map_of_mem (hcommands.subset hs)), happart s hs⟩)
    fun _ => .done ()

/-! ### Calls -/

theorem sows_start (he : e.HasCore) (id name content : String) :
    e.Sows t R (ExceptT.run (start e id name content)) := by
  cases hcontent : contentGraph? content with
  | error err =>
    unfold start
    rw [hcontent]
    exact .done _
  | ok graph =>
    cases graph with
    | none =>
      unfold start
      rw [hcontent]
      exact .done _
    | some graph =>
      rw [run_start hcontent]
      exact .quiet (.change fun _ => rfl) fun _ => .quiet (.atomically fun _ => rfl) fun g =>
        (sows_startRoots he g).bind fun _ => .done _

theorem bound_alone {p : Execution α} (hp : e.Bound t World.SameCount p) :
    e.Bound t World.SameCount (alone p) :=
  .pause (fun w => w.sameCount_settle t .turn) fun _ => hp.bind fun a => bound_passTurn a

theorem bound_withdraw (id : String) : e.Bound t World.SameCount (ExceptT.run (withdraw id)) := by
  refine .atomically fun w => ?_
  split
  · split <;> rfl
  · rfl

theorem sows_reload (he : e.HasCore) (id : String) :
    e.Sows t R (ExceptT.run (reload e id)) := by
  have hidle : ∀ {w w' : World}, w.Idles w' → w.SameCount w' := fun h => h.taskCount
  rw [run_reload]
  refine .quiet (.pause (fun w => w.sameCount_settle t _) fun _ => .done _) fun _ => ?_
  refine Engine.Sows.bind (.quiet ((bound_clear id _).mono fun _ _ => hidle) fun r => ?_)
    fun r => .of_bound (bound_passTurn r)
  cases r with
  | error err => exact .done _
  | ok old =>
    change e.Sows t R (ExceptT.run (renew e id old))
    rw [run_renew]
    refine .quiet ((bound_modifyTab id _).mono fun _ _ => hidle) fun _ => ?_
    exact (sows_start he id _ _).bind fun r =>
      .of_bound ((bound_install id old.name r).mono fun _ _ => hidle)

theorem taskCount_takeIn (sources : List TabSource) (w : World) :
    (takeIn e sources w).2.taskCount = w.taskCount := by
  have hfold : ∀ {β : Type} (f : World → β → World), (∀ w b, (f w b).taskCount = w.taskCount) →
      ∀ (bs : List β) (w : World), (bs.foldl f w).taskCount = w.taskCount := by
    intro β f hf bs
    induction bs with
    | nil => exact fun _ => rfl
    | cons b bs ih => exact fun w => (ih _).trans (hf w b)
  exact (hfold (fun w (s : TabSource) => w.putTab s.id s.id fun entry =>
    { entry with name := s.name.getD s.id, content := s.content }) (fun _ _ => rfl) _ _).trans
      (hfold (fun w id => w.putTab id id fun entry => entry) (fun _ _ => rfl) _ w)

/-- Every call starts its tasks in contexts that it has planned. -/
theorem sows_execution (he : e.HasCore) (c : Call) : e.Sows t R (c.execution e) := by
  have hidle : ∀ {w w' : World}, w.Idles w' → w.SameCount w' := fun h => h.taskCount
  cases c with
  | create id name content =>
    refine .of_bound (.bind (.atomically fun w => ?_) fun _ => .done ())
    split <;> rfl
  | save id content =>
    change e.Sows t R ((Execution.bind (Execution.change _) fun _ =>
      ExceptT.run (reload e id)).bind fun _ => .done ())
    rw [Execution.bind_assoc]
    exact .quiet (.change fun _ => rfl) fun _ => (sows_reload he id).bind fun _ => .done ()
  | delete id =>
    refine .of_bound (.bind ?_ fun _ => .done ())
    unfold delete
    split
    · exact .done _
    · exact bound_alone (.attempt (bound_withdraw id) fun old =>
        .lift ((bound_teardown id _).mono fun _ _ => hidle))
  | reload id => exact (sows_reload he id).bind fun _ => .done ()
  | release id =>
    exact .of_bound (.bind (bound_alone (.attempt ((bound_retire id _).mono fun _ _ => hidle)
      fun old => .lift ((bound_teardown id _).mono fun _ _ => hidle))) fun _ => .done ())
  | loadAll sources =>
    change e.Sows t R ((Execution.bind (Execution.atomically _) fun ids =>
      reloadAll e ids).bind fun _ => .done ())
    rw [Execution.bind_assoc]
    have hall : ∀ ids R, e.Sows t R (reloadAll e ids) := by
      intro ids
      induction ids with
      | nil => exact fun _ => .done _
      | cons id ids ih =>
        exact fun _ => (sows_reload he id).bind fun _ => (ih _).bind fun _ => .done _
    exact .quiet (.atomically fun w => taskCount_takeIn sources w) fun ids =>
      (hall ids R).bind fun _ => .done ()
  | shutdown =>
    have hall : ∀ tabs, e.Bound t World.SameCount (teardownAll tabs) := by
      intro tabs
      induction tabs with
      | nil => exact .done ()
      | cons p tabs ih => exact ((bound_teardown _ _).mono fun _ _ => hidle).bind fun _ => ih
    refine .of_bound (bound_alone ?_)
    refine Engine.Bound.bind (R := World.SameCount) (.atomically fun _ => rfl) fun tabs =>
      (hall tabs).bind fun _ => ?_
    exact .change fun w => congrArg View.taskCount (World.view_releaseAllLocks w)

end Supervisor

/-! ## Runs -/

/-- A record of what numbers are used for that agrees with a machine: what a caller has planned it
still has before it. -/
structure Sown (e : Engine) (m : Machine) (κ : Nat → Use) : Prop where
  ledger : Ledger κ m.world.view
  plans : ∀ t p, m.world.IsCaller t → m.threads[t]? = some p →
    e.Sows t (fun c => κ c = .planned t) p

namespace Sown

variable {κ : Nat → Use}

theorem start (e : Engine) (capacity : Nat) : Sown e (.start capacity) fun _ => .unused where
  ledger := {
    unused := fun _ _ => rfl
    tracked := fun n s hs => by
      change (∅ : Std.ExtTreeMap Nat GenerationState)[n]? = some s at hs
      simp at hs
    destroyed := fun n s hs => by
      change (∅ : Std.ExtTreeMap Nat GenerationState)[n]? = some s at hs
      simp at hs
    runs := fun _ _ _ hx => nomatch hx
    once := fun _ _ _ _ _ _ hx => nomatch hx }
  plans t p _ hp := by
    change (∅ : Std.ExtTreeMap TaskId (Execution Unit))[t]? = some p at hp
    simp at hp

/-- The use of a number that is in no plan changes. -/
theorem plans_set {c : Nat} (hfree : ∀ u, κ c ≠ .planned u) (a : Use) {u : TaskId}
    {p : Execution Unit} (hu : e.Sows u (fun c => κ c = .planned u) p) :
    e.Sows u (fun c' => Use.set κ c a c' = .planned u) p := by
  refine hu.mono fun c' hc' => ?_
  rw [Use.set_of_ne]
  · exact hc'
  · rintro rfl
    exact hfree u hc'

/-- A step of a caller. -/
theorem perform {φ φ' : TaskId → Stage} {ψ ψ' : TaskId → Stance} {p q : Execution Unit}
    (h : Sown e m κ) (hc : Conducted e log m φ ψ)
    (hpass : Passage e log m φ ψ ds w'.view φ' ψ') (hcaller : m.world.IsCaller t)
    (hp : m.threads[t]? = some p) (hstep : e.step t m.world p = some (q, w')) :
    ∃ κ', Use.Later κ κ' ∧ Ledger κ' w'.view ∧ e.Sows t (fun c => κ' c = .planned t) q ∧
      ∀ u (r : Execution Unit), u ≠ t → e.Sows u (fun c => κ c = .planned u) r →
        e.Sows u (fun c => κ' c = .planned u) r := by
  have hle := hpass.le hc.sound
  rcases (h.plans t p hcaller hp).step hstep with ⟨hcount, hq⟩ | ⟨hw, hq⟩ | ⟨s, hs, hw, hq⟩
  · refine ⟨κ, .refl κ, ?_, hq, fun _ _ _ h => h⟩
    rcases hpass.sprouts hc.sound with hkeep | ⟨i, d, c, j, -, hlive, hv, -⟩
    · exact h.ledger.keep hkeep
    · -- To start a task would be to have one more.
      have hlive : View.isDestroyed { m.world.view with issued := i } j.owner = false := hlive
      have hmore : w'.view.taskCount = m.world.taskCount + 1 := by
        rw [hv]
        unfold View.spawn
        rw [if_neg (by rw [hlive]; exact Bool.false_ne_true), View.taskCount_modifyGeneration]
        rfl
      have hcount : w'.view.taskCount = m.world.taskCount := hcount
      omega
  · have hfree := h.ledger.unused m.world.issued (Nat.le_refl _)
    subst hw
    refine ⟨Use.set κ m.world.issued (.planned t), .set fun n x => by rw [hfree]; nofun,
      h.ledger.plan t hle rfl (Nat.lt_succ_self m.world.issued),
      (hq (by rw [hfree]; nofun)).mono fun c => ?_,
      fun u r _ hu => plans_set (fun u' => by rw [hfree]; nofun) _ hu⟩
    rintro (hc | rfl)
    · rw [Use.set_of_ne]
      · exact hc
      · rintro rfl
        exact nomatch hfree.symm.trans hc
    · exact Use.set_same ..
  · have hs : κ s.context.id = .planned t := hs
    cases hd : m.world.isDestroyed s.generation.number with
    | true =>
      have hsame : w' = m.world := by
        rw [hw]
        unfold World.spawn
        rw [if_pos hd]
      subst hsame
      exact ⟨κ, .refl κ, h.ledger, hq.mono fun _ => And.left, fun _ _ _ h => h⟩
    | false =>
      have hlt : s.context.id < m.world.view.issued := by
        by_contra hnot
        exact nomatch (h.ledger.unused _ (Nat.le_of_not_lt hnot)).symm.trans hs
      have hj : (Job.root s).RunsIn s.context := rfl
      have hnot : ∀ n x, κ s.context.id ≠ .taken n x := fun n x => by rw [hs]; nofun
      have hledger := h.ledger.spawn hc.sound (Nat.le_refl m.world.view.issued)
        (d := s.description) (j := .root s) hd hj hlt hnot
      refine ⟨Use.set κ s.context.id (.taken s.generation.number
        ⟨m.world.taskCount, s.description, s.context⟩), .set hnot, ?_, hq.mono fun c hc => ?_,
        fun u r hu hr => ?_⟩
      · rw [hw, World.view_spawn]
        exact hledger
      · rw [Use.set_of_ne hc.2]
        exact hc.1
      · refine hr.mono fun c hc => ?_
        rw [Use.set_of_ne]
        · exact hc
        · rintro rfl
          exact hu (Use.planned.inj (hc.symm.trans hs))

/-- Every move keeps a record right, which only grows. -/
theorem move (he : e.HasCore) {φ : TaskId → Stage} {ψ : TaskId → Stance} (h : Sown e m κ)
    (hc : Conducted e log m φ ψ) (hmove : Move e m ds m') :
    ∃ κ', Use.Later κ κ' ∧ Sown e m' κ' := by
  obtain ⟨φ', ψ', hpass, -⟩ := hc.move (Engine.orderly_of_core he) hmove
  have hle := hpass.le hc.sound
  have hwas := fun t p (hp : m.threads[t]? = some p) => hc.isCaller_of_le (t := t) hle hp
  by_cases hcalls : ∃ t p, ds = [.performed t p m.world] ∧ m.world.IsCaller t
  · obtain ⟨t, p, rfl, hcaller⟩ := hcalls
    cases hmove with
    | @perform _ _ q w hp hstep =>
      obtain ⟨κ', hlater, hledger, hq, hothers⟩ := h.perform hc hpass hcaller hp hstep
      refine ⟨κ', hlater, hledger, fun u r hu hr => ?_⟩
      rw [threads_insert] at hr
      split at hr
      · next hut =>
        subst hut
        obtain rfl := Option.some.inj hr
        exact hq
      · next hut => exact hothers u r hut (h.plans u r (hwas u r hr hu) hr)
  · have hplans : ∀ κ' : Nat → Use, (∀ u (p : Execution Unit), e.Sows u (fun c => κ c = .planned u) p →
        e.Sows u (fun c => κ' c = .planned u) p) →
        ∀ u p, m'.world.IsCaller u → m'.threads[u]? = some p →
          e.Sows u (fun c => κ' c = .planned u) p := by
      intro κ' hκ' u p hu hp
      rcases hmove.origin hp with hsame | ⟨q, hq, rfl, -⟩ | ⟨j, hlive, -, -⟩ | ⟨c, -, rfl⟩
      · exact hκ' u p (h.plans u p (hwas u p hsame hu) hsame)
      · exact absurd ⟨u, q, rfl, hwas u q hq hu⟩ hcalls
      · exact nomatch (World.job?_of_le hle hlive.job?).symm.trans hu.job?
      · exact Supervisor.sows_execution he c
    rcases hpass.sprouts hc.sound with hkeep | ⟨i, d, c, j, hi, hlive, hv, hj, hnew⟩
    · exact ⟨κ, .refl κ, h.ledger.keep hkeep, hplans κ fun _ _ h => h⟩
    · obtain ⟨hle, hlt⟩ := hnew.resolve_right fun ⟨t, p, hds, hhand⟩ => by
        -- Who has the turn is a caller.
        subst hds
        cases hmove with
        | perform hp =>
          obtain ⟨x, hx, -, hfits, -⟩ := (hc.task t).carries p hp
          obtain ⟨r, hr, rfl⟩ := Option.map_eq_some_iff.1 hx
          cases hjob : r.job with
          | none => exact hcalls ⟨t, p, rfl, r, hr, hjob⟩
          | some j =>
            have hfits : (φ t).Fits r.job := hfits
            rw [hjob] at hfits
            have hhome : φ t = .ofHome j.home? := hfits
            rw [hhome] at hhand
            cases hhand
      have hfree := h.ledger.unused _ hle
      have hnot : ∀ n x, κ c.id ≠ .taken n x := fun n x => by rw [hfree]; nofun
      have hledger := h.ledger.spawn hc.sound hi (d := d) hlive hj hlt hnot
      refine ⟨Use.set κ c.id (.taken j.owner ⟨m.world.view.taskCount, d, c⟩), .set hnot, ?_,
        hplans _ fun u p hu => ?_⟩
      · rw [hv]
        exact hledger
      · exact plans_set (fun u => by rw [hfree]; nofun) _ hu

end Sown

/-- In every reachable state there is such a record, and in a later one there is one that agrees with
it. -/
theorem Run.sown_extend (he : e.HasCore) {log₀ : List Deed} {φ : TaskId → Stage} {ψ : TaskId → Stance}
    (hc : Conducted e log₀ m φ ψ) (hrun : Run e m log m') {κ : Nat → Use} (h : Sown e m κ) :
    ∃ κ', Use.Later κ κ' ∧ Sown e m' κ' := by
  induction hrun with
  | refl => exact ⟨κ, .refl κ, h⟩
  | move hrun hmove ih =>
    obtain ⟨κ₁, hlater, h₁⟩ := ih
    obtain ⟨φ₁, ψ₁, hc₁, -⟩ := hc.extend (Engine.orderly_of_core he) hrun
    obtain ⟨κ₂, hlater', h₂⟩ := h₁.move he hc₁ hmove
    exact ⟨κ₂, hlater.trans hlater', h₂⟩

theorem Run.sown (he : e.HasCore) {capacity : Nat} (hrun : Run e (.start capacity) log m) :
    ∃ κ, Sown e m κ := by
  obtain ⟨κ, -, h⟩ := hrun.sown_extend he (.start e capacity) (.start e capacity)
  exact ⟨κ, h⟩

end BlockEngine
