import BlockEngine.Proofs.Aside
import BlockEngine.Proofs.Starting

/-!
# A caller that acts alone

While one caller is under way tasks go on all the time, but no other caller performs a step.

* `Deed.ByCaller` : no other caller performs a step; `Deed.transitions` : the steps of one thread;
* `World.Background`, `World.Lasting` : what tasks leave as it is; `Reached.background`;
* `Brings` : what a caller that acts alone brings an execution to, and the steps it takes.
-/

namespace BlockEngine

variable {α β : Type} {e : Engine} {c t : TaskId} {w w' : World} {log log' ds : List Deed}
  {m m' : Machine}

/-! ## Logs -/

namespace Deed

/-- No caller but `c` performs a step. -/
def ByCaller (c : TaskId) (log : List Deed) : Prop :=
  ∀ t p w, .performed t p w ∈ log → w.IsCaller t → t = c

theorem ByCaller.left (h : ByCaller c (log ++ log')) : ByCaller c log := fun t p w hmem =>
  h t p w (List.mem_append_left _ hmem)

theorem ByCaller.right (h : ByCaller c (log ++ log')) : ByCaller c log' := fun t p w hmem =>
  h t p w (List.mem_append_right _ hmem)

/-- The steps of one thread, each with the state before and the state after it. -/
def transitions (e : Engine) (t : TaskId) (log : List Deed) : List (World × World) :=
  log.filterMap fun
    | .performed u p w => if u = t then (e.step t w p).map fun r => (w, r.2) else none
    | .dropped .. => none

theorem transitions_append (log log' : List Deed) :
    transitions e t (log ++ log') = transitions e t log ++ transitions e t log' := List.filterMap_append

theorem transitions_of_others (h : ∀ d ∈ log, d.actor ≠ t) : transitions e t log = [] := by
  refine List.filterMap_eq_nil_iff.2 fun d hd => ?_
  cases d with
  | dropped => rfl
  | performed u p w => exact if_neg (h _ hd)

theorem transitions_performed {p q : Execution Unit} (h : e.step t w p = some (q, w')) :
    transitions e t [.performed t p w] = [(w, w')] := by
  simp [transitions, h]

theorem Allows.transitions {R : World → World → Prop} (h : Allows e t R log) :
    ∀ s ∈ transitions e t log, R s.1 s.2 := by
  intro s hs
  obtain ⟨d, hd, hsome⟩ := List.mem_filterMap.1 hs
  cases d with
  | dropped => cases hsome
  | performed u p w =>
    by_cases hu : u = t
    · subst hu
      obtain ⟨r, hr, rfl⟩ := Option.map_eq_some_iff.1 ((if_pos rfl).symm.trans hsome)
      exact h p w r.1 r.2 hd hr
    · exact absurd ((if_neg hu).symm.trans hsome) nofun

end Deed

/-! ## While tasks go on -/

/-- What is left as it is while tasks go on and calls are dropped that have not performed a step: the
tabs, and the turn if it is the caller's. -/
structure World.Background (c : TaskId) (w w' : World) : Prop where
  tabs : w'.tabs = w.tabs
  holder : w.turn.holder = some c → w'.turn.holder = some c
  beside : w.view.Beside w'.view

theorem World.Background.tab? (h : w.Background c w') (id : String) : w'.tab? id = w.tab? id :=
  congrArg (Keyed.get? id) h.tabs

theorem World.Background.refl (w : World) : w.Background c w := ⟨rfl, id, .refl _⟩

theorem World.Background.trans {w'' : World} (h : w.Background c w') (h' : w'.Background c w'') :
    w.Background c w'' :=
  ⟨h'.tabs.trans h.tabs, fun hholder => h'.holder (h.holder hholder), h.beside.trans h'.beside⟩

/-- What tasks do not make false. -/
def World.Lasting (c : TaskId) (P : World → Prop) : Prop := ∀ w w', w.Background c w' → P w → P w'

theorem World.Lasting.and {P Q : World → Prop} (h : Lasting c P) (h' : Lasting c Q) :
    Lasting c fun w => P w ∧ Q w := fun w w' hback hw => ⟨h w w' hback hw.1, h' w w' hback hw.2⟩

theorem World.lasting_holder (c : TaskId) : Lasting c fun w => w.turn.holder = some c :=
  fun _ _ hback => hback.holder

namespace Reached

/-- Moves between the steps of a caller that acts alone. -/
theorem background (h : Reached e c m) (he : e.Orderly) (hrun : Run e m log m')
    (hlog : ∀ d ∈ log, d.actor ≠ c) (hc : Deed.ByCaller c log) :
    Reached e c m' ∧ m.world.Background c m'.world := by
  induction hrun with
  | refl => exact ⟨h, rfl, id, .refl _⟩
  | @move log ds m₁ m₂ hrun hmove ih =>
    obtain ⟨h₁, hback⟩ := ih (fun d hd => hlog d (List.mem_append_left _ hd)) hc.left
    have hds : ∀ d ∈ ds, d.actor ≠ c := fun d hd => hlog d (List.mem_append_right _ hd)
    obtain ⟨log₁, φ, ψ, hcond⟩ := h₁.conducted he
    have htask : ∀ t p w, .performed t p w ∈ ds → ¬ m₁.world.IsCaller t ∧
        Powerless φ m₁.world t := by
      intro t p w hmem
      cases hmove with
      | @perform u q r w' hp hstep =>
        have heq := List.mem_singleton.1 hmem
        cases heq
        have hnot : ¬ m₁.world.IsCaller t := fun hcaller =>
          hds _ hmem (hc.right _ _ _ hmem hcaller)
        exact ⟨hnot, hcond.powerless_of_task hp hnot⟩
      | drop => cases List.mem_singleton.1 hmem
      | _ => cases hmem
    obtain ⟨φ', ψ', hpass, -⟩ := hcond.move he hmove
    refine ⟨(h₁.move he hmove).1, ?_, fun hholder => ?_,
      hback.beside.trans (hcond.beside he hmove fun t p w hmem => (htask t p w hmem).2)⟩
    · exact ((hpass.calm fun t p w hmem => (htask t p w hmem).2).2.2
        fun t p w hmem => (htask t p w hmem).1).trans hback.tabs
    · exact hcond.holder_of_others he hmove h₁.caller (hback.holder hholder) hds

/-- What a caller comes to whose steps keep something that tasks do not make false. -/
theorem keeps (h : Reached e c m) (he : e.Orderly) {p : Execution α} {k : α → Execution Unit} {a : α}
    (hcourse : Course e c k m' m p log a) (hc : Deed.ByCaller c log) {R : World → World → Prop}
    (hown : Deed.Allows e c R log) {P : World → Prop} (hlasting : World.Lasting c P)
    (hP : ∀ w w', w.view ≤ w'.view → R w w' → P w → P w') (hm : P m.world) :
    Reached e c m' ∧ P m'.world := by
  induction hcourse with
  | done hrun hothers =>
    obtain ⟨h', hback⟩ := h.background he hrun hothers hc
    exact ⟨h', hlasting _ _ hback hm⟩
  | @step m m₁ p q w log log' a hrun hothers hthread hstep _ ih =>
    obtain ⟨h₁, hback⟩ := h.background he hrun hothers hc.left
    have hstep' : e.step c m₁.world (p.bind k) = some (q.bind k, w) := by
      rw [Engine.step_bind e c _ k (by rintro a rfl; cases hstep), hstep]
      rfl
    obtain ⟨h₂, hle⟩ := h₁.move he (.perform hthread hstep')
    have hR := hown _ _ _ _ (List.mem_append_right _ List.mem_cons_self) hstep'
    refine ih h₂ (fun t p w hmem => hc t p w (List.mem_append_right _ (List.mem_cons_of_mem _ hmem)))
      (fun p w q w' hmem => ?_) (hP _ _ hle hR (hlasting _ _ hback hm))
    exact hown p w q w' (List.mem_append_right _ (List.mem_cons_of_mem _ hmem))

end Reached

/-! ## What a caller brings an execution to -/

/-- A caller that acts alone, in a state like `P`, brings `p` to an answer and a state like `Q`,
whatever tasks do meanwhile. `Q` also says what the steps of the caller are. -/
def Brings (e : Engine) (c : TaskId) (P : World → Prop) (p : Execution α)
    (Q : α → List (World × World) → World → Prop) : Prop :=
  ∀ (k : α → Execution Unit) m log m' a, Reached e c m → P m.world → Deed.ByCaller c log →
    Course e c k m' m p log a → Reached e c m' ∧ Q a (Deed.transitions e c log) m'.world

namespace Brings

variable {P P' : World → Prop} {Q Q' : α → List (World × World) → World → Prop} {p : Execution α}

theorem done (he : e.Orderly) (hP : World.Lasting c P) (a : α) :
    Brings e c P (.done a) fun b ss w => b = a ∧ ss = [] ∧ P w := by
  intro k m log m' b h hm hc hcourse
  cases hcourse with
  | step _ _ _ hstep => cases hstep
  | done hrun hothers =>
    obtain ⟨h', hback⟩ := h.background he hrun hothers hc
    exact ⟨h', rfl, Deed.transitions_of_others hothers, hP _ _ hback hm⟩

theorem bind (h : Brings e c P p Q) {l : α → Execution β}
    {R : β → List (World × World) → World → Prop}
    (hl : ∀ a ss, Brings e c (Q a ss) (l a) fun b ss' => R b (ss ++ ss')) :
    Brings e c P (p.bind l) R := by
  intro k m log m' b hreached hm hc hcourse
  obtain ⟨m₁, log₁, log₂, a, rfl, h₁, h₂⟩ := hcourse.of_bind
  obtain ⟨hreached₁, hm₁⟩ := h _ _ _ _ _ hreached hm hc.left h₁
  rw [Deed.transitions_append]
  exact hl a _ _ _ _ _ _ hreached₁ hm₁ hc.right h₂

theorem weaken (h : Brings e c P p Q) (hP : ∀ w, P' w → P w) (hQ : ∀ a ss w, Q a ss w → Q' a ss w) :
    Brings e c P' p Q' := by
  intro k m log m' a hreached hm hc hcourse
  obtain ⟨h', hm'⟩ := h k m log m' a hreached (hP _ hm) hc hcourse
  exact ⟨h', hQ _ _ _ hm'⟩

/-- One step, from a state like `P` to one like `Q`. -/
theorem single (he : e.Orderly) (hP : World.Lasting c P) (hQ : ∀ a ss, World.Lasting c (Q a ss))
    (hp : ∀ a, p ≠ .done a) (hone : ∀ w q w', e.step c w p = some (q, w') → ∃ a, q = .done a)
    (h : ∀ w a w', w.view.Sound e → P w → w.view ≤ w'.view → e.step c w p = some (.done a, w') →
      Q a [(w, w')] w') : Brings e c P p Q := by
  intro k m log m' a hreached hm hc hcourse
  obtain ⟨m₁, log₁, log₂, q, w, rfl, hstep, hrun₁, hothers₁, hmove, hrun₂, hothers₂⟩ :=
    hcourse.of_single hp hone
  obtain ⟨h₁, hback₁⟩ := hreached.background he hrun₁ hothers₁ hc.left
  obtain ⟨h₂, hle⟩ := h₁.move he hmove
  obtain ⟨h', hback₂⟩ := h₂.background he hrun₂ hothers₂ fun t p w hmem =>
    hc t p w (List.mem_append_right _ (List.mem_cons_of_mem _ hmem))
  have hsteps : Deed.transitions e c (log₁ ++ .performed c q m₁.world :: log₂) = [(m₁.world, w)] := by
    generalize hm₂ : (⟨w, m₁.threads.insert c (k a)⟩ : Machine) = m₂ at hmove
    cases hmove with
    | perform _ hstep' =>
      obtain rfl := congrArg Machine.world hm₂
      rw [Deed.transitions_append, Deed.transitions_of_others hothers₁, ← List.singleton_append,
        Deed.transitions_append, Deed.transitions_of_others hothers₂, Deed.transitions_performed hstep']
      rfl
  rw [hsteps]
  exact ⟨h', hQ _ _ _ _ hback₂ (h _ _ _ (h₁.sound he) (hP _ _ hback₁ hm) hle hstep)⟩

theorem atomically (he : e.Orderly) {f : World → α × World} (hP : World.Lasting c P)
    (hQ : ∀ a ss, World.Lasting c (Q a ss))
    (h : ∀ w, w.view.Sound e → P w → w.view ≤ (f w).2.view → Q (f w).1 [(w, (f w).2)] (f w).2) :
    Brings e c P (Execution.atomically f) Q := by
  refine single he hP hQ nofun (fun w q w' hstep => ?_) fun w a w' hs hw hle hstep => ?_
  · obtain ⟨rfl, -⟩ := Prod.mk.inj (Option.some.inj hstep)
    exact ⟨_, rfl⟩
  · obtain ⟨ha, rfl⟩ := Prod.mk.inj (Option.some.inj hstep)
    obtain rfl := Execution.done.inj ha
    exact h w hs hw hle

theorem change (he : e.Orderly) {f : World → World} {Q : List (World × World) → World → Prop}
    (hP : World.Lasting c P) (hQ : ∀ ss, World.Lasting c (Q ss))
    (h : ∀ w, w.view.Sound e → P w → w.view ≤ (f w).view → Q [(w, f w)] (f w)) :
    Brings e c P (Execution.change f) fun _ => Q :=
  atomically he (f := fun w => ((), f w)) hP (fun _ => hQ) h

/-- Steps that keep something tasks do not make false. -/
theorem of_bound (he : e.Orderly) {R : World → World → Prop} (hp : e.Bound c R p)
    (hlasting : World.Lasting c P) (hP : ∀ w w', w.view ≤ w'.view → R w w' → P w → P w') :
    Brings e c P p fun _ ss w => P w ∧ ∀ s ∈ ss, R s.1 s.2 := fun _ _ _ _ _ hreached hm hc hcourse =>
  have hown := hcourse.own_steps hp
  have ⟨h', hm'⟩ := hreached.keeps he hcourse hc hown hlasting hP hm
  ⟨h', hm', hown.transitions⟩

end Brings
end BlockEngine
