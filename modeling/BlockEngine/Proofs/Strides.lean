import BlockEngine.Proofs.Retaining
import BlockEngine.Proofs.Suspension

/-!
# Runs in strides

Limits hold threads except in the executions that are exempt from them. Where such executions are
brief and nobody is interrupted, a run goes on in strides: moves within the limits, and exempt
executions that are gone through at once.

* `Strides` : a run in such strides;
* `Cooperation.strides` : every run is one in which nobody is interrupted;
* `Engine.Through.plain` : a brief execution that stays within limits without exemptions.
-/

namespace BlockEngine

variable {α β : Type} {e : Engine} {t : TaskId} {w w' : World} {L : Limits} {p : Execution α}
  {k : α → Execution Unit} {a : α} {log : List Deed} {m m' m'' : Machine}

/-- The steps of a thread that goes through an execution interrupt nobody, if nobody else is in the
middle of a turn. -/
theorem Engine.Through.cooperation (h : e.Through t k p m.world log a w')
    (hp : m.threads[t]? = some (p.bind k)) (honly : ∀ u, m.Busy u → u = t) :
    Cooperation e m log ⟨w', m.threads.insert t (k a)⟩ := by
  generalize hw : m.world = w at h
  induction h generalizing m with
  | done =>
    subst hw
    rw [Worker.threads_insert_self (p := k _) hp]
    exact .refl
  | @step p q _ w₁ _ log a hstep _ ih =>
    subst hw
    have hmove : Move e m [.performed t (p.bind k) m.world] ⟨w₁, m.threads.insert t (q.bind k)⟩ :=
      .perform hp (by
        rw [Engine.step_bind e t _ k (by rintro b rfl; cases hstep), hstep]
        rfl)
    have hrest := ih (m := ⟨w₁, m.threads.insert t (q.bind k)⟩)
      ((threads_insert ..).trans (if_pos rfl)) (fun u ⟨r, hr, hrests⟩ => by
        rw [threads_insert] at hr
        split at hr
        · next h => exact h
        · exact honly u ⟨r, hr, hrests⟩) rfl
    rw [Worker.threads_insert_insert] at hrest
    refine (Cooperation.single hmove fun u hu => ?_).trans hrest
    obtain rfl := honly u hu
    exact ⟨_, rfl⟩

/-! ## Brief executions without exemptions -/

theorem Execution.Brief.not_enters (hp : p.Brief) (s : Site) : ¬ p.Enters s := by
  cases hp <;> nofun

/-- Where a brief execution stays within limits, every step does that is performed on the way. -/
theorem Engine.Through.plain [BlockLimits L] (hstrict : ∀ {β : Type} (x : Execution β), ¬ L.Exempts x)
    (h : e.Through t k p w log a w') (hbrief : p.Brief) (hp : p.Within L)
    (hfits : ∀ u q w₁, .performed u q w₁ ∈ log → L.Fits w₁) (hfits' : L.Fits w')
    (hreacts : ∀ u l v g w₁, .performed u (.signal l v g) w₁ ∈ log → L.Signals l →
      ∀ r ∈ (w₁.locks.deliver l v).1.2, (e.react v r).Within L) :
    L.Allows w w' ∧ ∀ d ∈ log, ∃ q : Execution α, ∃ w₁, d = .performed t (q.bind k) w₁ ∧
      q.Plain L ∧ (∀ b, q ≠ .done b) ∧ L.Fits w₁ := by
  induction h with
  | done => exact ⟨BasicLimits.refl _, nofun⟩
  | @step p q w w₁ w' log a hstep hrest ih =>
    have hplain := hp.plain_or_exempt.resolve_right fun ⟨_, x, _, hx, _⟩ => hstrict x hx
    have hw := hfits _ _ _ List.mem_cons_self
    have hw₁ : L.Fits w₁ := by
      cases hrest with
      | done => exact hfits'
      | step => exact hfits _ _ _ (List.mem_cons_of_mem _ List.mem_cons_self)
    obtain ⟨hallows, hq⟩ := hplain.step hstep hw hw₁ (fun s hs => absurd hs (hbrief.not_enters s))
      fun l v g hp' => by
        subst hp'
        exact hreacts t l v _ w List.mem_cons_self
    obtain ⟨hallows', hdeeds⟩ := ih (hbrief.step hstep) hq
      (fun u q w₁ hd => hfits u q w₁ (List.mem_cons_of_mem _ hd)) hfits'
      fun u l v g w₁ hd => hreacts u l v g w₁ (List.mem_cons_of_mem _ hd)
    refine ⟨BasicLimits.trans hallows hallows', List.forall_mem_cons.2 ⟨?_, hdeeds⟩⟩
    refine ⟨p, w, rfl, hplain, ?_, hw⟩
    rintro b rfl
    cases hstep

/-! ## Strides -/

/-- A step within limits. -/
def Deed.IsPlain (L : Limits) : Deed → Prop
  | .performed _ p _ => p.Plain L
  | .dropped .. => True

/-- A run whose strides are moves within limits and exempt executions that are gone through at once. -/
inductive Strides (e : Engine) (L : Limits) : Machine → List Deed → Machine → Prop
  | refl {m : Machine} : Strides e L m [] m
  | plain {ds log : List Deed} {m m' m'' : Machine} :
      Move e m ds m' → (∀ t, m.Busy t → ∃ p, ds = [.performed t p m.world]) →
      (∀ d ∈ ds, d.IsPlain L) → L.Allows m.world m'.world →
      Strides e L m' log m'' → Strides e L m (ds ++ log) m''
  | exempt {β : Type} {x : Execution β} {k : β → Execution Unit} {t : TaskId} {b : β} {w : World}
      {ds log : List Deed} {m m' : Machine} :
      m.threads[t]? = some (x.bind k) → (∀ u, m.Busy u → u = t) → L.Exempts x →
      e.Through t k x m.world ds b w →
      Strides e L ⟨w, m.threads.insert t (k b)⟩ log m' → Strides e L m (ds ++ log) m'

theorem Strides.cooperation (h : Strides e L m log m') : Cooperation e m log m' := by
  induction h with
  | refl => exact .refl
  | plain hmove hbusy _ _ _ ih => exact .move hmove hbusy ih
  | exempt hp honly _ hthrough _ ih => exact (hthrough.cooperation hp honly).trans ih

/-- A run in which nobody is interrupted goes on in strides, if only brief executions are exempt. At its
end what the threads have to do is within the limits. -/
theorem Cooperation.strides [BlockLimits L] [SupervisorLimits L] [MoveLimits L]
    (hexempt : ∀ {β : Type} (x : Execution β), L.Exempts x → x.Brief ∧ ∀ b, x ≠ .done b)
    (hrun : Cooperation e m log m') (hrest : m'.AtRest)
    (hfits : ∀ log₁ m₁ log₂, Run e m log₁ m₁ → Run e m₁ log₂ m' → L.Fits m₁.world)
    (henters : ∀ t p w s, .performed t p w ∈ log → p.Enters s → e.WithinAt L s)
    (hreacts : ∀ t l v k w, .performed t (.signal l v k) w ∈ log → L.Signals l →
      ∀ r ∈ (w.locks.deliver l v).1.2, (e.react v r).Within L)
    (hworks : ∀ log₁ m₁ log₂ t j, Run e m log₁ m₁ → Run e m₁ log₂ m' → m₁.world.IsLive t j →
      (e.work j).Within L)
    (hstart : ∀ (t : TaskId) p, m.threads[t]? = some p → Execution.Within L p) :
    Strides e L m log m' ∧
      ∀ (t : TaskId) p, m'.threads[t]? = some p → Execution.Within L p := by
  -- An exempt execution shortens what is left of the log, a move what is left of the run.
  induction hn : log.length using Nat.strong_induction_on generalizing m log with
  | _ n ihlog =>
    subst hn
    induction hrun with
    | refl => exact ⟨.refl, hstart⟩
    | @move ds log m m₁ m' hmove hbusy hafter ih =>
      have hwhole := (Cooperation.move hmove hbusy hafter).run
      by_cases hplain : ∀ t p w, .performed t p w ∈ ds → p.Plain L
      · have hmoved := hmove.within (X := fun _ => False) (hfits _ m _ .refl hwhole)
          (hfits _ m₁ _ (Run.single hmove) hafter.run)
          (fun t p w s hd _ => henters t p w s (List.mem_append_left _ hd))
          (fun t l v k w hd => hreacts t l v k w (List.mem_append_left _ hd))
          (fun t j _ => hworks _ m _ t j .refl hwhole)
          (fun t p w hd _ => hplain t p w hd) (fun t p _ => hstart t p)
        obtain ⟨hthreads, hdeeds⟩ := hmoved
        obtain ⟨hstrides, hend⟩ := ih hrest
          (fun log₁ m₂ log₂ h₁ => hfits _ m₂ log₂ ((Run.single hmove).trans h₁))
          (fun t p w s hd => henters t p w s (List.mem_append_right _ hd))
          (fun t l v k w hd => hreacts t l v k w (List.mem_append_right _ hd))
          (fun log₁ m₂ log₂ t j h₁ => hworks _ m₂ log₂ t j ((Run.single hmove).trans h₁))
          (fun t p => hthreads t p id)
          fun n hlt m₂ log₂ => ihlog n (by simp; omega)
        refine ⟨.plain hmove hbusy (fun d hd => ?_) (hmove.allows fun t p w q w' hd hstep => ?_) hstrides,
          hend⟩
        · cases d with
          | performed t p w => exact hplain t p w hd
          | dropped => trivial
        · exact (hdeeds _ hd id).2 q w' hstep
      · simp only [not_forall] at hplain
        obtain ⟨t, p, w, hd, hnot⟩ := hplain
        obtain ⟨hp, rfl⟩ := hmove.of_performed hd
        have honly : ∀ u, m.Busy u → u = t := fun u hu => by
          obtain ⟨q, rfl⟩ := hbusy u hu
          exact (Deed.performed.inj (List.mem_singleton.1 hd)).1.symm
        obtain ⟨β, x, k, hx, rfl, hk⟩ := (hstart t p hp).plain_or_exempt.resolve_left hnot
        obtain ⟨hbrief, hdone⟩ := hexempt x hx
        obtain ⟨b, w, log₁, log₂, hlog, hthrough, hlater⟩ :=
          (Cooperation.move hmove hbusy hafter).through hbrief hp hrest
        have hnonempty : log₁ ≠ [] := by
          rintro rfl
          cases hthrough
          exact hdone _ rfl
        have hrun₁ := (hthrough.cooperation hp honly).run
        rw [hlog] at henters hreacts ihlog ⊢
        have hlen : 0 < log₁.length := List.length_pos_iff.2 hnonempty
        obtain ⟨hstrides, hend⟩ := ihlog log₂.length (by simp; omega) hlater
          (fun log₁ m₂ log₂ h₁ => hfits _ m₂ log₂ (hrun₁.trans h₁))
          (fun t p w s hd => henters t p w s (List.mem_append_right _ hd))
          (fun t l v k w hd => hreacts t l v k w (List.mem_append_right _ hd))
          (fun log₁ m₂ log₂ t j h₁ => hworks _ m₂ log₂ t j (hrun₁.trans h₁))
          (fun u q hq => by
            rw [threads_insert] at hq
            split at hq
            · exact Option.some.inj hq ▸ hk b
            · exact hstart u q hq) rfl
        exact ⟨.exempt hp honly hx hthrough hstrides, hend⟩

end BlockEngine
