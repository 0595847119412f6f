import BlockEngine.Proofs.Generations
import BlockEngine.Proofs.Sparing

/-!
# Subscriptions that stay

A generation that a tab records, or that a caller is starting, keeps its subscriptions: the locks of
its tab are ended, and its listeners run, only after it has been taken out of the tab.

* `LockTable.KeepsSubscriptions` : nobody has left a lock; one lemma for each operation;
* `Supervised.Current` : a generation is recorded for its tab or about to be;
* `Effect.keepsSubscriptions` : as long as it is, nobody leaves the locks of its tab;
* `Run.subscriptions_kept` : so a run keeps the subscriptions of a generation recorded at its end.
-/

namespace BlockEngine

/-! ## Locks that nobody leaves -/

/-- The lock has all the subscriptions it had, and is released only if it was. -/
structure LockTable.KeepsSubscriptions {ρ : Type} (l : LockId) (t t' : LockTable ρ) : Prop where
  kept : ∀ y, t.lock? l = some y → ∃ y', t'.lock? l = some y' ∧ y'.released = y.released ∧
    ∀ s ∈ y.subscriptions, s ∈ y'.subscriptions

namespace LockTable.KeepsSubscriptions

variable {ρ : Type} {t t' t'' : LockTable ρ} {l : LockId}

theorem of_lock (h : t'.lock? l = t.lock? l) : KeepsSubscriptions l t t' :=
  ⟨fun y hy => ⟨y, h.trans hy, rfl, fun _ hs => hs⟩⟩

theorem of_eq (h : t' = t) : KeepsSubscriptions l t t' := of_lock (h ▸ rfl)

theorem trans (h : KeepsSubscriptions l t t') (h' : KeepsSubscriptions l t' t'') :
    KeepsSubscriptions l t t'' where
  kept y hy := by
    obtain ⟨y', hy', hrel, hsub⟩ := h.kept y hy
    obtain ⟨y'', hy'', hrel', hsub'⟩ := h'.kept y' hy'
    exact ⟨y'', hy'', hrel'.trans hrel, fun s hs => hsub' s (hsub s hs)⟩

theorem obtain (t : LockTable ρ) (tab owner key : String) :
    KeepsSubscriptions l t (t.obtain tab owner key).2 where
  kept y hy := ⟨y, lock?_obtain_of_some hy tab owner key, rfl, fun _ hs => hs⟩

theorem close (t : LockTable ρ) (m : MailboxId) : KeepsSubscriptions l t (t.close m) :=
  of_lock rfl

theorem register (t : LockTable ρ) (l' : LockId) (f : SignalFilter) :
    KeepsSubscriptions l t (t.register l' f).2 where
  kept y hy := by
    by_cases hl : l = l'
    · subst hl
      obtain ⟨ws, hy', -⟩ := lock?_register hy f
      exact ⟨_, hy', rfl, fun _ hs => hs⟩
    · exact ⟨y, (lock?_register_of_ne hl f).trans hy, rfl, fun _ hs => hs⟩

theorem subscribe (t : LockTable ρ) (l' : LockId) (f : SignalFilter) (r : ρ) :
    KeepsSubscriptions l t (t.subscribe l' f r).2 where
  kept y hy := by
    by_cases hl : l = l'
    · subst hl
      refine ⟨_, lock?_subscribe hy f r, rfl, fun s hs => ?_⟩
      simp only
      split
      · exact hs
      · exact List.mem_append_left _ hs
    · exact ⟨y, (lock?_subscribe_of_ne hl f r).trans hy, rfl, fun _ hs => hs⟩

theorem deliver (t : LockTable ρ) (l' : LockId) (v : Json) :
    KeepsSubscriptions l t (t.deliver l' v).2 where
  kept y hy := by
    obtain ⟨y', hy', -⟩ := lock?_deliver_of_some hy l' v
    obtain ⟨y₀, hy₀, value, ws, rfl, -⟩ := lock?_deliver hy'
    obtain rfl := Option.some.inj (hy.symm.trans hy₀)
    exact ⟨_, hy', rfl, fun _ hs => hs⟩

/-- The locks of another tab end. -/
theorem release (h : t.Sound) {tab : String}
    (hl : ∀ y, t.lock? l = some y → y.tab ≠ tab) : KeepsSubscriptions l t (t.release tab).2 where
  kept y hy :=
    ⟨y, (h.lock?_release hy tab).trans (congrArg _ (if_neg (hl y hy))), rfl, fun _ hs => hs⟩

/-- Subscriptions to other locks are taken back. -/
theorem unsubscribeAll {ss : List (LockId × SubscriptionId)} (h : ∀ p ∈ ss, p.1 ≠ l) :
    KeepsSubscriptions l t (t.unsubscribeAll ss) := of_lock (LockTable.lock?_unsubscribeAll h)

end LockTable.KeepsSubscriptions

/-! ## Generations that are recorded or about to be -/

variable {e : Engine} {t : TaskId} {γ' : Stage} {σ σ' : Stance} {v v' : View}
  {φ φ' : TaskId → Stage} {ψ ψ' : TaskId → Stance} {log log' log'' ds : List Deed}
  {m m' m'' : Machine} {n : Nat} {s : GenerationState} {lapsed : Prop} {lost : Nat → Prop}
  {hd : Hand} {l : LockId}

namespace Supervised

/-- A tab records the generation, or a caller that has the turn is starting it. -/
def Current (φ : TaskId → Stage) (v : View) (n : Nat) : Prop :=
  v.Records n ∨ ∃ t hd g, (φ t).hand = some hd ∧ hd.fresh = some g ∧ g.number = n

/-- The entry of the tab of a current generation: it records the generation, unless a caller is
starting it. -/
theorem Current.entry (h : Current φ v n) (hv : v.Sound e) (hs : v.generation? n = some s) :
    (∃ x g, v.tab? s.tab = some x ∧ x.generation = some g) ∨
      ∃ t hd g, (φ t).hand = some hd ∧ hd.fresh = some g := by
  rcases h with ⟨id, x, g, hx, hg, rfl⟩ | ⟨t, hd, g, ht, hg, -⟩
  · obtain ⟨s', hs', htab⟩ := exists_of_recorded hv hx hg
    obtain rfl := Option.some.inj (hs.symm.trans hs')
    exact .inl ⟨x, g, htab ▸ hx, hg⟩
  · exact .inr ⟨t, hd, g, ht, hg⟩

/-- The tab of a current generation is not shut. -/
theorem Current.not_shut (h : Current φ v n) (hsup : Supervised lapsed lost φ v) (hv : v.Sound e)
    (hs : v.generation? n = some s) (ht : (φ t).hand = some hd) : ¬ hd.shut s.tab := fun hshut => by
  obtain ⟨hfresh, hnone⟩ := (hsup.hands t hd ht).shut s.tab hshut
  rcases h.entry hv hs with ⟨x, g, hx, hg⟩ | ⟨u, hd', g, hu, hg⟩
  · exact absurd ((hnone x hx).symm.trans hg) nofun
  · obtain ⟨-, rfl⟩ := hsup.only ht hu
    exact absurd (hfresh.symm.trans hg) nofun

/-- What is taken out of a tab, or ends, is of another tab. -/
theorem Current.apart (h : Current φ v n) (hsup : Supervised lapsed lost φ v) (hv : v.Sound e)
    (hs : v.generation? n = some s) (ht : (φ t).hand = some hd) {k : Nat} {s' : GenerationState}
    (hs' : v.generation? k = some s')
    (hk : k ∈ hd.taken ∨ ∃ ts, hd.ending = some (k, ts)) : s'.tab ≠ s.tab := fun htab => by
  have hands := hsup.hands t hd ht
  have hinactive : ∀ x, v.tab? s.tab = some x → x.status.isActive = false := by
    rcases hk with hk | ⟨ts, hk⟩
    · obtain ⟨s₁, hs₁, -, -, hstatus⟩ := hands.taken k hk
      obtain rfl := Option.some.inj (hs'.symm.trans hs₁)
      exact htab ▸ hstatus
    · obtain ⟨s₁, hs₁, -, -, hstatus⟩ := hands.ending k ts hk
      obtain rfl := Option.some.inj (hs'.symm.trans hs₁)
      exact htab ▸ hstatus
  rcases h.entry hv hs with ⟨x, g, hx, hg⟩ | ⟨u, hd', g, hu, hg⟩
  · have hrunning := (hsup.status s.tab x hx).1 (by rw [hg]; rfl)
    have hstatus := hinactive x hx
    rw [hrunning] at hstatus
    cases hstatus
  · obtain ⟨-, rfl⟩ := hsup.only ht hu
    obtain ⟨-, -, -, -, htaken, hending, -⟩ := hands.fresh g hg
    rcases hk with hk | ⟨ts, hk⟩
    · rw [htaken] at hk
      cases hk
    · exact absurd (hending.symm.trans hk) nofun

end Supervised

open Supervised (Current)

/-- A generation that a tab records was current before, if it was there. -/
theorem Run.current_before (he : e.Orderly) (hc : Conducted e log m φ ψ)
    (hs : m.world.view.generation? n = some s) (hrun : Run e m log' m')
    (hrec : m'.world.view.Records n) : Current φ m.world.view n := by
  by_contra hnot
  have hout : Outgoing (fun _ => True) φ m.world.view n := {
    made := ⟨s, hs⟩
    unrecorded := fun h => hnot (.inl h)
    unstarted := fun t hd g ht hg hn => hnot (.inr ⟨t, hd, g, ht, hg, hn⟩)
    held := fun _ _ _ _ => trivial }
  obtain ⟨φ', ψ', -, hout'⟩ := hout.run he hc hrun
  exact hout'.unrecorded hrec

/-! ## What every step keeps -/

theorem Effect.keepsSubscriptions (h : Effect e t (φ t) v γ' v') (hv : v.Sound e)
    (howns : v.Owns) (hsup : Supervised lapsed lost φ v) (hcur : Current φ v n)
    (hs : v.generation? n = some s) (hl : ∀ y, v.locks.lock? l = some y → y.tab = s.tab) :
    v.locks.KeepsSubscriptions l v'.locks := by
  generalize hγ : φ t = γ at h
  cases h with
  | touch => exact .of_eq (View.locks_modifyGeneration ..)
  | spawn => exact .of_eq (View.locks_spawn ..)
  | obtain => exact .obtain ..
  | listen =>
    rw [View.locks_modifyGeneration]
    exact .subscribe ..
  | signal => exact .deliver ..
  | cancel => exact .of_eq (View.cancelAll_spec _ _).2.2.2.1
  | release hhand hshut =>
    refine .release hv.locks fun y hy htab => hcur.not_shut hsup hv hs (hγ ▸ hhand) ?_
    rwa [← hl y hy, htab]
  | releaseAll hhand hshut =>
    exact absurd (hshut s.tab) (hcur.not_shut hsup hv hs (hγ ▸ hhand))
  | @unlisten h k rest ss hhand htaken hlisteners =>
    rw [View.locks_modifyGeneration]
    refine .unsubscribeAll fun p hp hpl => ?_
    obtain ⟨s', block, hs', hmem⟩ := hlisteners p hp
    obtain ⟨y, hy, htab⟩ := (howns k s' hs').listeners block p.1 p.2 hmem
    exact hcur.apart hsup hv hs (hγ ▸ hhand) hs' (.inl (htaken ▸ List.mem_cons_self))
      (htab.symm.trans (hl y (hpl ▸ hy)))
  | bury hhand hending hs' =>
    refine .release hv.locks fun y hy htab => ?_
    exact hcur.apart hsup hv hs (hγ ▸ hhand) hs' (.inr ⟨_, hending⟩) (htab.symm.trans (hl y hy))
  | destroy => exact .of_eq (View.locks_destroy ..)
  | mark | install =>
    refine .of_eq ?_
    unfold View.modifyTab
    split <;> rfl
  | _ => exact .of_eq rfl

theorem Talk.keepsSubscriptions (h : Talk e σ v σ' v') : v.locks.KeepsSubscriptions l v'.locks := by
  cases h with
  | doze | enroll => exact .register ..
  | wake | conclude => exact .close ..
  | request => exact .deliver ..
  | startBody => exact .of_eq (View.locks_spawn ..)

theorem Passage.keepsSubscriptions (h : Passage e log m φ ψ ds v' φ' ψ')
    (hv : m.world.view.Sound e) (howns : m.world.view.Owns)
    (hsup : Supervised lapsed lost φ m.world.view) (hcur : Current φ m.world.view n)
    (hs : m.world.view.generation? n = some s)
    (hl : ∀ y, m.world.locks.lock? l = some y → y.tab = s.tab) :
    m.world.locks.KeepsSubscriptions l v'.locks := by
  cases h with
  | @change t _ _ _ _ _ _ _ _ hchange =>
    generalize ψ t = σ at hchange
    generalize hγ : φ t = γ at hchange
    cases hchange with
    | effect h => exact (hγ ▸ h : Effect e t (φ t) _ _ _).keepsSubscriptions hv howns hsup hcur hs hl
    | talk h => exact h.keepsSubscriptions
  | store => exact .of_eq (View.locks_modifyGeneration ..)
  | reply => exact .deliver ..
  | depart _ _ _ _ hlocks =>
    rcases hlocks with hlocks | ⟨b, -, hlocks⟩
    · exact .of_eq hlocks
    · rw [hlocks]
      exact .close ..
  | still _ hlocks => exact .of_eq hlocks

/-- A generation that a tab records at the end of a run has lost no subscription to a lock of its tab
since it was made. -/
theorem Run.subscriptions_kept (he : e.Orderly) {capacity : Nat}
    (hbefore : Run e (.start capacity) log m) (hrun : Run e m log' m')
    (hs : m.world.view.generation? n = some s) {y : Lock Reaction}
    (hy : m.world.locks.lock? l = some y) (htab : y.tab = s.tab) (hrest : Run e m' log'' m'')
    (hrec : m''.world.view.Records n) : m.world.locks.KeepsSubscriptions l m'.world.locks := by
  induction hrun generalizing log'' with
  | refl => exact .of_eq rfl
  | @move log₁ ds m₁ m₂ hrun hmove ih =>
    have hrest' := (Run.single hmove).trans hrest
    refine (ih hrest').trans ?_
    obtain ⟨φ₀, ψ₀, hc₀⟩ := Conducted.run he hbefore
    obtain ⟨φ, ψ, hc, hle⟩ := hc₀.extend he hrun
    obtain ⟨φ', ψ', hpass, -⟩ := hc.move he hmove
    obtain ⟨s₁, hs₁, htab₁, -⟩ := hle.generation n s hs
    obtain ⟨y₁, hy₁, hytab, -⟩ := hle.locks.lock l y hy
    refine hpass.keepsSubscriptions hc.sound ((hbefore.trans hrun).owns he) hc.supervised
      (Run.current_before he hc hs₁ hrest' hrec) hs₁ fun y' hy' => ?_
    obtain rfl := Option.some.inj (hy₁.symm.trans hy')
    exact hytab.trans (htab.trans htab₁.symm)

end BlockEngine
