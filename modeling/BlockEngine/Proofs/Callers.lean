import BlockEngine.Proofs.Stepping

/-!
# Calls of the supervisor

* `Leads` : a part of a call that conducts itself, with what holds afterwards;
* one lemma for each part of the supervisor, from `leads_retire` to `leads_loadAll`;
* `conducts_call` : every call conducts itself and stands idle at its end.
-/

namespace BlockEngine

variable {α β : Type} {e : Engine} {t : TaskId} {γ : Stage} {v v' : View}

/-- A part of a call that conducts itself; afterwards `R` holds of the stage and the answer. -/
def Leads (e : Engine) (t : TaskId) (γ : Stage) (v : View) (p : Execution α)
    (R : Stage → View → α → Prop) : Prop :=
  Conducts e t (fun γ' v' a => v ≤ v' ∧ R γ' v' a) γ v p

namespace Leads

variable {R : Stage → View → α → Prop} {S : Stage → View → β → Prop} {p : Execution α}

theorem pure {a : α} (h : R γ v a) : Leads e t γ v (.done a) R := .done ⟨View.le_refl v, h⟩

theorem bind (h : Leads e t γ v p R) {k : α → Execution β}
    (hk : ∀ γ' v' a, v ≤ v' → R γ' v' a → Leads e t γ' v' (k a) S) :
    Leads e t γ v (p.bind k) S := by
  refine Conducts.bind h fun γ' v' a ⟨hle, ha⟩ => ?_
  exact Conducts.weaken (hk γ' v' a hle ha) fun _ _ _ ⟨hle', hb⟩ => ⟨View.le_trans hle hle', hb⟩

theorem weaken (h : Leads e t γ v p R) {R' : Stage → View → α → Prop}
    (hR : ∀ γ' v' a, v ≤ v' → R γ' v' a → R' γ' v' a) : Leads e t γ v p R' :=
  Conducts.weaken h fun γ' v' a ⟨hle, ha⟩ => ⟨hle, hR γ' v' a hle ha⟩

/-- The code of blocks keeps the stage. -/
theorem of_does {P : View → α → Prop} (h : Does e t γ v p P) :
    Leads e t γ v p fun γ' v' a => γ' = γ ∧ P v' a :=
  Conducts.weaken h fun _ _ _ ⟨hγ, hle, ha⟩ => ⟨hle, hγ, ha⟩

theorem atomically {f : World → α × World} (γ' : World → Stage)
    (heff : ∀ w, v ≤ w.view → w.view.Sound e → Effect e t γ w.view (γ' w) (f w).2.view)
    (hR : ∀ w, v ≤ w.view → w.view.Sound e → w.view ≤ (f w).2.view →
      R (γ' w) (f w).2.view (f w).1) :
    Leads e t γ v (Execution.atomically f) R :=
  .act γ' heff fun w hle hs => by
    have hle' := (heff w hle hs).le hs
    exact .done ⟨View.le_trans hle hle', hR w hle hs hle'⟩

theorem change {f : World → World} (γ' : Stage)
    (heff : ∀ w, v ≤ w.view → w.view.Sound e → Effect e t γ w.view γ' (f w).view) :
    Leads e t γ v (Execution.change f) fun γ'' _ _ => γ'' = γ' :=
  atomically (f := fun w => ((), f w)) (fun _ => γ') heff fun _ _ _ _ => rfl

/-- What is lifted into attempts goes on as it would without. -/
theorem lift_bind {ε : Type} (h : Leads e t γ v p R) {k : α → ExceptT ε Execution β}
    {S : Stage → View → Except ε β → Prop}
    (hk : ∀ γ' v' a, v ≤ v' → R γ' v' a → Leads e t γ' v' (ExceptT.run (k a)) S) :
    Leads e t γ v (ExceptT.run (monadLift p >>= k)) S := by
  have heq : ExceptT.run (monadLift p >>= k) = p.bind fun a => ExceptT.run (k a) :=
    Execution.bind_assoc ..
  rw [heq]
  exact bind h hk

theorem lift {ε : Type} (h : Leads e t γ v p R) {S : Stage → View → Except ε α → Prop}
    (hS : ∀ γ' v' a, v ≤ v' → R γ' v' a → S γ' v' (.ok a)) :
    Leads e t γ v (ExceptT.run (monadLift p)) S :=
  bind h fun γ' v' a hle ha => pure (hS γ' v' a hle ha)

end Leads

/-! ## Turns -/

namespace Supervisor

/-- A call that stands outside the turn, with the tabs it still has to reload. -/
def outside (owed : List String) : Stage := ⟨none, none, owed⟩

/-- A call that has the turn. -/
def inside (h : Hand) (owed : List String) : Stage := ⟨none, some h, owed⟩

theorem leads_alone {p : Execution α} {owed : List String} {R : Stage → α → Prop}
    (hc : v.IsCaller t) (hp : ∀ v', v ≤ v' → Leads e t (inside .empty owed) v' p fun γ' _ a =>
      ∃ h owed', γ' = inside h owed' ∧ h.IsFree ∧ R (outside owed') a) :
    Leads e t (outside owed) v (alone p) fun γ' _ a => R γ' a := by
  refine Conducts.turn hc rfl fun v₁ hle => ?_
  refine Conducts.bind (hp v₁ hle) fun γ' v₂ a ⟨hle', h, owed', hγ, hf, ha⟩ => ?_
  subst hγ
  refine Conducts.bind (Leads.change (outside owed') fun w _ _ => ?_)
    fun γ'' v₃ _ ⟨hle'', hγ''⟩ => .done ⟨View.le_trans hle (View.le_trans hle' hle''), ?_⟩
  · rw [World.view_passTurn]
    exact .yield rfl hf
  · rw [hγ'']
    exact ha

/-! ## Taking generations out -/

/-- The numbers of the generations in some entries. -/
def numbers (g : Option Generation) : List Nat := g.toList.map (·.number)

/-- What is known of a generation taken out of the tab `id`. -/
def OfTab (id : String) (g : Option Generation) (v : View) : Prop :=
  ∀ x, g = some x → x.tab = id ∧ v.Known x

theorem OfTab.mono {id : String} {g : Option Generation} (h : OfTab id g v) (hle : v ≤ v') :
    OfTab id g v' := fun x hx => ⟨(h x hx).1, (h x hx).2.mono hle⟩

theorem leads_retire {h : Hand} {owed : List String} {status : TabStatus} (hf : h.IsFree)
    (hst : status.isActive = false) (id : String) :
    Leads e t (inside h owed) v (ExceptT.run (retire id status)) fun γ' v' r =>
      match r with
      | .ok x =>
        γ' = inside ⟨numbers x.generation, none, none, some (id, x.content), (· = id)⟩
          (owed.filter (· ≠ id)) ∧ OfTab id x.generation v'
      | .error _ => γ' = inside h (owed.filter (· ≠ id)) := by
  refine Leads.atomically (fun w => (w.tab? id).elim (inside h (owed.filter (· ≠ id))) fun x =>
    inside ⟨numbers x.generation, none, none, some (id, x.content), (· = id)⟩
      (owed.filter (· ≠ id)))
    (fun w hle hs => ?_) fun w hle hs hle' => ?_
  · cases hx : w.tab? id with
    | none => exact .miss hx
    | some x =>
      simp only [World.modifyTab, hx]
      exact .take rfl hf hx hst
  · cases hx : w.tab? id with
    | none => rfl
    | some x =>
      simp only [hx] at hle' ⊢
      refine ⟨rfl, fun g hg => ?_⟩
      obtain ⟨htab, hk⟩ := hs.recorded id x g hx hg
      exact ⟨htab, hk.mono hle'⟩

theorem leads_withdraw {h : Hand} {owed : List String} (hf : h.IsFree) (id : String) :
    Leads e t (inside h owed) v (ExceptT.run (withdraw id)) fun γ' v' r =>
      match r with
      | .ok x => γ' = inside ⟨numbers x.generation, none, none, none, (· = id)⟩ owed ∧
          OfTab id x.generation v'
      | .error _ => γ' = inside h owed := by
  refine Leads.atomically (fun w => (w.tab? id).elim (inside h owed) fun x =>
    if (isEmptyContent x.content).toOption.getD false then
      inside ⟨numbers x.generation, none, none, none, (· = id)⟩ owed
    else inside h owed) (fun w hle hs => ?_) fun w hle hs hle' => ?_
  · cases hx : w.tab? id with
    | none => exact .idle
    | some x =>
      simp only [Option.elim_some]
      split
      · exact .withdraw rfl hf hx
      · exact .idle
  · cases hx : w.tab? id with
    | none => rfl
    | some x =>
      simp only [hx, Option.elim_some] at hle' ⊢
      split at hle'
      · next hempty =>
        simp only [hempty, if_true]
        refine ⟨trivial, fun g hg => ?_⟩
        obtain ⟨htab, hk⟩ := hs.recorded id x g hx hg
        exact ⟨htab, hk.mono hle'⟩
      · next hempty => simp only [hempty, if_false, Bool.false_eq_true]

/-! ## Ending a generation -/

theorem leads_awaitAll {h : Hand} {owed : List String} {n : Nat} {ts : List TaskId}
    (hn : h.ending = some (n, ts)) :
    Leads e t (inside h owed) v (awaitAll ts) fun γ' _ _ =>
      γ' = inside { h with ending := some (n, []) } owed := by
  induction ts generalizing h v with
  | nil =>
    refine Leads.pure ?_
    rw [← hn]
  | cons u ts ih => exact .ended rfl hn fun v' hle => Conducts.weaken (ih rfl) fun _ _ _ ⟨hle', hγ⟩ =>
      ⟨View.le_trans hle hle', hγ⟩

theorem view_destroy (w : World) (n : Nat) : (w.destroy n).2.view = w.view.destroy n :=
  World.view_modifyGeneration ..

theorem leads_cancelAll {h : Hand} {owed : List String} {n : Nat} {us ts : List TaskId}
    (hn : h.ending = some (n, us)) (hts : ∀ u ∈ ts, u ∈ us) :
    Leads e t (inside h owed) v (cancelAll ts) fun γ' _ _ => γ' = inside h owed := by
  induction ts generalizing v with
  | nil => exact Leads.pure rfl
  | cons u ts ih =>
    refine Leads.bind (Leads.change (inside h owed) fun w _ _ => ?_) ?_
    · rw [World.view_cancel]
      exact .abort rfl hn (hts u List.mem_cons_self)
    · rintro _ v₁ - - rfl
      exact ih fun u' hu' => hts u' (List.mem_cons_of_mem _ hu')

theorem leads_endTasks {h : Hand} {owed : List String} {g : Generation} {rest : List Nat}
    (ht : h.taken = g.number :: rest) (he : h.ending = none) :
    Leads e t (inside h owed) v (endTasks g) fun γ' _ _ =>
      γ' = inside { h with taken := rest, ending := some (g.number, []) } owed := by
  refine Leads.bind (R := fun γ' _ ts =>
    γ' = inside { h with taken := rest, ending := some (g.number, ts) } owed)
    (Leads.atomically (fun w => inside { h with
      taken := rest, ending := some (g.number, (w.tracked g.number).map (·.task)) } owed)
      (fun w _ _ => ?_) fun _ _ _ _ => rfl) fun γ' v' ts _ hγ => ?_
  · rw [view_destroy]
    exact .destroy rfl ht he
  · subst hγ
    refine Leads.bind (leads_cancelAll rfl fun _ hu => hu) ?_
    rintro _ v₂ - - rfl
    exact leads_awaitAll rfl

/-- The subscriptions that some listeners remove. -/
def subscriptions (ls : List (String × Listener)) : List (LockId × SubscriptionId) :=
  ls.filterMap fun
    | (_, .unsubscribe l id) => some (l, id)
    | (_, .host _) => none

theorem view_runListeners (w : World) (ls : List (String × Listener)) :
    (ls.foldl (fun w l => w.runListener l.2) w).view =
      { w.view with locks := w.view.locks.unsubscribeAll (subscriptions ls) } := by
  induction ls generalizing w with
  | nil => rfl
  | cons l ls ih =>
    rw [List.foldl_cons, ih]
    obtain ⟨block, l, id | name⟩ := l <;> rfl

theorem view_releaseBlocks (w : World) (n : Nat) :
    (w.releaseBlocks n).2.view =
      { w.view with
        locks := w.view.locks.unsubscribeAll (subscriptions
          (((w.generation? n).map GenerationState.listeners).getD [])) }.modifyGeneration n
        (·.dropListeners) := by
  refine (view_runListeners ..).trans ?_
  rw [World.view_modifyGeneration]
  unfold View.modifyGeneration
  cases w.view.generations[n]? <;> rfl

/-- The subscriptions are those that listeners remove. -/
theorem mem_subscriptions {ls : List (String × Listener)} {p : LockId × SubscriptionId}
    (h : p ∈ subscriptions ls) : ∃ block, (block, Listener.unsubscribe p.1 p.2) ∈ ls := by
  obtain ⟨⟨block, x⟩, hmem, hx⟩ := List.mem_filterMap.1 h
  cases x with
  | unsubscribe l i =>
    obtain rfl := Option.some.inj hx
    exact ⟨block, hmem⟩
  | host name => cases hx

theorem leads_teardown {h : Hand} {owed : List String} {id : String} {g : Option Generation}
    {rest : List Nat} (ht : h.taken = numbers g ++ rest) (hn : h.ending = none)
    (hshut : h.shut id) (hg : OfTab id g v) :
    Leads e t (inside h owed) v (teardown id g) fun γ' _ _ =>
      γ' = inside { h with taken := rest } owed := by
  have hrelease : ∀ v : View, Leads e t (inside h owed) v
      (Execution.change (·.releaseLocks id)) fun γ' _ _ => γ' = inside h owed := fun v =>
    Leads.change _ fun w _ _ => by
      rw [World.view_releaseLocks]
      exact .release rfl hshut
  refine Leads.bind (hrelease v) fun γ₁ v₁ _ hle hγ => ?_
  subst hγ
  cases g with
  | none =>
    refine Leads.weaken (hrelease v₁) fun γ' _ _ _ hγ => hγ.trans ?_
    rw [show rest = h.taken from ht.symm]
  | some g =>
    obtain ⟨htab, hk⟩ := hg g rfl
    refine Leads.bind (R := fun γ' _ _ => γ' = inside h owed)
      (Leads.atomically (fun _ => inside h owed) (fun w _ _ => ?_) fun _ _ _ _ => rfl)
      fun γ₂ v₂ _ hle₂ hγ => ?_
    · rw [view_releaseBlocks]
      refine .unlisten rfl ht fun p hp => ?_
      obtain ⟨block, hmem⟩ := mem_subscriptions hp
      cases hs : w.generation? g.number with
      | none => simp [hs] at hmem
      | some s => exact ⟨s, block, hs, by simpa [hs] using hmem⟩
    · subst hγ
      refine Leads.bind (leads_endTasks ht hn) fun γ₃ v₃ _ hle₃ hγ => ?_
      subst hγ
      refine Leads.change _ fun w hle₄ _ => ?_
      have hk' := hk.mono (View.le_trans hle (View.le_trans hle₂ (View.le_trans hle₃ hle₄)))
      obtain ⟨s, hs, hstab⟩ := hk'
      rw [World.view_releaseLocks, ← htab, ← hstab, hn]
      exact .bury (h := { h with taken := rest, ending := some (g.number, []) }) rfl rfl hs

/-! ## Starting a generation -/

end Supervisor

instance : LawfulMonad Execution :=
  LawfulMonad.mk' Execution (fun p => p.bind_done) (fun _ _ => rfl) Execution.bind_assoc

namespace Does

theorem mapM {xs : List β} {f : β → Execution α} {P : α → Prop}
    (h : ∀ x ∈ xs, ∀ v', v ≤ v' → Does e t γ v' (f x) fun _ y => P y) :
    Does e t γ v (xs.mapM f) fun _ ys => ∀ y ∈ ys, P y := by
  induction xs generalizing v with
  | nil =>
    rw [List.mapM_nil]
    exact pure fun _ hy => by cases hy
  | cons x xs ih =>
    rw [List.mapM_cons]
    refine bind (h x List.mem_cons_self v (View.le_refl v)) fun v₁ y hle hy => ?_
    refine bind (ih fun x' hx' v' hle' => h x' (List.mem_cons_of_mem _ hx') v'
      (View.le_trans hle hle')) fun v₂ ys _ hys => pure fun z hz => ?_
    rcases List.mem_cons.1 hz with rfl | hz
    · exact hy
    · exact hys z hz

end Does

namespace Supervisor

theorem does_rootSites (g : Generation) :
    Does e t γ v (rootSites g) fun _ sites => ∀ s ∈ sites, s.generation = g :=
  Does.mapM fun b _ v' _ => by
    refine Does.bind (P := anything) ?_ fun _ _ _ _ => Does.pure rfl
    exact Does.bind Does.draw fun _ _ _ _ => Does.pure trivial

theorem does_handleAll {g : Generation} {sites : List Site} (hhome : γ.home = some g)
    (hk : v.Known g) (hs : ∀ s ∈ sites, s.generation = g) :
    Does e t γ v (handleAll sites) anything := by
  induction sites generalizing v with
  | nil => exact Does.pure trivial
  | cons s sites ih =>
    have hg := hs s List.mem_cons_self
    refine Does.bind (Plays.conclude (Plays.handle ⟨hg ▸ hhome, hg ▸ hk⟩) s)
      fun v' _ hle _ => ih (hk.mono hle) fun s' h => hs s' (List.mem_cons_of_mem _ h)

theorem does_spawnRoots {g : Generation} {sites : List Site} (hhand : γ.hand.isSome = true)
    (hk : v.Known g) (hs : ∀ s ∈ sites, s.generation = g) :
    Does e t γ v (spawnRoots sites) anything := by
  refine Does.bind (Does.mapM (P := fun _ => True) fun s h v' hle => ?_) fun _ _ _ _ =>
    Does.pure trivial
  have hg := hs s h
  refine Does.spawn rfl ?_ rfl hhand rfl
  exact (hg ▸ hk).mono hle

theorem does_startRoots {g : Generation} (hhome : γ.home = some g) (hhand : γ.hand.isSome = true)
    (hk : v.Known g) :
    Does e t γ v (startRoots e g) anything := by
  refine Does.bind (does_rootSites g) fun v₁ sites hle hs => ?_
  have hk₁ := hk.mono hle
  simp only [List.partition_eq_filter_filter]
  refine Does.bind (does_handleAll hhome hk₁ fun s h => hs s (List.mem_filter.1 h).1)
    fun v₂ _ hle₂ _ => ?_
  refine Does.bind (does_spawnRoots hhand (hk₁.mono hle₂) fun s h =>
    hs s (List.mem_filter.1 (List.mem_filter.1 h).1).1) fun v₃ started hle₃ _ => ?_
  refine Does.bind Does.look fun v₄ w hle₄ _ => ?_
  refine Conducts.allEnded fun v₅ hle₅ => ?_
  have hle' := View.le_trans hle₂ (View.le_trans hle₃ (View.le_trans hle₄ hle₅))
  refine Conducts.bind (does_spawnRoots hhand (hk₁.mono hle') fun s h =>
    hs s (List.mem_filter.1 (List.mem_filter.1 h).1).1) fun γ' v₆ _ ⟨hγ, hle₆, _⟩ => ?_
  exact .done ⟨hγ, View.le_trans hle₅ hle₆, trivial⟩

theorem view_modifyTab (w : World) (id : String) (f : TabEntry → TabEntry) :
    (w.modifyTab id f).view = w.view.modifyTab id f := by
  unfold World.modifyTab View.modifyTab
  rw [World.view_tab?]
  cases w.tab? id <;> rfl

theorem leads_mark {h : Hand} {owed : List String} {id content : String}
    {f : TabEntry → TabEntry} (hf : h.IsFree) (hs : h.source = some (id, content))
    (hmark : ∀ x, (f x).status ≠ .running ∧ (f x).content = x.content ∧
      ((f x).generation = none ∨ (f x).generation = x.generation)) :
    Leads e t (inside h owed) v (modifyTab id f) fun γ' _ _ => γ' = inside h owed :=
  Leads.change _ fun w _ _ => by
    rw [view_modifyTab]
    exact .mark rfl hf hs hmark

theorem does_declareVariables (declared : List (String × String × Json)) :
    Does e t γ v (declareVariables declared) anything :=
  Does.change fun _ _ _ => .idle

theorem leads_start {h : Hand} {owed : List String} {id content : String} (hf : h.IsFree)
    (hs : h.source = some (id, content)) (name : String) :
    Leads e t (inside h owed) v (ExceptT.run (start e id name content)) fun γ' v' r =>
      match r with
      | .ok (some g) =>
        γ' = ⟨some g, some { h with fresh := some g, shut := fun _ => False }, owed⟩ ∧
          g.tab = id ∧ v'.Known g
      | _ => γ' = inside h owed := by
  unfold start
  cases hc : contentGraph? content with
  | error err => exact Leads.pure rfl
  | ok parsed =>
    cases parsed with
    | none => exact Leads.pure rfl
    | some graph =>
      refine Leads.lift_bind (Leads.of_does (does_declareVariables _)) ?_
      rintro _ v₁ - - ⟨rfl, -⟩
      refine Leads.lift_bind (Leads.atomically
        (R := fun γ' v' g =>
          γ' = ⟨some g, some { h with fresh := some g, shut := fun _ => False }, owed⟩ ∧
            g.tab = id ∧ v'.Known g)
        (fun w => ⟨some ⟨w.issued, id, name, graph⟩,
          some { h with fresh := some ⟨w.issued, id, name, graph⟩, shut := fun _ => False },
          owed⟩) (fun w _ _ => ?_)
        fun w _ _ _ => ⟨rfl, rfl, ?_⟩) ?_
      · exact .renew rfl hf hs hc
      · refine ⟨.new id, ?_, rfl⟩
        exact (View.get?_generations_insert w.view w.issued w.issued (.new id)).trans (if_pos rfl)
      · rintro _ v₂ g - ⟨rfl, htab, hk⟩
        refine Leads.lift_bind (Leads.of_does (does_startRoots rfl rfl hk)) ?_
        rintro _ v₃ - hle ⟨rfl, -⟩
        exact Leads.pure ⟨rfl, htab, hk.mono hle⟩

/-! ## Generations -/

theorem view_report (w : World) (tab : Option String) (message : String) :
    (w.notify .error tab message).view = w.view := rfl

/-- The entry is given what was started from its content. -/
theorem leads_install {h : Hand} {owed : List String} {id : String} {g : Generation}
    (hh : h.taken = [] ∧ h.ending = none) (htab : g.tab = id) (hk : v.Known g) :
    Leads e t ⟨some g, some { h with fresh := some g }, owed⟩ v
      (modifyTab id fun x => { x with status := .running, generation := some g })
      fun γ' _ _ => ∃ h', h'.IsFree ∧ γ' = inside h' owed := by
  let h' : Hand := { h with fresh := none, source := none }
  refine Leads.weaken (Leads.change (inside h' owed) fun w hle _ => ?_)
    fun γ' _ _ _ hγ => ⟨h', ⟨hh.1, hh.2, rfl⟩, hγ⟩
  rw [view_modifyTab, ← htab]
  exact .install (h := { h with fresh := some g }) rfl rfl (hk.mono hle)

theorem leads_reload (hc : v.IsCaller t) (id : String) (owed : List String) :
    Leads e t (outside owed) v (ExceptT.run (reload e id)) fun γ' _ _ =>
      γ' = outside (owed.filter (· ≠ id)) := by
  refine leads_alone hc fun v₁ _ => ?_
  refine Leads.bind (leads_retire ⟨rfl, rfl, rfl⟩ rfl id) fun γ₂ v₂ r _ hr => ?_
  cases r with
  | error err => exact Leads.pure ⟨_, _, hr, ⟨rfl, rfl, rfl⟩, rfl⟩
  | ok old =>
    obtain ⟨rfl, hg⟩ := hr
    let h : Hand := ⟨[], none, none, some (id, old.content), (· = id)⟩
    have hmark : ∀ (v : View) (f : TabEntry → TabEntry), (∀ x, (f x).status ≠ .running ∧
        (f x).content = x.content ∧
        ((f x).generation = none ∨ (f x).generation = x.generation)) →
        Leads e t (inside h (owed.filter (· ≠ id))) v (modifyTab id f) fun γ' _ _ =>
          γ' = inside h (owed.filter (· ≠ id)) := fun v f hf =>
      leads_mark ⟨rfl, rfl, rfl⟩ rfl hf
    refine Leads.lift_bind (leads_teardown (List.append_nil _).symm rfl rfl hg) ?_
    rintro _ v₃ - - rfl
    refine Leads.lift_bind (hmark v₃ (fun x => { x with status := .parsing }) fun x =>
      ⟨by simp, rfl, .inr rfl⟩) ?_
    rintro _ v₄ - - rfl
    refine Leads.lift_bind (leads_start (h := h) ⟨rfl, rfl, rfl⟩ rfl old.name) ?_
    intro γ₅ v₅ r _ hr
    rcases r with err | _ | g
    · obtain rfl : γ₅ = _ := hr
      refine Leads.lift_bind (Leads.of_does (Does.change fun w _ _ => ?_)) ?_
      · rw [view_report]
        exact .idle
      rintro _ v₆ - - ⟨rfl, -⟩
      refine Leads.lift_bind (hmark v₆ (fun x => { x with status := .stopped (some err.message) })
        fun x => ⟨by simp, rfl, .inr rfl⟩) ?_
      rintro _ v₇ - - rfl
      exact Leads.pure ⟨h, _, rfl, ⟨rfl, rfl, rfl⟩, rfl⟩
    · obtain rfl : γ₅ = _ := hr
      refine Leads.lift (hmark v₅ (fun x => { x with status := .unloaded, generation := none })
        fun x => ⟨by simp, rfl, .inl rfl⟩) ?_
      rintro _ v₆ - - rfl
      exact ⟨h, _, rfl, ⟨rfl, rfl, rfl⟩, rfl⟩
    · obtain ⟨rfl, htab, hk⟩ := hr
      refine Leads.lift (leads_install (h := { h with shut := fun _ => False }) ⟨rfl, rfl⟩ htab hk)
        ?_
      rintro _ v₆ - - ⟨h', hf, rfl⟩
      exact ⟨h', _, rfl, hf, rfl⟩

theorem leads_release (hc : v.IsCaller t) (id : String) :
    Leads e t .idle v (ExceptT.run (release id)) fun γ' _ _ => γ' = .idle := by
  refine leads_alone hc fun v₁ _ => ?_
  refine Leads.bind (leads_retire ⟨rfl, rfl, rfl⟩ rfl id) fun γ₂ v₂ r _ hr => ?_
  cases r with
  | error err => exact Leads.pure ⟨_, _, hr, ⟨rfl, rfl, rfl⟩, rfl⟩
  | ok old =>
    obtain ⟨rfl, hg⟩ := hr
    refine Leads.lift (leads_teardown (List.append_nil _).symm rfl rfl hg) ?_
    rintro _ v₃ - - rfl
    exact ⟨_, _, rfl, ⟨rfl, rfl, rfl⟩, rfl⟩

theorem leads_delete (hc : v.IsCaller t) (id : String) :
    Leads e t .idle v (ExceptT.run (delete e id)) fun γ' _ _ => γ' = .idle := by
  unfold delete
  split
  · exact Leads.pure rfl
  · refine leads_alone hc fun v₁ _ => ?_
    refine Leads.bind (leads_withdraw ⟨rfl, rfl, rfl⟩ id) fun γ₂ v₂ r _ hr => ?_
    cases r with
    | error err => exact Leads.pure ⟨_, _, hr, ⟨rfl, rfl, rfl⟩, rfl⟩
    | ok old =>
      obtain ⟨rfl, hg⟩ := hr
      refine Leads.lift (leads_teardown (List.append_nil _).symm rfl rfl hg) ?_
      rintro _ v₃ - - rfl
      exact ⟨_, _, rfl, ⟨rfl, rfl, rfl⟩, rfl⟩

theorem leads_teardownAll {h : Hand} {owed : List String} {tabs : List (String × TabEntry)}
    (ht : h.taken = tabs.flatMap fun p => numbers p.2.generation) (hn : h.ending = none)
    (hshut : ∀ id, h.shut id) (hg : ∀ p ∈ tabs, OfTab p.1 p.2.generation v) :
    Leads e t (inside h owed) v (teardownAll tabs) fun γ' _ _ =>
      γ' = inside { h with taken := [] } owed := by
  induction tabs generalizing h v with
  | nil =>
    refine Leads.pure ?_
    rw [show [] = h.taken from ht.symm]
  | cons p tabs ih =>
    rw [List.flatMap_cons] at ht
    refine Leads.bind (leads_teardown ht hn (hshut p.1) (hg p List.mem_cons_self)) ?_
    rintro _ v₁ - hle rfl
    exact ih rfl hn hshut fun q hq => (hg q (List.mem_cons_of_mem _ hq)).mono hle

theorem leads_shutdown (hc : v.IsCaller t) :
    Leads e t .idle v shutdown fun γ' _ _ => γ' = .idle := by
  refine leads_alone hc fun v₁ _ => ?_
  refine Leads.bind (Leads.atomically
    (R := fun γ' v' tabs =>
      γ' = inside ⟨tabs.flatMap fun p => numbers p.2.generation, none, none, none,
          fun _ => True⟩ [] ∧
        ∀ p ∈ tabs, OfTab p.1 p.2.generation v')
    (fun w => inside ⟨w.tabs.flatMap fun p => numbers p.2.generation, none, none, none,
      fun _ => True⟩ [])
    (fun w _ _ => ?_) fun w _ hs hle => ⟨rfl, fun p hp g hg => ?_⟩) ?_
  · exact .takeAll rfl ⟨rfl, rfl, rfl⟩
  · obtain ⟨htab, hk⟩ := hs.recorded p.1 p.2 g (hs.ordered.get?_of_mem hp) hg
    exact ⟨htab, hk.mono hle⟩
  · rintro _ v₂ tabs - ⟨rfl, hg⟩
    refine Leads.bind (leads_teardownAll rfl rfl (fun _ => trivial) hg) ?_
    rintro _ v₃ - - rfl
    let h : Hand := ⟨[], none, none, none, fun _ => True⟩
    refine Leads.weaken (Leads.change (inside h []) fun w _ _ => ?_) fun γ' _ _ _ hγ =>
      ⟨h, _, hγ, ⟨rfl, rfl, rfl⟩, rfl⟩
    rw [World.view_releaseAllLocks]
    exact .releaseAll rfl fun _ => trivial

/-! ## Tabs -/

end Supervisor

namespace Stores

variable {owed : List String} {tabs tabs' tabs'' : Keyed TabEntry}

theorem refl (owed : List String) (tabs : Keyed TabEntry) : Stores owed tabs tabs where
  entry _ x hx := .inl ⟨x, hx, rfl, rfl, .inl rfl⟩
  old _ x hx := ⟨x, hx⟩
  ordered := id

theorem trans (h : Stores owed tabs tabs') (h' : Stores owed tabs' tabs'') :
    Stores owed tabs tabs'' where
  entry id x'' hx'' := by
    rcases h'.entry id x'' hx'' with ⟨x', hx', hs', hg', hc'⟩ | ⟨hnone, hs', hg'⟩
    · rcases h.entry id x' hx' with ⟨x, hx, hs, hg, hc⟩ | ⟨hnone, hs, hg⟩
      · refine .inl ⟨x, hx, hs'.trans hs, hg'.trans hg, ?_⟩
        rcases hc' with hc' | ho
        · exact hc.imp_left hc'.trans
        · exact .inr ho
      · exact .inr ⟨hnone, hs'.trans hs, hg'.trans hg⟩
    · refine .inr ⟨?_, hs', hg'⟩
      cases hx : Keyed.get? id tabs with
      | none => rfl
      | some x =>
        obtain ⟨x', hx'⟩ := h.old id x hx
        exact absurd (hnone.symm.trans hx') (by simp)
  old id x hx := by
    obtain ⟨x', hx'⟩ := h.old id x hx
    exact h'.old id x' hx'
  ordered hord := h'.ordered (h.ordered hord)

theorem insert_new {id : String} {x : TabEntry} (h : Keyed.get? id tabs = none)
    (hs : x.status = .unloaded) (hg : x.generation = none) :
    Stores owed tabs (Keyed.insert id x tabs) where
  entry id' x' hx' := by
    rw [Keyed.get?_insert] at hx'
    split at hx'
    · next hid =>
      subst hid
      rw [← Option.some.inj hx']
      exact .inr ⟨h, hs, hg⟩
    · exact .inl ⟨x', hx', rfl, rfl, .inl rfl⟩
  old id' x hx := by
    rw [Keyed.get?_insert]
    split
    · exact ⟨_, rfl⟩
    · exact ⟨x, hx⟩
  ordered hord := hord.insert ..

theorem insert_old {id : String} {x x' : TabEntry} (h : Keyed.get? id tabs = some x)
    (hs : x'.status = x.status) (hg : x'.generation = x.generation)
    (hc : x'.content = x.content ∨ id ∈ owed) : Stores owed tabs (Keyed.insert id x' tabs) where
  entry id' y hy := by
    rw [Keyed.get?_insert] at hy
    split at hy
    · next hid =>
      subst hid
      rw [← Option.some.inj hy]
      exact .inl ⟨x, h, hs, hg, hc⟩
    · exact .inl ⟨y, hy, rfl, rfl, .inl rfl⟩
  old id' y hy := by
    rw [Keyed.get?_insert]
    split
    · exact ⟨_, rfl⟩
    · exact ⟨y, hy⟩
  ordered hord := hord.insert ..

/-- What stores a tab leaves its status and generation. -/
theorem putTab (w : World) (id name : String) {f : TabEntry → TabEntry}
    (hs : ∀ x, (f x).status = x.status) (hg : ∀ x, (f x).generation = x.generation)
    (hc : ∀ x, (f x).content = x.content ∨ id ∈ owed) :
    Stores owed w.tabs (w.putTab id name f).tabs := by
  unfold World.putTab
  cases hx : w.tab? id with
  | some x => exact insert_old hx (hs x) (hg x) (hc x)
  | none => exact insert_new hx ((hs _).trans rfl) ((hg _).trans rfl)

theorem foldl {α : Type} {f : World → α → World} {xs : List α} (w : World)
    (h : ∀ x ∈ xs, ∀ w, Stores owed w.tabs (f w x).tabs) :
    Stores owed w.tabs (xs.foldl f w).tabs := by
  induction xs generalizing w with
  | nil => exact refl owed w.tabs
  | cons x xs ih =>
    rw [List.foldl_cons]
    exact (h x List.mem_cons_self w).trans (ih _ fun y hy => h y (List.mem_cons_of_mem _ hy))

end Stores

namespace Supervisor

theorem leads_create (hc : v.IsCaller t) (id name content : String) :
    Leads e t .idle v (ExceptT.run (create id name content)) fun γ' _ _ => γ' = .idle := by
  refine Leads.atomically (fun _ => .idle) (fun w hle _ => ?_) fun _ _ _ _ => rfl
  cases hx : w.tab? id with
  | some x => exact .idle
  | none => exact .put (hc.mono hle) (fun _ h => h) (.insert_new hx rfl rfl)

theorem leads_save (hc : v.IsCaller t) (id content : String) :
    Leads e t .idle v (ExceptT.run (save e id content)) fun γ' _ _ => γ' = .idle := by
  refine Leads.lift_bind (Leads.change (outside [id]) fun w hle _ => ?_) ?_
  · refine .put (hc.mono hle) (fun _ h => by cases h) (Stores.putTab w id id (fun _ => rfl) (fun _ => rfl) ?_)
    exact fun _ => .inr List.mem_cons_self
  · rintro _ v₁ - hle rfl
    refine Leads.weaken (leads_reload (hc.mono hle) id [id]) fun γ' _ _ _ hγ => hγ.trans ?_
    simp [outside, Stage.idle]

theorem view_foldl_putTab {α : Type} (id name : α → String) (f : α → TabEntry → TabEntry)
    (xs : List α) (w : World) :
    (xs.foldl (fun w x => w.putTab (id x) (name x) (f x)) w).view =
      { w.view with tabs := (xs.foldl (fun w x => w.putTab (id x) (name x) (f x)) w).tabs } := by
  induction xs generalizing w with
  | nil => rfl
  | cons x xs ih =>
    rw [List.foldl_cons, ih]
    rfl

theorem takeIn_spec (sources : List TabSource) (w : World) :
    Stores (takeIn e sources w).1 w.tabs (takeIn e sources w).2.tabs ∧
      (takeIn e sources w).2.view = { w.view with tabs := (takeIn e sources w).2.tabs } := by
  unfold takeIn
  simp only
  generalize (if sources.any (·.id = e.generalTab) || (w.tab? e.generalTab).isSome then []
    else [e.generalTab]) = general
  constructor
  · refine (Stores.foldl w fun id _ w => ?_).trans (Stores.foldl _ fun s hs w => ?_)
    · exact Stores.putTab w id id (fun _ => rfl) (fun _ => rfl) fun _ => .inl rfl
    · refine Stores.putTab w s.id s.id (fun _ => rfl) (fun _ => rfl) fun _ => .inr ?_
      exact List.mem_append_right _ (List.mem_map_of_mem hs)
  · refine (view_foldl_putTab _ _ _ sources _).trans ?_
    rw [view_foldl_putTab _ _ _ general w]

theorem leads_reloadAll (hc : v.IsCaller t) (ids owed : List String) :
    Leads e t (outside owed) v (reloadAll e ids) fun γ' _ _ =>
      γ' = outside (owed.filter fun id => id ∉ ids) := by
  induction ids generalizing owed v with
  | nil => exact Leads.pure (by rw [List.filter_eq_self.2 fun _ _ => by simp])
  | cons id ids ih =>
    refine Leads.bind (leads_reload hc id owed) ?_
    rintro _ v₁ r hle rfl
    refine Leads.bind (ih (hc.mono hle) _) ?_
    rintro _ v₂ n - rfl
    refine Leads.pure ?_
    rw [List.filter_filter]
    congr 1
    refine List.filter_congr fun x _ => ?_
    simp [Bool.and_comm]

theorem leads_loadAll (hc : v.IsCaller t) (sources : List TabSource) :
    Leads e t .idle v (loadAll e sources) fun γ' _ _ => γ' = .idle := by
  refine Leads.bind (Leads.atomically (R := fun γ' _ ids => γ' = outside ids)
    (fun w => outside (takeIn e sources w).1) (fun w hle _ => ?_) fun _ _ _ _ => rfl) ?_
  · obtain ⟨hstores, hview⟩ := takeIn_spec (e := e) sources w
    rw [hview]
    exact .put (hc.mono hle) (fun _ h => by cases h) hstores
  · rintro _ v₁ ids hle rfl
    refine Leads.weaken (leads_reloadAll (hc.mono hle) ids ids) fun γ' _ _ _ hγ => hγ.trans ?_
    rw [List.filter_eq_nil_iff.2 fun id h => by simp [h]]
    rfl

end Supervisor

/-- Every call conducts itself, and stands idle at its end. -/
theorem leads_call (hc : v.IsCaller t) (c : Call) :
    Leads e t .idle v (c.execution e) fun γ' _ _ => γ' = .idle := by
  have hrun : ∀ {α : Type} {p : Execution α}, Leads e t .idle v p (fun γ' _ _ => γ' = .idle) →
      Leads e t .idle v (p.bind fun _ => .done ()) fun γ' _ _ => γ' = .idle := fun h =>
    Leads.bind h fun _ _ _ _ hγ => Leads.pure hγ
  cases c with
  | create id name content => exact hrun (Supervisor.leads_create hc id name content)
  | save id content => exact hrun (Supervisor.leads_save hc id content)
  | delete id => exact hrun (Supervisor.leads_delete hc id)
  | reload id => exact hrun (Supervisor.leads_reload hc id [])
  | release id => exact hrun (Supervisor.leads_release hc id)
  | loadAll sources => exact hrun (Supervisor.leads_loadAll hc sources)
  | shutdown => exact Supervisor.leads_shutdown hc

end BlockEngine
