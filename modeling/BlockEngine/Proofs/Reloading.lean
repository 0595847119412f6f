import BlockEngine.Proofs.Alone
import BlockEngine.Proofs.TabTable

/-!
# One reload

A caller that acts alone reloads a tab. What comes of it depends on the content of the tab alone, and
nothing of another tab is touched.

* `Notification.tellsOfLoad`, `loadFailures` : what steps have told of tabs that could not be loaded;
* `World.Mute`, `World.Minor`, `World.Tears` : the steps of a reload; `World.Alters` : those that
  declare variables;
* `World.Shows`, `World.Vacant` : how far a reload has come;
* `Supervisor.Settles` : the entry of a tab after a reload; `Supervisor.Reloaded` : all that a reload
  comes to; `Supervisor.reloaded` : it does.
-/

namespace BlockEngine

variable {α β : Type} {e : Engine} {c t : TaskId} {id : String} {w w' w'' w₀ : World}
  {log : List Deed} {m m' : Machine} {x y : TabEntry} {v : View} {g : Generation}

/-! ## What is told of tabs that could not be loaded -/

namespace Notifications

/-- The entries that have been added since. -/
def since (n n' : Notifications) : List Notification :=
  n'.entries.drop (n'.entries.length - (n'.issued - n.issued))

theorem since_self (n : Notifications) : n.since n = [] := by
  unfold since
  rw [Nat.sub_self, Nat.sub_zero, List.drop_length]

theorem since_push (n : Notifications) (level : Level) (tab : Option String) (message : String) :
    n.since (n.push level tab message) = [⟨n.issued, level, tab, message⟩] := by
  unfold since push
  simp only [Nat.add_sub_cancel_left, List.length_append, List.length_singleton,
    Nat.add_sub_cancel, List.drop_left]

end Notifications

/-- Whether a notification says that a tab could not be loaded. -/
def Notification.tellsOfLoad (n : Notification) : Bool :=
  decide (n.level = .error) && "Unable to load tab".toList.isPrefixOf n.message.toList

/-- What steps have told of tabs that could not be loaded: the tabs and the messages, in order. -/
def loadFailures (ss : List (World × World)) : List (Option String × String) :=
  ((ss.flatMap fun s => s.1.notifications.since s.2.notifications).filter (·.tellsOfLoad)).map
    fun n => (n.tab, n.message)

theorem loadFailures_append (ss ss' : List (World × World)) :
    loadFailures (ss ++ ss') = loadFailures ss ++ loadFailures ss' := by
  unfold loadFailures
  rw [List.flatMap_append, List.filter_append, List.map_append]

/-- The error of a block says where it comes from first. -/
theorem EngineError.message_inBlock (tab block : String) (opcode : Opcode) (err : EngineError) :
    ∃ rest, (err.inBlock tab block opcode).message.toList = '[' :: rest := by
  obtain ⟨tab', block', opcode', source, h⟩ : ∃ tab' block' opcode' source,
      err.inBlock tab block opcode = .atBlock tab' block' opcode' source := by
    cases err <;> exact ⟨_, _, _, _, rfl⟩
  rw [h]
  have hbracket : "[".toList = ['['] := rfl
  unfold message
  simp only [toString, String.toList_append, List.append_assoc, hbracket]
  exact ⟨_, rfl⟩

theorem Notification.not_tellsOfLoad_inBlock (number : Nat) (t : Option String) (tab block : String)
    (opcode : Opcode) (err : EngineError) :
    Notification.tellsOfLoad ⟨number, .error, t, (err.inBlock tab block opcode).message⟩ = false := by
  obtain ⟨rest, hrest⟩ := err.message_inBlock tab block opcode
  unfold Notification.tellsOfLoad
  have hunable : "Unable to load tab".toList = 'U' :: "nable to load tab".toList := rfl
  rw [hrest, hunable]
  rfl

theorem Notification.tellsOfLoad_failure (number : Nat) (t : Option String) (name text : String) :
    Notification.tellsOfLoad ⟨number, .error, t, s!"Unable to load tab '{name}': {text}"⟩ = true := by
  unfold Notification.tellsOfLoad
  refine Bool.and_eq_true_iff.2 ⟨rfl, List.isPrefixOf_iff_prefix.2 ?_⟩
  have hquote : "Unable to load tab '".toList = "Unable to load tab".toList ++ [' ', '\''] := rfl
  simp only [toString, String.toList_append, List.append_assoc, hquote]
  exact List.prefix_append ..

/-! ## Steps -/

/-- Variables stay, and nothing is told of a tab that could not be loaded. -/
structure World.Mute (w w' : World) : Prop where
  vars : w'.vars = w.vars
  untold : (w.notifications.since w'.notifications).filter (·.tellsOfLoad) = []

theorem World.Silent.mute (h : w.Silent w') : w.Mute w' :=
  ⟨h.vars, by rw [h.notifications, Notifications.since_self]; rfl⟩

/-- The error of a block is reported. -/
theorem World.Mute.report (w : World) (s : Site) (cause : EngineError) :
    w.Mute (w.report s.tab (s.annotate cause)) := by
  unfold World.report
  split
  · exact (Silent.refl w).mute
  · refine ⟨rfl, ?_⟩
    change (w.notifications.since (w.notifications.push ..)).filter _ = []
    rw [Notifications.since_push]
    exact List.filter_cons_of_neg (Bool.eq_false_iff.1 (Notification.not_tellsOfLoad_inBlock ..))

/-- A step that concerns one tab, but not its entry. -/
structure World.Minor (id : String) (w w' : World) : Prop extends Mute w w' where
  tabs : w'.tabs = w.tabs
  aside : ∀ k, k ≠ id → w.view.Aside k w'.view

/-- A step of the teardown of a generation. -/
structure World.Tears (id : String) (g : Option Generation) (w w' : World) : Prop
    extends Mute w w' where
  tabs : w'.tabs = w.tabs
  nothing : w.view.NothingNew id w'.view
  aside : Supervisor.OfTab id g w.view → ∀ k, k ≠ id → w.view.Aside k w'.view

namespace World.Minor

theorem of_view (hs : w.Silent w') (hview : w'.view = v) (htabs : v.tabs = w.tabs)
    (haside : ∀ k, k ≠ id → w.view.Aside k v) : w.Minor id w' :=
  { hs.mute with
    tabs := (congrArg View.tabs hview).trans htabs
    aside := hview ▸ haside }

theorem refl (w : World) : w.Minor id w := of_view (.refl w) rfl rfl fun k _ => .refl k w.view

theorem fresh (w : World) : w.Minor id w.fresh.2 :=
  of_view ⟨rfl, rfl⟩ rfl rfl fun _ _ => .of_eq rfl rfl rfl fun _ x hx _ => ⟨x, hx⟩

theorem settle (w : World) (t : TaskId) (ts : List TaskId) (deadline : Nat) :
    w.Minor id (w.settle t (.allEnded ts deadline)) :=
  of_view (.settle ..) (view_settle ..) rfl fun k _ => .refl k w.view

theorem settle_turn (w : World) (t : TaskId) : w.Minor id (w.settle t .turn) :=
  of_view (.settle ..) (view_settle ..) rfl fun _ _ => .of_eq rfl rfl rfl fun _ x hx _ => ⟨x, hx⟩

theorem passTurn (w : World) : w.Minor id w.passTurn :=
  of_view (.passTurn w) (view_passTurn w) rfl fun _ _ => .of_eq rfl rfl rfl fun _ x hx _ => ⟨x, hx⟩

theorem spawn (w : World) (d : String) (ctx : Context) (j : Job) :
    w.Minor id (w.spawn j.owner d ctx j).2 := by
  refine of_view (.spawn ..) (view_spawn ..) ?_ fun _ _ => .spawn (i := w.issued)
  unfold View.spawn
  split
  · rfl
  · exact View.tabs_modifyGeneration ..

theorem newGeneration (w : World) (name : String) (graph : Graph) :
    w.Minor id (w.newGeneration id name graph).2 :=
  of_view ⟨rfl, rfl⟩ rfl rfl fun _ hne => .newGeneration hne.symm

end World.Minor

/-- What a hat of a tab does when it gets ready. -/
theorem Site.hatRule (s : Site) : HatRule s (World.Minor s.tab) where
  refl := .refl
  obtain w key := .of_view ⟨rfl, rfl⟩ rfl rfl fun k hk => .of_eq rfl rfl rfl fun l x' hx' htab => by
    rcases LockTable.lock?_obtain hx' with hx | rfl
    · exact ⟨x', hx⟩
    · exact absurd htab.symm hk
  listen w l r := by
    have hlocks : w.view.Calm { w.view with locks := (w.locks.subscribe l .all r).2 } :=
      .of_eq rfl rfl rfl
    let w₁ := (w.withLocks (·.subscribe l .all r)).2
    have hsilent : w₁.Silent (w₁.addListener s.generation.number s.id
        (.unsubscribe l (w.locks.subscribe l .all r).1)) := .modifyGeneration ..
    refine .of_view ⟨hsilent.vars, hsilent.notifications⟩ (World.view_modifyGeneration ..)
      (View.tabs_modifyGeneration ..) fun _ _ => .of_calm (hlocks.modifyGeneration _ fun s =>
        ⟨rfl, rfl, List.prefix_append ..⟩) fun l' x hx _ => .inl ?_
    rw [View.locks_modifyGeneration] at hx
    have hx : (w.locks.subscribe l .all r).2.lock? l' = some x := hx
    unfold LockTable.subscribe at hx
    rw [LockTable.lock?_modify] at hx
    split at hx
    · obtain ⟨x₀, hx₀, -⟩ := Option.map_eq_some_iff.1 hx
      exact ⟨x₀, hx₀⟩
    · exact ⟨x, hx⟩
  report w cause :=
    { World.Mute.report w s cause with
      tabs := (World.Stays.report w _ _).tabs
      aside := fun k _ => by
        unfold World.report
        split
        · exact .refl k w.view
        · exact .refl k w.view }

namespace World.Tears

/-- A step of a teardown that concerns no generation. -/
theorem of_view {g : Option Generation} (hs : w.Silent w') (hview : w'.view = v)
    (htabs : v.tabs = w.tabs) (haside : ∀ k, w.view.Aside k v) : w.Tears id g w' :=
  { hs.mute with
    tabs := (congrArg View.tabs hview).trans htabs
    nothing := hview ▸ (haside id).toNothingNew
    aside := fun _ k _ => hview ▸ haside k }

end World.Tears

instance (id : String) (g : Option Generation) :
    Supervisor.TeardownRule id g (World.Tears id g) where
  releaseLocks w := .of_view (.releaseLocks w id) (World.view_releaseLocks w id) rfl fun _ =>
    .of_eq rfl rfl rfl fun _ _ hx _ => LockTable.lock?_of_release hx
  releaseBlocks w x _ := by
    refine .of_view (.releaseBlocks w x.number) (Supervisor.view_releaseBlocks w x.number)
      (View.tabs_modifyGeneration ..) fun k => ?_
    let locks := w.view.locks.unsubscribeAll (Supervisor.subscriptions
      (((w.generation? x.number).map GenerationState.listeners).getD []))
    have hthinned : LockTable.Thinned w.locks locks := .unsubscribeAll ..
    have hlocks : w.view.Aside k { w.view with locks } :=
      .of_eq rfl rfl rfl fun l x' hx' _ => by
        rcases hthinned.lock l with hsame | ⟨x, subs, hx, -⟩
        · exact ⟨x', hsame ▸ hx'⟩
        · exact ⟨x, hx⟩
    exact hlocks.trans (View.le_withLocks hthinned.le)
      (View.KeepsTasks_le GenerationState.keepsTasks_dropListeners _ _)
      (.modifyGeneration x.number (f := (·.dropListeners)) (fun _ => rfl) fun _ _ _ => rfl)
  destroy w x hx :=
    { (World.Silent.modifyGeneration w x.number _).mute with
      tabs := World.tabs_modifyGeneration ..
      nothing := by
        rw [Supervisor.view_destroy]
        exact .modifyGeneration _ fun _ => rfl
      aside := fun hg k hk => by
        rw [Supervisor.view_destroy]
        obtain ⟨htab, s₀, hs₀, hstab⟩ := hg x hx
        refine .modifyGeneration _ (fun _ => rfl) fun s hs hsk => absurd ?_ hk
        obtain rfl := Option.some.inj (hs.symm.trans hs₀)
        exact hsk.symm.trans (hstab.trans htab) }
  cancel w u := .of_view (.cancel w u) (World.view_cancel w u) (View.cancelAll_spec w.view [u]).2.1
    fun _ => .cancel w.view u
  ended w t u := .of_view (.settle ..) (World.view_settle w t (.ended u)) rfl fun k =>
    .refl k w.view

/-! ## What the steps of a reload have done -/

/-- The variables of a graph have been declared, if there is one, or no variable has changed. -/
def World.Alters (parsed : Except EngineError (Option Graph)) (w w' : World) : Prop :=
  w'.vars = w.vars ∨ ∃ graph, parsed = .ok (some graph) ∧
    w'.vars = graph.declaredVariables.foldl
      (fun vs (id, name, initial) => vs.declare id name initial) w.vars

/-- What steps have told of tabs that could not be loaded, and what they have declared. -/
structure Supervisor.Reports (parsed : Except EngineError (Option Graph))
    (failures : List (Option String × String)) (ss : List (World × World)) : Prop where
  failures : loadFailures ss = failures
  alters : ∀ s ∈ ss, s.1.Alters parsed s.2

namespace Supervisor.Reports

variable {parsed : Except EngineError (Option Graph)} {fs fs' : List (Option String × String)}
  {ss ss' : List (World × World)}

theorem append (h : Reports parsed fs ss) (h' : Reports parsed fs' ss') :
    Reports parsed (fs ++ fs') (ss ++ ss') where
  failures := by rw [loadFailures_append, h.failures, h'.failures]
  alters s hs := (List.mem_append.1 hs).elim (h.alters s) (h'.alters s)

theorem of_mute (h : ∀ s ∈ ss, s.1.Mute s.2) : Reports parsed [] ss where
  failures := by
    unfold loadFailures
    rw [List.filter_flatMap, List.flatMap_eq_nil_iff.2 fun s hs => (h s hs).untold]
    rfl
  alters s hs := .inl (h s hs).vars

theorem of_one (h : w.Mute w') : Reports parsed [] [(w, w')] :=
  of_mute fun _ hs => List.mem_singleton.1 hs ▸ h

end Supervisor.Reports

namespace Brings

variable {P : World → Prop} {Q : α → World → Prop} {p : Execution α}
  {parsed : Except EngineError (Option Graph)} {fs fs' : List (Option String × String)}

theorem tells_done (he : e.Orderly) (hP : World.Lasting c P) (a : α) :
    Brings e c P (.done a) fun b ss w => (b = a ∧ P w) ∧ Supervisor.Reports parsed [] ss :=
  (done he hP a).weaken (fun _ h => h) fun _ _ _ ⟨ha, hss, hw⟩ => ⟨⟨ha, hw⟩, .of_mute (hss ▸ nofun)⟩

theorem tells_bind (h : Brings e c P p fun a ss w => Q a w ∧ Supervisor.Reports parsed fs ss)
    {l : α → Execution β} {R : β → World → Prop}
    (hl : ∀ a, Brings e c (Q a) (l a) fun b ss w => R b w ∧ Supervisor.Reports parsed fs' ss) :
    Brings e c P (p.bind l) fun b ss w => R b w ∧ Supervisor.Reports parsed (fs ++ fs') ss := by
  refine h.bind fun a ss k m log m' b hreached hm hc hcourse => ?_
  obtain ⟨h', hR, htells⟩ := hl a k m log m' b hreached hm.1 hc hcourse
  exact ⟨h', hR, hm.2.append htells⟩

/-- What is known of an answer can be used for what follows. -/
theorem assume {φ : Prop} {Q : α → List (World × World) → World → Prop}
    (h : φ → Brings e c P p Q) : Brings e c (fun w => φ ∧ P w) p Q :=
  fun k m log m' a hreached hm => h hm.1 k m log m' a hreached hm.2

/-- Steps that are mute. -/
theorem tells_of_bound (he : e.Orderly) {R : World → World → Prop} (hp : e.Bound c R p)
    (hlasting : World.Lasting c P) (hP : ∀ w w', w.view ≤ w'.view → R w w' → P w → P w')
    (hR : ∀ w w', R w w' → w.Mute w') :
    Brings e c P p fun _ ss w => P w ∧ Supervisor.Reports parsed [] ss :=
  (of_bound he hp hlasting hP).weaken (fun _ h => h) fun _ _ _ ⟨hw, hss⟩ =>
    ⟨hw, .of_mute fun s hs => hR _ _ (hss s hs)⟩

theorem tells_atomically (he : e.Orderly) {f : World → α × World} (hP : World.Lasting c P)
    (hQ : ∀ a, World.Lasting c (Q a)) (h : ∀ w, w.view.Sound e → P w → w.view ≤ (f w).2.view →
      Q (f w).1 (f w).2 ∧ w.Mute (f w).2) :
    Brings e c P (Execution.atomically f) fun a ss w => Q a w ∧ Supervisor.Reports parsed [] ss :=
  atomically he hP (fun a _ => (hQ a).and fun _ _ _ h => h) fun w hs hw hle =>
    (h w hs hw hle).imp_right .of_one

theorem tells_change (he : e.Orderly) {f : World → World} {Q : World → Prop}
    (hP : World.Lasting c P) (hQ : World.Lasting c Q)
    (h : ∀ w, w.view.Sound e → P w → w.view ≤ (f w).view → Q (f w) ∧ w.Mute (f w)) :
    Brings e c P (Execution.change f) fun _ ss w => Q w ∧ Supervisor.Reports parsed [] ss :=
  tells_atomically he (f := fun w => ((), f w)) hP (fun _ => hQ) h

end Brings

/-! ## How far a reload has come -/

/-- The state has grown out of `w₀`, only one tab is concerned, and its entry is `y`. -/
structure World.Shows (id : String) (y : TabEntry) (w₀ w : World) : Prop where
  le : w₀.view ≤ w.view
  entry : w.tab? id = some y
  entries : ∀ k, k ≠ id → w.tab? k = w₀.tab? k
  aside : ∀ k, k ≠ id → w₀.view.Aside k w.view

/-- Nothing has come to the tab, of which is left what `S` says. -/
structure World.Vacant (id : String) (y : TabEntry) (S : View → Prop) (w₀ w : World) : Prop
    extends Shows id y w₀ w where
  nothing : w₀.view.NothingNew id w.view
  left : S w.view

/-- What is true of a tab stays true while nothing comes to it. -/
def View.Settled (id : String) (S : View → Prop) : Prop :=
  ∀ v v', v ≤ v' → v.Aside id v' → S v → S v'

theorem View.settled_sole {A : Prop} : Settled id fun v => A → v.Sole id :=
  fun _ _ hle haside h hA => (h hA).aside haside hle

theorem View.settled_bare {A : Prop} : Settled id fun v => A → v.Bare id :=
  fun _ _ hle haside h hA => (h hA).aside haside hle

theorem View.settled_true : Settled id fun _ => True := fun _ _ _ _ h => h

namespace World.Shows

theorem refl (h : w.tab? id = some x) : Shows id x w w :=
  ⟨View.le_refl _, h, fun _ _ => rfl, fun k _ => .refl k w.view⟩

/-- The tabs stay, and nothing comes to another one. -/
theorem step (h : Shows id y w₀ w) (hle : w.view ≤ w'.view) (htabs : w'.tabs = w.tabs)
    (haside : ∀ k, k ≠ id → w.view.Aside k w'.view) : Shows id y w₀ w' where
  le := View.le_trans h.le hle
  entry := (congrArg (Keyed.get? id) htabs).trans h.entry
  entries k hk := (congrArg (Keyed.get? k) htabs).trans (h.entries k hk)
  aside k hk := (h.aside k hk).trans h.le hle (haside k hk)

theorem lasting : Lasting c (Shows id y w₀) := fun _ _ hback h =>
  h.step hback.beside.le hback.tabs fun _ _ => .of_beside hback.beside

theorem modifyTab (h : Shows id y w₀ w) (f : TabEntry → TabEntry) :
    Shows id (f y) w₀ (w.modifyTab id f) := by
  have hview := Supervisor.view_modifyTab w id f
  have hle : w.view ≤ (w.modifyTab id f).view := hview ▸ View.le_modifyTab ..
  have hentry : ∀ k, (w.modifyTab id f).tab? k = if k = id then some (f y) else w.tab? k := by
    intro k
    rw [← view_tab?, hview, View.tab?_modifyTab, view_tab?, h.entry]
    rfl
  refine ⟨View.le_trans h.le hle, ?_, fun k hk => ?_, fun k hk => (h.aside k hk).trans h.le hle ?_⟩
  · rw [hentry, if_pos rfl]
  · rw [hentry, if_neg hk]
    exact h.entries k hk
  · rw [hview]
    exact .modifyTab fun heq => absurd heq.symm hk

end World.Shows

namespace World.Vacant

variable {S : View → Prop}

/-- The tabs stay, and nothing comes to any. -/
theorem step (h : Vacant id y S w₀ w) (hS : View.Settled id S) (hle : w.view ≤ w'.view)
    (htabs : w'.tabs = w.tabs) (haside : ∀ k, w.view.Aside k w'.view) : Vacant id y S w₀ w' :=
  { h.toShows.step hle htabs fun k _ => haside k with
    nothing := h.nothing.trans h.le hle (haside id).toNothingNew
    left := hS _ _ hle (haside id) h.left }

theorem lasting (hS : View.Settled id S) : Lasting c (Vacant id y S w₀) := fun _ _ hback h =>
  h.step hS hback.beside.le hback.tabs fun _ => .of_beside hback.beside

/-- The entry is changed, but not its generation. -/
theorem modifyTab (h : Vacant id y S w₀ w) (hS : View.Settled id S) {f : TabEntry → TabEntry}
    (hf : (f y).generation = y.generation) : Vacant id (f y) S w₀ (w.modifyTab id f) := by
  have hview := Supervisor.view_modifyTab w id f
  have hle : w.view ≤ (w.modifyTab id f).view := hview ▸ View.le_modifyTab ..
  have haside : w.view.Aside id (w.modifyTab id f).view := hview ▸ .modifyTab fun _ x hx => by
    obtain rfl := Option.some.inj (hx.symm.trans h.entry)
    exact hf
  exact { h.toShows.modifyTab f with
    nothing := h.nothing.trans h.le hle haside.toNothingNew
    left := hS _ _ hle haside h.left }

end World.Vacant

/-! ## The parts of a reload -/

namespace Supervisor

variable {S : View → Prop} {A : Prop} {graph : Graph}
  {parsed : Except EngineError (Option Graph)} {fs : List (Option String × String)}

/-- To wait for the turn. -/
theorem brings_turn (he : e.Orderly) (hS : View.Settled id S) :
    Brings e c (World.Vacant id y S w₀) (.pause .turn .done) fun _ ss w =>
      (World.Vacant id y S w₀ w ∧ w.turn.holder = some c) ∧ Reports parsed [] ss := by
  have hlasting : World.Lasting c (World.Vacant id y S w₀) := World.Vacant.lasting hS
  refine .single he hlasting (fun _ _ => (hlasting.and (World.lasting_holder c)).and
    fun _ _ _ h => h) nofun (fun w q w' hstep => ?_) fun w a w' _ hw hle hstep => ?_
  · obtain ⟨r, -, heq⟩ := Option.map_eq_some_iff.1 hstep
    exact ⟨_, (Prod.mk.inj heq).1.symm⟩
  · obtain ⟨r, -, heq⟩ := Option.map_eq_some_iff.1 hstep
    obtain ⟨-, rfl⟩ := Prod.mk.inj heq
    have hminor : ∀ k, w.Minor k (w.settle c .turn) := fun _ => .settle_turn w c
    refine ⟨⟨hw.step hS hle (hminor id).tabs fun k => ?_, ?_⟩, .of_one (hminor id).toMute⟩
    · rw [World.view_settle]
      exact .of_eq rfl rfl rfl fun _ x hx _ => ⟨x, hx⟩
    · exact congrArg View.holder (World.view_settle w c .turn)

/-- To give the entry of the tab a status. -/
theorem brings_mark (he : e.Orderly) (hS : View.Settled id S) {f : TabEntry → TabEntry}
    (hf : (f y).generation = y.generation) :
    Brings e c (World.Vacant id y S w₀) (modifyTab id f) fun _ ss w =>
      World.Vacant id (f y) S w₀ w ∧ Reports parsed [] ss :=
  .tells_change he (f := (·.modifyTab id f)) (World.Vacant.lasting hS) (World.Vacant.lasting hS)
    fun w _ hw _ => ⟨hw.modifyTab hS hf, (World.Silent.modifyTab w id f).mute⟩

/-! ### The generation before -/

/-- To take the generation out. -/
theorem brings_retire (he : e.Orderly) (status : TabStatus) :
    Brings e c (World.Vacant id x (fun _ => True) w₀) (ExceptT.run (retire id status))
      fun r ss w => (r = .ok x ∧ OfTab id x.generation w.view ∧
        World.Vacant id { x with status, generation := none } (fun _ => True) w₀ w) ∧
          Reports parsed [] ss := by
  refine .tells_atomically he (World.Vacant.lasting View.settled_true) (fun r w w' hback hw => ?_)
    fun w hs hw hle => ?_
  · exact ⟨hw.1, hw.2.1.mono hback.beside.le, World.Vacant.lasting View.settled_true _ _ hback hw.2.2⟩
  · rw [hw.entry] at hle ⊢
    have hof : OfTab id x.generation w.view := fun g hg => hs.recorded id x g hw.entry hg
    refine ⟨⟨rfl, hof.mono hle, ?_⟩, (World.Silent.modifyTab w id _).mute⟩
    refine { hw.toShows.modifyTab _ with nothing := ?_, left := trivial }
    refine hw.nothing.trans hw.le hle ?_
    rw [view_modifyTab]
    exact .modifyTab ..

/-- To tear it down. -/
theorem brings_teardown (he : e.Orderly) (g : Option Generation) :
    Brings e c (fun w => OfTab id g w.view ∧ World.Vacant id y (fun _ => True) w₀ w) (teardown id g)
      fun _ ss w => World.Vacant id y (fun _ => True) w₀ w ∧ Reports parsed [] ss := by
  have hbound : e.Bound c (World.Tears id g) (teardown id g) := bound_teardown id g
  refine (Brings.tells_of_bound he hbound (fun w w' hback hw => ?_) (fun w w' hle hR hw => ?_)
    fun w w' hR => hR.toMute).weaken (fun _ h => h) fun _ _ _ h => ⟨h.1.2, h.2⟩
  · exact ⟨hw.1.mono hback.beside.le, World.Vacant.lasting View.settled_true _ _ hback hw.2⟩
  · exact ⟨hw.1.mono hle, { hw.2.toShows.step hle hR.tabs (hR.aside hw.1) with
      nothing := hw.2.nothing.trans hw.2.le hle hR.nothing
      left := trivial }⟩

/-- If only what the tab records had something left, nothing is left of the tab. -/
theorem brings_clear (he : e.Orderly) (status : TabStatus) :
    Brings e c (fun w => World.Vacant id x (fun v => A → v.Sole id) w₀ w ∧
        w.turn.holder = some c) (ExceptT.run (clear (retire id status) id))
      fun r ss w => (r = .ok x ∧ World.Vacant id { x with status, generation := none }
        (fun v => A → v.Bare id) w₀ w) ∧ Reports parsed [] ss := by
  have hparts : Brings e c (World.Vacant id x (fun _ => True) w₀)
      (ExceptT.run (clear (retire id status) id)) fun r ss w =>
        (r = .ok x ∧ World.Vacant id { x with status, generation := none } (fun _ => True) w₀ w) ∧
          Reports parsed ([] ++ []) ss := by
    rw [run_clear]
    refine (brings_retire he status).tells_bind fun r => .assume fun hr => ?_
    subst hr
    refine ((brings_teardown he x.generation).tells_bind fun _ => ?_ :
      Brings _ _ _ _ fun _ ss _ => _ ∧ Reports parsed ([] ++ []) ss)
    exact .tells_done he (World.Vacant.lasting View.settled_true) _
  intro k m log m' r hreached ⟨hw, hholder⟩ hc hcourse
  obtain ⟨h', ⟨rfl, hw'⟩, hreports⟩ :=
    hparts k m log m' r hreached { hw with left := trivial } hc hcourse
  refine ⟨h', ⟨rfl, { hw' with left := fun hA => ?_ }⟩, hreports⟩
  exact (torn_clear he ⟨hreached, hholder⟩ (.retire status) (hw.left hA) hcourse).2.1

/-! ### The generation after -/

theorem run_start_of_error {name content : String} {err : EngineError}
    (h : contentGraph? content = .error err) :
    ExceptT.run (start e id name content) = .done (.error err) := by
  unfold start
  rw [h]
  rfl

theorem run_start_of_none {name content : String} (h : contentGraph? content = .ok none) :
    ExceptT.run (start e id name content) = .done (.ok none) := by
  unfold start
  rw [h]
  rfl

/-- Steps that are minor for the tab. -/
theorem brings_of_minor (he : e.Orderly) {p : Execution α} (hp : e.Bound c (World.Minor id) p) :
    Brings e c (World.Shows id y w₀) p fun _ ss w =>
      World.Shows id y w₀ w ∧ Reports parsed [] ss :=
  .tells_of_bound he hp World.Shows.lasting (fun _ _ hle hR hw => hw.step hle hR.tabs hR.aside)
    fun _ _ hR => hR.toMute

theorem bound_spawnRoots (sites : List Site) : e.Bound c (World.Minor id) (spawnRoots sites) := by
  have hspawns : e.Bound c (World.Minor id)
      (sites.mapM fun s => Execution.spawn s s.context (.root s)) :=
    .mapM (fun s => .atomically fun w => World.Minor.spawn w s.description s.context (.root s)) sites
  exact hspawns.bind fun _ => .done _

/-- To start the roots of a generation of the tab. -/
theorem brings_startRoots (he : e.HasCore) (g : Generation) :
    Brings e c (World.Shows g.tab y w₀) (startRoots e g) fun _ ss w =>
      World.Shows g.tab y w₀ w ∧ Reports parsed [] ss := by
  have horderly := Engine.orderly_of_core he
  have hsites : Brings e c (World.Shows g.tab y w₀) (rootSites g) fun sites ss w =>
      ((∀ s ∈ sites, s.generation = g) ∧ World.Shows g.tab y w₀ w) ∧ Reports parsed [] ss := by
    intro k m log m' sites hreached hw hc hcourse
    have hbound : e.Bound c (World.Minor g.tab) (rootSites g) :=
      .of_straight (straight_rootSites World.Minor.fresh g)
    obtain ⟨h', hw', hreports⟩ :=
      brings_of_minor horderly hbound k m log m' sites hreached hw hc hcourse
    exact ⟨h', ⟨(sites_of_rootSites hcourse).2, hw'⟩, hreports⟩
  rw [startRoots_eq]
  refine (hsites.tells_bind fun sites => .assume fun hown => ?_ :
    Brings _ _ _ _ fun _ ss _ => _ ∧ Reports parsed ([] ++ []) ss)
  have honce : e.Bound c (World.Minor g.tab) (handleAll (onceRoots sites)) :=
    .of_straight (straight_handleAll he fun s hs => hown s hs ▸ s.hatRule)
  refine brings_of_minor horderly (honce.bind fun _ => (bound_spawnRoots _).bind fun _ => ?_)
  refine .bind (.act .refl fun w => .done w) fun w => ?_
  exact .bind (.pause (fun w => .settle w c _ _) fun r => .done r) fun _ =>
    (bound_spawnRoots _).bind fun _ => .done _

/-- To start a generation from a graph. -/
theorem brings_start (he : e.HasCore) {name content : String}
    (hgraph : contentGraph? content = .ok (some graph)) :
    Brings e c (World.Shows id y w₀) (ExceptT.run (start e id name content)) fun r ss w =>
      (∃ g, r = .ok (some g) ∧ g.graph = graph ∧ g.tab = id ∧ World.Shows id y w₀ w) ∧
        Reports (.ok (some graph)) [] ss := by
  have horderly := Engine.orderly_of_core he
  rw [run_start hgraph]
  have hdeclare : Brings e c (World.Shows id y w₀) (declareVariables graph.declaredVariables)
      fun _ ss w => World.Shows id y w₀ w ∧ Reports (.ok (some graph)) [] ss := by
    refine .change horderly World.Shows.lasting (fun _ => World.Shows.lasting.and fun _ _ _ h => h)
      fun w _ hw hle => ⟨hw.step hle rfl fun k _ => .refl k w.view, ?_, ?_⟩
    · unfold loadFailures
      simp [Notifications.since_self]
    · rintro s hs
      obtain rfl := List.mem_singleton.1 hs
      exact .inr ⟨graph, rfl, rfl⟩
  have hnew : Brings e c (World.Shows id y w₀)
      (Execution.atomically fun w => w.newGeneration id name graph) fun g ss w =>
        ((g.graph = graph ∧ g.tab = id) ∧ World.Shows id y w₀ w) ∧
          Reports (.ok (some graph)) [] ss := by
    refine .tells_atomically horderly World.Shows.lasting
      (fun g => .and (fun _ _ _ h => h) World.Shows.lasting) fun w _ hw hle => ?_
    have hminor : w.Minor id (w.newGeneration id name graph).2 := .newGeneration w name graph
    exact ⟨⟨⟨rfl, rfl⟩, hw.step hle hminor.tabs hminor.aside⟩, hminor.toMute⟩
  refine (hdeclare.tells_bind fun _ => ?_ :
    Brings _ _ _ _ fun _ ss _ => _ ∧ Reports _ ([] ++ []) ss)
  refine (hnew.tells_bind fun g => .assume fun hg => ?_ :
    Brings _ _ _ _ fun _ ss _ => _ ∧ Reports _ ([] ++ []) ss)
  obtain ⟨hgraph, rfl⟩ := hg
  refine ((brings_startRoots he g).tells_bind fun _ => ?_ :
    Brings _ _ _ _ fun _ ss _ => _ ∧ Reports _ ([] ++ []) ss)
  exact (Brings.tells_done horderly World.Shows.lasting _).weaken (fun _ h => h)
    fun r _ _ h => ⟨⟨g, h.1.1, hgraph, rfl, h.1.2⟩, h.2⟩

/-! ## The whole of it -/

/-- The entry of a tab after a reload. -/
inductive Settles (id : String) (x : TabEntry) : TabEntry → Prop
  | unloaded : contentGraph? x.content = .ok none →
      Settles id x { x with status := .unloaded, generation := none }
  | running {g : Generation} : contentGraph? x.content = .ok (some g.graph) → g.tab = id →
      Settles id x { x with status := .running, generation := some g }
  | stopped {err : EngineError} : contentGraph? x.content = .error err →
      Settles id x { x with status := .stopped (some err.message), generation := none }

/-- What is told when a tab can not be loaded. -/
def loadFailure? (id name content : String) : Option (Option String × String) :=
  match contentGraph? content with
  | .ok _ => none
  | .error err => some (some id, s!"Unable to load tab '{name}': {err.message}")

/-- What a reload comes to: the entry of the tab is settled, and no other is touched. Unless a
generation runs, nothing has come to the tab and, if only what it recorded had something left,
nothing is left of it. -/
structure Reloaded (id : String) (x : TabEntry) (w₀ : World) (r : Except SupervisorError Unit)
    (w : World) : Prop where
  shows : ∃ y, Settles id x y ∧ World.Shows id y w₀ w
  answer : r.isOk = (contentGraph? x.content).isOk
  vacant : (∀ graph, contentGraph? x.content ≠ .ok (some graph)) →
    w₀.view.NothingNew id w.view ∧ (w₀.view.Sole id → w.view.Bare id)

namespace Reloaded

variable {r : Except SupervisorError Unit}

theorem step (h : Reloaded id x w₀ r w) (hle : w.view ≤ w'.view) (htabs : w'.tabs = w.tabs)
    (haside : ∀ k, w.view.Aside k w'.view) : Reloaded id x w₀ r w' where
  shows := by
    obtain ⟨y, hy, hshows⟩ := h.shows
    exact ⟨y, hy, hshows.step hle htabs fun k _ => haside k⟩
  answer := h.answer
  vacant hnone := by
    obtain ⟨y, -, hshows⟩ := h.shows
    obtain ⟨hnothing, hbare⟩ := h.vacant hnone
    exact ⟨hnothing.trans hshows.le hle (haside id).toNothingNew, fun hA =>
      (hbare hA).aside (haside id) hle⟩

theorem lasting : World.Lasting c (Reloaded id x w₀ r) := fun _ _ hback h =>
  h.step hback.beside.le hback.tabs fun _ => .of_beside hback.beside

theorem of_vacant (hw : World.Vacant id y (fun v => w₀.view.Sole id → v.Bare id) w₀ w)
    (hy : Settles id x y) (hr : r.isOk = (contentGraph? x.content).isOk) :
    Reloaded id x w₀ r w :=
  ⟨⟨y, hy, hw.toShows⟩, hr, fun _ => ⟨hw.nothing, hw.left⟩⟩

end Reloaded

variable (parsed) in
/-- What a reload does when it has tried to start a generation and none runs. -/
theorem brings_install_none (he : e.Orderly) (name : String) (hS : View.Settled id S)
    (hy : y.generation = none) :
    Brings e c (World.Vacant id y S w₀) (ExceptT.run (install id name (.ok none))) fun r ss w =>
      (r = .ok () ∧ World.Vacant id { y with status := .unloaded, generation := none } S w₀ w) ∧
        Reports parsed [] ss :=
  ((brings_mark he hS (f := fun y => { y with status := .unloaded, generation := none })
    hy.symm).tells_bind fun _ => .tells_done he (World.Vacant.lasting hS) (Except.ok ()) :
      Brings _ _ _ _ fun _ ss _ => _ ∧ Reports parsed ([] ++ []) ss)

variable (parsed) in
/-- The same when it has failed: this is told once. -/
theorem brings_install_error (he : e.Orderly) (name : String) (err : EngineError)
    (hS : View.Settled id S) :
    Brings e c (World.Vacant id y S w₀) (ExceptT.run (install id name (.error err))) fun r ss w =>
      (r = .error (.engine err) ∧
        World.Vacant id { y with status := .stopped (some err.message) } S w₀ w) ∧
          Reports parsed [(some id, s!"Unable to load tab '{name}': {err.message}")] ss := by
  have hlasting : World.Lasting c (World.Vacant id y S w₀) := World.Vacant.lasting hS
  have htold : Brings e c (World.Vacant id y S w₀) (Execution.change fun w =>
      w.notify .error (some id) s!"Unable to load tab '{name}': {err.message}") fun _ ss w =>
        World.Vacant id y S w₀ w ∧
          Reports parsed [(some id, s!"Unable to load tab '{name}': {err.message}")] ss := by
    refine .change he hlasting (fun _ => hlasting.and fun _ _ _ h => h) fun w _ hw hle =>
      ⟨hw.step hS hle rfl fun k => .refl k w.view, ?_, fun s hs => ?_⟩
    · have hsince := w.notifications.since_push .error (some id)
        s!"Unable to load tab '{name}': {err.message}"
      simp only [loadFailures, World.notify, List.flatMap_cons, List.flatMap_nil, List.append_nil,
        hsince]
      rw [List.filter_cons_of_pos (Notification.tellsOfLoad_failure ..)]
      rfl
    · obtain rfl := List.mem_singleton.1 hs
      exact .inl rfl
  have hstopped : Brings e c (World.Vacant id y S w₀) (ExceptT.run (do
      modifyTab id fun entry => { entry with status := .stopped (some err.message) }
      throw (.engine err) : Request Unit)) fun r ss w => (r = .error (.engine err) ∧
        World.Vacant id { y with status := .stopped (some err.message) } S w₀ w) ∧
          Reports parsed ([] ++ []) ss :=
    (brings_mark he hS (f := fun y => { y with status := .stopped (some err.message) }) rfl).tells_bind
      fun _ => .tells_done he (World.Vacant.lasting hS) (Except.error (SupervisorError.engine err))
  rw [← List.append_nil [_]]
  exact htold.tells_bind fun _ => hstopped

variable (parsed) in
/-- The same when a generation runs. -/
theorem brings_install_some (he : e.Orderly) (name : String) (g : Generation) :
    Brings e c (World.Shows id y w₀) (ExceptT.run (install id name (.ok (some g)))) fun r ss w =>
      (r = .ok () ∧ World.Shows id { y with status := .running, generation := some g } w₀ w) ∧
        Reports parsed ([] ++ []) ss :=
  (Brings.tells_change he (f := (·.modifyTab id fun y =>
    { y with status := .running, generation := some g })) World.Shows.lasting World.Shows.lasting
      fun w _ hw _ => ⟨hw.modifyTab _, (World.Silent.modifyTab w id _).mute⟩).tells_bind fun _ =>
        .tells_done he World.Shows.lasting (Except.ok ())

/-- What a reload does when nothing is left of the tab. -/
theorem brings_renew (he : e.HasCore) :
    Brings e c (World.Vacant id { x with status := .reloading, generation := none }
      (fun v => w₀.view.Sole id → v.Bare id) w₀) (ExceptT.run (renew e id x)) fun r ss w =>
        Reloaded id x w₀ r w ∧
          Reports (contentGraph? x.content) (loadFailure? id x.name x.content).toList ss := by
  have horderly := Engine.orderly_of_core he
  rw [run_renew, ← List.nil_append (loadFailure? id x.name x.content).toList]
  refine (brings_mark horderly View.settled_bare (f := fun y => { y with status := .parsing })
    rfl).tells_bind fun _ => ?_
  unfold loadFailure?
  cases hcontent : contentGraph? x.content with
  | error err =>
    rw [run_start_of_error hcontent]
    refine (brings_install_error (.error err) horderly x.name err View.settled_bare).weaken
      (fun _ h => h) ?_
    rintro r ss w ⟨⟨rfl, hw⟩, hreports⟩
    exact ⟨.of_vacant hw (.stopped hcontent) (by rw [hcontent]; rfl), hreports⟩
  | ok graph? =>
    cases graph? with
    | none =>
      rw [run_start_of_none hcontent]
      refine (brings_install_none (.ok none) horderly x.name View.settled_bare rfl).weaken
        (fun _ h => h) ?_
      rintro r ss w ⟨⟨rfl, hw⟩, hreports⟩
      exact ⟨.of_vacant hw (.unloaded hcontent) (by rw [hcontent]; rfl), hreports⟩
    | some graph =>
      refine (((brings_start he hcontent).weaken (fun _ => World.Vacant.toShows)
        fun _ _ _ h => h).tells_bind fun r => ?_ :
          Brings _ _ _ _ fun _ ss _ => _ ∧ Reports _ ([] ++ []) ss)
      intro k m log m' r' hreached hw hc hcourse
      obtain ⟨g, rfl, rfl, htab, hw⟩ := hw
      obtain ⟨h', ⟨rfl, hw'⟩, hreports⟩ := brings_install_some (.ok (some g.graph)) horderly x.name g
        k m log m' r' hreached hw hc hcourse
      exact ⟨h', ⟨⟨_, .running hcontent htab, hw'⟩, by rw [hcontent]; rfl, fun hnone =>
        absurd hcontent (hnone g.graph)⟩, hreports⟩

/-- A caller that acts alone reloads a tab. -/
theorem brings_reload (he : e.HasCore) :
    Brings e c (World.Vacant id x (fun v => w₀.view.Sole id → v.Sole id) w₀)
      (ExceptT.run (reload e id)) fun r ss w =>
        Reloaded id x w₀ r w ∧
          Reports (contentGraph? x.content) (loadFailure? id x.name x.content).toList ss := by
  have horderly := Engine.orderly_of_core he
  have hpass : ∀ r, Brings e c (Reloaded id x w₀ r) ((Execution.change World.passTurn).bind fun _ =>
      .done r) fun r' ss w => Reloaded id x w₀ r' w ∧
        Reports (contentGraph? x.content) ([] ++ []) ss := fun r =>
    (Brings.tells_change horderly Reloaded.lasting Reloaded.lasting fun w _ hw hle =>
      ⟨hw.step hle (World.Minor.passTurn w : w.Minor id w.passTurn).tabs fun k => by
        rw [World.view_passTurn]
        exact .of_eq rfl rfl rfl fun _ x hx _ => ⟨x, hx⟩,
        (World.Silent.passTurn w).mute⟩).tells_bind fun _ =>
          (Brings.tells_done horderly Reloaded.lasting r).weaken (fun _ h => h)
            fun _ _ _ h => ⟨h.1.1 ▸ h.1.2, h.2⟩
  rw [run_reload, ← List.nil_append (loadFailure? id x.name x.content).toList]
  refine (brings_turn horderly View.settled_sole).tells_bind fun _ => ?_
  rw [← List.append_nil (loadFailure? id x.name x.content).toList]
  refine Brings.tells_bind (?_ : Brings e c (fun w =>
    World.Vacant id x (fun v => w₀.view.Sole id → v.Sole id) w₀ w ∧ w.turn.holder = some c) _
      fun r ss w => Reloaded id x w₀ r w ∧
        Reports (contentGraph? x.content) ([] ++ (loadFailure? id x.name x.content).toList) ss) hpass
  refine (brings_clear horderly .reloading).tells_bind fun r => .assume fun hr => ?_
  subst hr
  exact brings_renew he

/-- A caller that acts alone and has reloaded a tab. -/
theorem reloaded (he : e.HasCore) (h : Reached e c m) (hx : m.world.tab? id = some x)
    {k : Except SupervisorError Unit → Execution Unit} {r : Except SupervisorError Unit}
    (hc : Deed.ByCaller c log) (hcourse : Course e c k m' m (ExceptT.run (reload e id)) log r) :
    Reached e c m' ∧ Reloaded id x m.world r m'.world ∧
      Reports (contentGraph? x.content) (loadFailure? id x.name x.content).toList
        (Deed.transitions e c log) := by
  refine brings_reload he k m log m' r h { World.Shows.refl hx with
    nothing := (View.Aside.refl id m.world.view).toNothingNew
    left := fun h => h } hc hcourse

end Supervisor
end BlockEngine
