import BlockEngine.Proofs.Reloading
import BlockEngine.Proofs.Clearing

/-!
# Loading the stored tabs

All stored tabs are taken in together and then reloaded one after the other, while those that are
loaded run already. What comes of each depends on its own content alone.

* `Supervisor.storedEntry`, `Supervisor.TakenIn` : the tabs when they have been taken in;
* `Supervisor.ReloadedAll` : what some reloads come to, one after the other;
* `Supervisor.LoadedAll` : what it comes to when all stored tabs are loaded;
* `Run.loads_all` : it does, whatever tasks do meanwhile.
-/

namespace BlockEngine

variable {α β : Type} {e : Engine} {c t : TaskId} {id : String} {w w' w₀ : World}
  {log log₀ : List Deed} {m m' : Machine} {x y : TabEntry} {sources : List TabSource}
  {ids : List String} {n : Nat}

namespace Supervisor

/-! ## Taking in -/

/-- The entry of a stored tab when it has been taken in. -/
def storedEntry (w : World) (s : TabSource) : TabEntry :=
  { (w.tab? s.id).getD (.new s.id "") with name := s.name.getD s.id, content := s.content }

/-- Some tabs with different ids are stored. -/
theorem tab?_store (w : World) (sources : List TabSource) (hnodup : (sources.map (·.id)).Nodup)
    {stored : World} (hstored : stored = sources.foldl (fun w s => w.putTab s.id s.id fun entry =>
      { entry with name := s.name.getD s.id, content := s.content }) w) :
    (∀ s ∈ sources, stored.tab? s.id = some (storedEntry w s)) ∧
      ∀ id, id ∉ sources.map (·.id) → stored.tab? id = w.tab? id := by
  subst hstored
  induction sources generalizing w with
  | nil => exact ⟨nofun, fun _ _ => rfl⟩
  | cons s sources ih =>
    obtain ⟨hs, hnodup⟩ := List.nodup_cons.1 hnodup
    rw [List.foldl_cons]
    have hput := w.tab?_putTab s.id s.id fun entry =>
      { entry with name := s.name.getD s.id, content := s.content }
    obtain ⟨hstored, hothers⟩ := ih (w.putTab s.id s.id _) hnodup
    refine ⟨List.forall_mem_cons.2 ⟨?_, fun s' hs' => ?_⟩, fun id hid => ?_⟩
    · rw [hothers s.id hs, hput, if_pos rfl]
      rfl
    · have hne : s'.id ≠ s.id := fun h => hs (List.mem_map.2 ⟨s', hs', h⟩)
      rw [hstored s' hs']
      unfold storedEntry
      rw [hput, if_neg hne]
    · rw [List.map_cons, List.mem_cons, not_or] at hid
      rw [hothers id hid.2, hput, if_neg hid.1]

/-- The tabs when stored ones have been taken in: each has its name and content, the general tab is
there, and no other tab differs. -/
structure TakenIn (e : Engine) (sources : List TabSource) (w₀ : World) (ids : List String)
    (w : World) : Prop where
  eq : ∃ general, ids = general ++ sources.map (·.id) ∧ ∀ id ∈ general, id = e.generalTab ∧
    id ∉ sources.map (·.id) ∧ w₀.tab? id = none ∧ w.tab? id = some (.new id "")
  nodup : ids.Nodup
  stored : ∀ s ∈ sources, w.tab? s.id = some (storedEntry w₀ s)
  general : (w.tab? e.generalTab).isSome = true
  others : ∀ id, id ∉ ids → w.tab? id = w₀.tab? id

theorem takenIn (e : Engine) (w : World) (hnodup : (sources.map (·.id)).Nodup) :
    TakenIn e sources w (takeIn e sources w).1 (takeIn e sources w).2 := by
  have hgeneral := general_takeIn (e := e) sources w
  unfold takeIn at hgeneral ⊢
  simp only at hgeneral ⊢
  split at hgeneral
  · next h =>
    rw [if_pos h]
    obtain ⟨hstored, hothers⟩ := tab?_store w sources hnodup rfl
    exact ⟨⟨[], rfl, nofun⟩, hnodup, hstored, hgeneral, hothers⟩
  · next h =>
    rw [if_neg h]
    rw [Bool.or_eq_true, not_or, List.any_eq_true, Option.not_isSome_iff_eq_none] at h
    have hnew : e.generalTab ∉ sources.map (·.id) := fun hmem => by
      obtain ⟨s, hs, hid⟩ := List.mem_map.1 hmem
      exact h.1 ⟨s, hs, decide_eq_true hid⟩
    have hput := w.tab?_putTab e.generalTab e.generalTab fun entry => entry
    obtain ⟨hstored, hothers⟩ := tab?_store (w.putTab e.generalTab e.generalTab fun entry => entry)
      sources hnodup rfl
    have hsame : ∀ id, id ≠ e.generalTab →
        (w.putTab e.generalTab e.generalTab fun entry => entry).tab? id = w.tab? id := fun id hid => by
      rw [hput, if_neg hid]
    refine ⟨⟨[e.generalTab], rfl, fun id hid => ?_⟩, List.nodup_cons.2 ⟨hnew, hnodup⟩, fun s hs => ?_,
      hgeneral, fun id hid => ?_⟩
    · obtain rfl := List.mem_singleton.1 hid
      refine ⟨rfl, hnew, h.2, (hothers _ hnew).trans ?_⟩
      rw [hput, if_pos rfl, h.2]
      rfl
    · refine (hstored s hs).trans (congrArg some ?_)
      unfold storedEntry
      rw [hsame s.id fun h => hnew (List.mem_map.2 ⟨s, hs, h⟩)]
    · rw [List.mem_append, not_or, List.mem_singleton] at hid
      exact (hothers id hid.2).trans (hsame id hid.1)

theorem TakenIn.congr {w₁ w₂ : World} (h : TakenIn e sources w₁ ids w₂)
    (h₁ : ∀ id, w₁.tab? id = w₀.tab? id) (h₂ : ∀ id, w.tab? id = w₂.tab? id) :
    TakenIn e sources w₀ ids w where
  eq := by
    obtain ⟨general, hids, hgeneral⟩ := h.eq
    refine ⟨general, hids, fun id hid => ?_⟩
    rw [← h₁, h₂]
    exact hgeneral id hid
  nodup := h.nodup
  stored s hs := by
    rw [h₂, h.stored s hs]
    unfold storedEntry
    rw [h₁]
  general := by
    rw [h₂]
    exact h.general
  others id hid := (h₂ id).trans ((h.others id hid).trans (h₁ id))

/-! ## One reload after the other -/

/-- What some reloads come to, one after the other, in steps `ss`: the entries of the tabs are
settled, and no others are touched. Unless a generation of it runs, nothing has come to a tab and, if
only what it recorded had something left, nothing is left of it. Each failure is told once, and only
variables of graphs that run have been declared. -/
structure ReloadedAll (ids : List String) (w₀ : World) (n : Nat) (ss : List (World × World))
    (w : World) : Prop where
  le : w₀.view ≤ w.view
  entries : ∀ k, k ∉ ids → w.tab? k = w₀.tab? k
  aside : ∀ k, k ∉ ids → w₀.view.Aside k w.view
  each : ∀ id ∈ ids, ∀ x, w₀.tab? id = some x → ∃ y, w.tab? id = some y ∧ Settles id x y
  vacant : ∀ id ∈ ids, ∀ x, w₀.tab? id = some x →
    (∀ graph, contentGraph? x.content ≠ .ok (some graph)) →
      w₀.view.NothingNew id w.view ∧ (w₀.view.Sole id → w.view.Bare id)
  failures : loadFailures ss = ids.filterMap fun id =>
    (w₀.tab? id).bind fun x => loadFailure? id x.name x.content
  alters : ∀ s ∈ ss, s.2.vars = s.1.vars ∨ ∃ id ∈ ids, ∃ x, w₀.tab? id = some x ∧
    s.1.Alters (contentGraph? x.content) s.2
  count : n = ids.countP fun id => (w₀.tab? id).any fun x => (contentGraph? x.content).isOk

namespace ReloadedAll

variable {ss ss' : List (World × World)}

theorem nil (h : w₀.Background c w) : ReloadedAll [] w₀ 0 [] w where
  le := h.beside.le
  entries k _ := h.tab? k
  aside _ _ := .of_beside h.beside
  each := nofun
  vacant := nofun
  failures := rfl
  alters := nofun
  count := rfl

theorem later (h : ReloadedAll ids w₀ n ss w) (hback : w.Background c w') :
    ReloadedAll ids w₀ n ss w' :=
  { h with
    le := View.le_trans h.le hback.beside.le
    entries := fun k hk => (hback.tab? k).trans (h.entries k hk)
    aside := fun k hk => (h.aside k hk).trans h.le hback.beside.le (.of_beside hback.beside)
    each := fun id hid x hx => by
      obtain ⟨y, hy, hsettles⟩ := h.each id hid x hx
      exact ⟨y, (hback.tab? id).trans hy, hsettles⟩
    vacant := fun id hid x hx hnone => by
      obtain ⟨hnothing, hbare⟩ := h.vacant id hid x hx hnone
      have haside : w.view.Aside id w'.view := .of_beside hback.beside
      exact ⟨hnothing.trans h.le hback.beside.le haside.toNothingNew, fun hsole =>
        (hbare hsole).aside haside hback.beside.le⟩ }

/-- One reload more, before the others. -/
theorem cons {w₁ : World} {r : Except SupervisorError Unit} (hid : id ∉ ids)
    (hx : w₀.tab? id = some x) (h : Reloaded id x w₀ r w₁)
    (hreports : Reports (contentGraph? x.content) (loadFailure? id x.name x.content).toList ss)
    (hall : ReloadedAll ids w₁ n ss' w) :
    ReloadedAll (id :: ids) w₀ (n + if r.isOk then 1 else 0) (ss ++ ss') w := by
  obtain ⟨y, hy, hshows⟩ := h.shows
  have hne : ∀ k ∈ ids, k ≠ id := fun k hk heq => hid (heq ▸ hk)
  have hsame : ∀ k ∈ ids, w₁.tab? k = w₀.tab? k := fun k hk => hshows.entries k (hne k hk)
  refine {
    le := View.le_trans hshows.le hall.le
    entries := fun k hk => ?_
    aside := fun k hk => ?_
    each := fun k hk x' hx' => ?_
    vacant := fun k hk x' hx' hnone => ?_
    failures := ?_
    alters := fun s hs => ?_
    count := ?_ }
  · rw [List.mem_cons, not_or] at hk
    exact (hall.entries k hk.2).trans (hshows.entries k hk.1)
  · rw [List.mem_cons, not_or] at hk
    exact (hshows.aside k hk.1).trans hshows.le hall.le (hall.aside k hk.2)
  · rcases List.mem_cons.1 hk with rfl | hk
    · obtain rfl := Option.some.inj (hx.symm.trans hx')
      exact ⟨y, (hall.entries k hid).trans hshows.entry, hy⟩
    · exact hall.each k hk x' ((hsame k hk).trans hx')
  · rcases List.mem_cons.1 hk with rfl | hk
    · obtain rfl := Option.some.inj (hx.symm.trans hx')
      obtain ⟨hnothing, hbare⟩ := h.vacant hnone
      have haside := hall.aside k hid
      exact ⟨hnothing.trans hshows.le hall.le haside.toNothingNew, fun hsole =>
        (hbare hsole).aside haside hall.le⟩
    · obtain ⟨hnothing, hbare⟩ := hall.vacant k hk x' ((hsame k hk).trans hx') hnone
      have haside := hshows.aside k (hne k hk)
      exact ⟨haside.toNothingNew.trans hshows.le hall.le hnothing, fun hsole =>
        hbare (hsole.aside haside hshows.le)⟩
  · have hrest : ids.filterMap (fun id => (w₁.tab? id).bind fun x =>
        loadFailure? id x.name x.content) = ids.filterMap fun id => (w₀.tab? id).bind fun x =>
          loadFailure? id x.name x.content :=
      List.filterMap_congr fun k hk => by rw [hsame k hk]
    rw [loadFailures_append, hreports.failures, hall.failures, hrest, List.filterMap_cons, hx,
      Option.bind_some]
    cases loadFailure? id x.name x.content <;> rfl
  · rcases List.mem_append.1 hs with hs | hs
    · exact .inr ⟨id, List.mem_cons_self, x, hx, hreports.alters s hs⟩
    · refine (hall.alters s hs).imp_right ?_
      rintro ⟨k, hk, x', hx', halters⟩
      exact ⟨k, List.mem_cons_of_mem _ hk, x', (hsame k hk).symm.trans hx', halters⟩
  · rw [List.countP_cons, hall.count, h.answer, hx, Option.any_some]
    congr 1
    exact List.countP_congr fun k hk => by rw [hsame k hk]

end ReloadedAll

/-- A caller that acts alone reloads tabs one after the other. -/
theorem reloadedAll (he : e.HasCore) (hnodup : ids.Nodup) (h : Reached e c m)
    (hthere : ∀ id ∈ ids, ∃ x, m.world.tab? id = some x) {k : Nat → Execution Unit}
    (hc : Deed.ByCaller c log) (hcourse : Course e c k m' m (reloadAll e ids) log n) :
    Reached e c m' ∧ ReloadedAll ids m.world n (Deed.transitions e c log) m'.world := by
  have horderly := Engine.orderly_of_core he
  induction ids generalizing m m' log n k with
  | nil =>
    cases hcourse with
    | step _ _ _ hstep => cases hstep
    | done hrun hothers =>
      obtain ⟨h', hback⟩ := h.background horderly hrun hothers hc
      rw [Deed.transitions_of_others hothers]
      exact ⟨h', .nil hback⟩
  | cons id ids ih =>
    obtain ⟨hid, hnodup⟩ := List.nodup_cons.1 hnodup
    obtain ⟨x, hx⟩ := hthere id List.mem_cons_self
    have hparts : reloadAll e (id :: ids) = (ExceptT.run (reload e id)).bind fun r =>
      (reloadAll e ids).bind fun loaded => .done (loaded + if r.isOk then 1 else 0) := rfl
    rw [hparts] at hcourse
    obtain ⟨m₁, log₁, logr, r, rfl, hreload, hcourse⟩ := hcourse.of_bind
    obtain ⟨m₂, log₂, log₃, loaded, rfl, hrest, hdone⟩ := hcourse.of_bind
    obtain ⟨h₁, hreloaded, hreports⟩ := reloaded he h hx hc.left hreload
    obtain ⟨y, -, hshows⟩ := hreloaded.shows
    obtain ⟨h₂, hall⟩ := ih hnodup h₁ (fun k hk => by
      obtain ⟨x', hx'⟩ := hthere k (List.mem_cons_of_mem _ hk)
      exact ⟨x', (hshows.entries k fun heq => hid (heq ▸ hk)).trans hx'⟩) hc.right.left hrest
    cases hdone with
    | step _ _ _ hstep => cases hstep
    | done hrun hothers =>
      obtain ⟨h', hback⟩ := h₂.background horderly hrun hothers hc.right.right
      rw [Deed.transitions_append, Deed.transitions_append, Deed.transitions_of_others hothers,
        List.append_nil]
      exact ⟨h', .cons hid hx hreloaded hreports (hall.later hback)⟩

/-! ## All of it -/

/-- Why a content can not be loaded: the check for emptiness fails or, if the content is not empty, it
can not be parsed. -/
def Fails (content : String) (err : EngineError) : Prop :=
  isEmptyContent content = .error err ∨
    isEmptyContent content = .ok false ∧ Graph.parse content = .error err

theorem contentGraph?_of_empty {content : String} (h : isEmptyContent content = .ok true) :
    contentGraph? content = .ok none := by
  unfold contentGraph?
  rw [h]
  rfl

theorem contentGraph?_of_parse {content : String} {graph : Graph}
    (h : isEmptyContent content = .ok false) (hgraph : Graph.parse content = .ok graph) :
    contentGraph? content = .ok (some graph) := by
  unfold contentGraph?
  rw [h, hgraph]
  rfl

theorem contentGraph?_of_fails {content : String} {err : EngineError} (h : Fails content err) :
    contentGraph? content = .error err := by
  unfold contentGraph?
  rcases h with h | ⟨h, hgraph⟩
  · rw [h]
    rfl
  · rw [h, hgraph]
    rfl

theorem not_empty_of_contentGraph? {content : String} {graph : Graph}
    (h : contentGraph? content = .ok (some graph)) : isEmptyContent content = .ok false := by
  unfold contentGraph? at h
  cases hempty : isEmptyContent content with
  | error err => rw [hempty] at h; cases h
  | ok empty =>
    cases empty with
    | true => rw [hempty] at h; cases h
    | false => rfl

/-- What a stored tab has become: it is unloaded if its content is empty, runs the graph of its
content in a generation that takes tasks, or is stopped with the error. -/
structure Becomes (s : TabSource) (w : World) (y : TabEntry) : Prop where
  name : y.name = s.name.getD s.id
  content : y.content = s.content
  unloaded : isEmptyContent s.content = .ok true → y.status = .unloaded ∧ y.generation = none
  running : ∀ graph, isEmptyContent s.content = .ok false → Graph.parse s.content = .ok graph →
    y.status = .running ∧ ∃ g, y.generation = some g ∧ g.graph = graph ∧ g.tab = s.id ∧
      w.isDestroyed g.number = false
  stopped : ∀ err, Fails s.content err →
    y.status = .stopped (some err.message) ∧ y.generation = none

/-- Whether a tab is stopped. -/
def isStopped : TabStatus → Bool
  | .stopped _ => true
  | _ => false

/-- What it comes to when all stored tabs are loaded, in steps `ss`. Each becomes what its own content
makes of it, the general tab is there, and no other entry is touched. Nothing comes to a tab that
does not run, and nothing is left of it if it was attended. Each failure is told once, in order; only
variables of graphs that run are declared; and those tabs are counted that are not stopped. -/
structure LoadedAll (e : Engine) (sources : List TabSource) (w₀ : World) (n : Nat)
    (ss : List (World × World)) (w : World) : Prop where
  general : (w.tab? e.generalTab).isSome = true
  becomes : ∀ s ∈ sources, ∃ y, w.tab? s.id = some y ∧ Becomes s w y ∧
    (y.status ≠ .running →
      w₀.view.NothingNew s.id w.view ∧ (w₀.Attended s.id → w.Cleared s.id))
  made : ∀ id ∈ (takeIn e sources w₀).1, id ∉ sources.map (·.id) →
    id = e.generalTab ∧ w₀.tab? id = none ∧ w.tab? id = some (.new id "")
  others : ∀ id, id ∉ (takeIn e sources w₀).1 → w.tab? id = w₀.tab? id
  failures : loadFailures ss = sources.filterMap fun s =>
    loadFailure? s.id (s.name.getD s.id) s.content
  declares : ∀ s ∈ ss, s.2.vars = s.1.vars ∨ ∃ x ∈ sources, ∃ graph,
    isEmptyContent x.content = .ok false ∧ Graph.parse x.content = .ok graph ∧
      s.2.vars = graph.declaredVariables.foldl
        (fun vs (id, name, initial) => vs.declare id name initial) s.1.vars
  count : n = (takeIn e sources w₀).1.countP fun id =>
    (w.tab? id).any fun y => !isStopped y.status

theorem Settles.becomes {s : TabSource} (h : Settles s.id x y) (hname : x.name = s.name.getD s.id)
    (hcontent : x.content = s.content) (halive : ∀ g, y.generation = some g →
      w.isDestroyed g.number = false) : Becomes s w y := by
  have hname' : y.name = x.name := by cases h <;> rfl
  have hcontent' : y.content = x.content := by cases h <;> rfl
  refine ⟨hname'.trans hname, hcontent'.trans hcontent, fun hempty => ?_,
    fun graph hfull hgraph => ?_, fun err hfails => ?_⟩
  · have hgraph? := contentGraph?_of_empty hempty
    rw [← hcontent] at hgraph?
    cases h with
    | unloaded => exact ⟨rfl, rfl⟩
    | running h | stopped h => cases h.symm.trans hgraph?
  · have hgraph? := contentGraph?_of_parse hfull hgraph
    rw [← hcontent] at hgraph?
    cases h with
    | @running g h htab =>
      cases h.symm.trans hgraph?
      exact ⟨rfl, g, rfl, rfl, htab, halive g rfl⟩
    | unloaded h | stopped h => cases h.symm.trans hgraph?
  · have hgraph? := contentGraph?_of_fails hfails
    rw [← hcontent] at hgraph?
    cases h with
    | stopped h =>
      cases h.symm.trans hgraph?
      exact ⟨rfl, rfl⟩
    | unloaded h | running h => cases h.symm.trans hgraph?

theorem Settles.not_running (h : Settles id x y) (hy : y.status ≠ .running) (graph : Graph) :
    contentGraph? x.content ≠ .ok (some graph) := by
  intro hgraph
  cases h with
  | running => exact hy rfl
  | unloaded h | stopped h => cases h.symm.trans hgraph

theorem Settles.isOk (h : Settles id x y) : (contentGraph? x.content).isOk = !isStopped y.status := by
  cases h with
  | unloaded h | running h | stopped h => rw [h]; rfl

/-! ### The first step -/

theorem ids_takeIn (h : ∀ id, w'.tab? id = w.tab? id) :
    (takeIn e sources w').1 = (takeIn e sources w).1 := by
  unfold takeIn
  simp only [h]

theorem silent_takeIn (sources : List TabSource) (w : World) :
    w.Silent (takeIn e sources w).2 := by
  have hput : ∀ (w : World) (id name : String) (f : TabEntry → TabEntry),
      w.Silent (w.putTab id name f) := fun _ _ _ _ => ⟨rfl, rfl⟩
  exact (World.Silent.foldl (fun w id => hput w id id _) _ w).trans
    (.foldl (fun w s => hput w s.id s.id _) sources _)

theorem aside_takeIn (sources : List TabSource) (w : World) (k : String) :
    w.view.Aside k (takeIn e sources w).2.view := by
  obtain ⟨hstores, hview⟩ := takeIn_spec (e := e) sources w
  rw [hview]
  exact .tabs ((View.Calm.put hstores).recorded k)

theorem brings_takeIn (he : e.Orderly) (sources : List TabSource) (w₀ : World) :
    Brings e c (w₀.Background c) (Execution.atomically (takeIn e sources)) fun ids ss w =>
      ∃ w₁, w₀.Background c w₁ ∧ ids = (takeIn e sources w₁).1 ∧
        w₁.view ≤ (takeIn e sources w₁).2.view ∧ (takeIn e sources w₁).2.Background c w ∧
          ss = [(w₁, (takeIn e sources w₁).2)] := by
  refine .atomically he (fun _ _ hback h => h.trans hback) (fun ids ss w w' hback h => ?_)
    fun w _ hw hle => ⟨w, hw, rfl, hle, .refl _, rfl⟩
  obtain ⟨w₁, hw₁, hids, hle, hlater, hss⟩ := h
  exact ⟨w₁, hw₁, hids, hle, hlater.trans hback, hss⟩

theorem TakenIn.mem (h : TakenIn e sources w₀ ids w) {s : TabSource} (hs : s ∈ sources) :
    s.id ∈ ids := by
  obtain ⟨general, rfl, -⟩ := h.eq
  exact List.mem_append_right _ (List.mem_map_of_mem hs)

theorem TakenIn.there (h : TakenIn e sources w₀ ids w) : ∀ id ∈ ids, ∃ x, w.tab? id = some x := by
  obtain ⟨general, rfl, hgeneral⟩ := h.eq
  intro id hid
  rcases List.mem_append.1 hid with hid | hid
  · exact ⟨_, (hgeneral id hid).2.2.2⟩
  · obtain ⟨s, hs, rfl⟩ := List.mem_map.1 hid
    exact ⟨_, h.stored s hs⟩

theorem isEmptyContent_nil : isEmptyContent "" = .ok true := by decide +kernel

/-- Only stored tabs can fail: a general tab that has been made is empty. -/
theorem TakenIn.failures (h : TakenIn e sources w₀ ids w) :
    (ids.filterMap fun id => (w.tab? id).bind fun x => loadFailure? id x.name x.content) =
      sources.filterMap fun s => loadFailure? s.id (s.name.getD s.id) s.content := by
  obtain ⟨general, rfl, hgeneral⟩ := h.eq
  have hmade : general.filterMap (fun id => (w.tab? id).bind fun x =>
      loadFailure? id x.name x.content) = [] := List.filterMap_eq_nil_iff.2 fun id hid => by
    rw [(hgeneral id hid).2.2.2, Option.bind_some]
    unfold loadFailure?
    rw [show (TabEntry.new id "").content = "" from rfl, contentGraph?_of_empty isEmptyContent_nil]
  rw [List.filterMap_append, hmade, List.nil_append, List.filterMap_map]
  exact List.filterMap_congr fun s hs => by
    rw [Function.comp_apply, h.stored s hs]
    rfl

end Supervisor

open Supervisor in
/-- A call that loads stored tabs with different ids and has come to its end, while no other caller
performed a step and tasks went on. -/
theorem Run.loads_all (he : e.HasCore) {capacity : Nat} (hreached : Run e (.start capacity) log₀ m)
    (hcaller : m.world.IsCaller c) {k : Nat → Execution Unit}
    (hthread : m.threads[c]? = some ((Supervisor.loadAll e sources).bind k))
    (hrun : Run e m log m') (hkept : ∀ w, Deed.dropped c w ∉ log) (halone : Deed.ByCaller c log)
    (hdone : e.replay c (Supervisor.loadAll e sources) (Deed.statesOf c log) = some (.done n))
    (hnodup : (sources.map (·.id)).Nodup) :
    Supervisor.LoadedAll e sources m.world n (Deed.transitions e c log) m'.world := by
  have horderly := Engine.orderly_of_core he
  obtain ⟨φ, ψ, hc⟩ := Conducted.run horderly hreached
  have hcourse : Course e c k m' m ((Execution.atomically (takeIn e sources)).bind (reloadAll e))
      log n := hrun.course horderly hc hthread hkept hdone
  have h₀ : Reached e c m := ⟨⟨capacity, log₀, hreached⟩, hcaller⟩
  obtain ⟨m₁, log₁, log₂, ids, rfl, htake, hreload⟩ := hcourse.of_bind
  obtain ⟨h₁, w₁, hback₁, hids, hle, hback₂, hsteps⟩ :=
    brings_takeIn horderly sources m.world _ m log₁ m₁ ids h₀ (.refl _) halone.left htake
  have htaken : TakenIn e sources m.world ids m₁.world :=
    (hids ▸ takenIn e w₁ hnodup).congr hback₁.tab? hback₂.tab?
  rw [ids_takeIn hback₁.tab?] at hids
  have hle₁ : m.world.view ≤ m₁.world.view :=
    View.le_trans hback₁.beside.le (View.le_trans hle hback₂.beside.le)
  have haside : ∀ k, m.world.view.Aside k m₁.world.view := fun k =>
    (View.Aside.of_beside hback₁.beside).trans hback₁.beside.le (View.le_trans hle hback₂.beside.le)
      ((aside_takeIn sources w₁ k).trans hle hback₂.beside.le (.of_beside hback₂.beside))
  obtain ⟨h', hall⟩ := reloadedAll he htaken.nodup h₁ htaken.there halone.right hreload
  obtain ⟨log', φ', ψ', hc'⟩ := h'.conducted horderly
  rw [Deed.transitions_append, hsteps]
  refine {
    general := ?_
    becomes := fun s hs => ?_
    made := fun id hid hnot => ?_
    others := fun id hid => ?_
    failures := ?_
    declares := fun s hs => ?_
    count := ?_ }
  · by_cases hmem : e.generalTab ∈ ids
    · obtain ⟨x, hx⟩ := htaken.there _ hmem
      obtain ⟨y, hy, -⟩ := hall.each _ hmem x hx
      exact Option.isSome_iff_exists.2 ⟨y, hy⟩
    · rw [hall.entries _ hmem]
      exact htaken.general
  · have hmem := htaken.mem hs
    obtain ⟨y, hy, hsettles⟩ := hall.each _ hmem _ (htaken.stored s hs)
    refine ⟨y, hy, hsettles.becomes rfl rfl fun g hg => hc'.supervised.alive g.number
      ⟨s.id, y, g, hy, hg, rfl⟩, fun hstatus => ?_⟩
    obtain ⟨hnothing, hbare⟩ := hall.vacant _ hmem _ (htaken.stored s hs)
      (hsettles.not_running hstatus)
    refine ⟨(haside s.id).toNothingNew.trans hle₁ hall.le hnothing, fun hattended => ?_⟩
    have hsole : m.world.view.Sole s.id := hattended.holding h₀ horderly
    exact World.cleared_of_bare (hbare (hsole.aside (haside s.id) hle₁)) (h'.sound horderly)
  · rw [← hids] at hid
    obtain ⟨general, heq, hgeneral⟩ := htaken.eq
    rw [heq] at hid
    obtain ⟨rfl, -, hnone, hnew⟩ := hgeneral id ((List.mem_append.1 hid).resolve_right hnot)
    obtain ⟨y, hy, hsettles⟩ := hall.each _ (heq ▸ hid) _ hnew
    have hempty : contentGraph? (TabEntry.new e.generalTab "").content = .ok none :=
      contentGraph?_of_empty isEmptyContent_nil
    refine ⟨rfl, hnone, hy.trans (congrArg some ?_)⟩
    cases hsettles with
    | unloaded => rfl
    | running h | stopped h => cases h.symm.trans hempty
  · rw [← hids] at hid
    exact (hall.entries id hid).trans (htaken.others id hid)
  · rw [loadFailures_append, hall.failures, htaken.failures]
    have hmute := (silent_takeIn (e := e) sources w₁).mute
    simp [loadFailures, hmute.untold]
  · rcases List.mem_append.1 hs with hs | hs
    · obtain rfl := List.mem_singleton.1 hs
      exact .inl (silent_takeIn sources w₁).vars
    · rcases hall.alters s hs with hsame | ⟨id, hid, x, hx, hsame | ⟨graph, hgraph, hvars⟩⟩
      · exact .inl hsame
      · exact .inl hsame
      · have hfull := not_empty_of_contentGraph? hgraph
        obtain ⟨general, heq, hgeneral⟩ := htaken.eq
        rw [heq] at hid
        rcases List.mem_append.1 hid with hid | hid
        · obtain rfl := Option.some.inj (hx.symm.trans (hgeneral id hid).2.2.2)
          cases hfull.symm.trans isEmptyContent_nil
        · obtain ⟨x', hx', rfl⟩ := List.mem_map.1 hid
          obtain rfl := Option.some.inj (hx.symm.trans (htaken.stored x' hx'))
          exact .inr ⟨x', hx', graph, hfull, parse_of_contentGraph? hgraph, hvars⟩
  · rw [hall.count, ← hids]
    refine List.countP_congr fun id hid => ?_
    obtain ⟨x, hx⟩ := htaken.there id hid
    obtain ⟨y, hy, hsettles⟩ := hall.each id hid x hx
    rw [hx, hy, Option.any_some, Option.any_some, hsettles.isOk]

/-! ## Three stored tabs -/

namespace Script

/-- A tab that listens and waits, one whose content can not be read, and one without content. -/
def stored : List TabSource :=
  [⟨"a", none, listening⟩, ⟨"b", some "B", "\x7b"⟩, ⟨"c", none, ""⟩]

/-- The machine when the host has asked for stored tabs to be loaded. -/
def loading (sources : List TabSource) : Machine :=
  ⟨World.start 10, (Machine.start 10).threads.insert World.host
    ((Call.loadAll sources).execution engine)⟩

/-- Whether one caller has acted alone and has not dropped its call. -/
def isAlone (c : TaskId) (log : List Deed) : Bool :=
  log.all fun
    | .performed t _ w => decide (t = c) || (w.task? t).all (·.job.isSome)
    | .dropped .. => false

theorem alone_of_isAlone (h : isAlone c log = true) :
    Deed.ByCaller c log ∧ ∀ w, Deed.dropped c w ∉ log := by
  refine ⟨fun t p w hmem hcaller => ?_, fun w hmem => ?_⟩
  · obtain ⟨r, hr, hj⟩ := hcaller
    have ht := List.all_eq_true.1 h _ hmem
    simpa [hr, hj] using ht
  · exact absurd (List.all_eq_true.1 h _ hmem) nofun

/-- Whether the host has loaded the stored tabs alone, and so many are not stopped. -/
def isLoaded (sources : List TabSource) (n : Nat) (log : List Deed) : Bool :=
  isAlone World.host log &&
    match engine.replay World.host (Supervisor.loadAll engine sources)
        (Deed.statesOf World.host log) with
    | some (.done k) => decide (k = n)
    | _ => false

theorem replay_of_isLoaded {sources : List TabSource} {n : Nat} (h : isLoaded sources n log = true) :
    engine.replay World.host (Supervisor.loadAll engine sources) (Deed.statesOf World.host log) =
      some (.done n) := by
  have h := (Bool.and_eq_true_iff.1 h).2
  split at h
  · next hreplay => rw [hreplay, of_decide_eq_true h]
  · cases h

theorem run_loading (sources : List TabSource) :
    Run engine (.start 10) [] (loading sources) :=
  .single (.call (.loadAll sources) (Machine.isCaller_of_isCaller (m := .start 10) (by decide +kernel))
    (by simp [Machine.start]))

end Script

/-- Three stored tabs are loaded, and one more is made: only the one whose content can not be read is
stopped, and told of. -/
theorem loads_all_of_three_tabs : ∃ (log : List Deed) (m' : Machine),
    Supervisor.LoadedAll Script.engine Script.stored (World.start 10) 3
      (Deed.transitions Script.engine World.host log) m'.world ∧
    loadFailures (Deed.transitions Script.engine World.host log) =
      [(some "b", "Unable to load tab 'B': malformed block graph: <json>")] := by
  obtain ⟨log, m', hrun, hf⟩ := Run.of_playAll_any (e := Script.engine)
    (m := Script.loading Script.stored)
    [.perform 0 100, .begin 1, .perform 1 100, .finish 1, .perform 0 100]
    (f := fun log _ => Script.isLoaded Script.stored 3 log &&
      decide (loadFailures (Deed.transitions Script.engine World.host log) =
        [(some "b", "Unable to load tab 'B': malformed block graph: <json>")])) (by decide +kernel)
  obtain ⟨hloaded, htold⟩ := Bool.and_eq_true_iff.1 hf
  obtain ⟨halone, hkept⟩ := Script.alone_of_isAlone (Bool.and_eq_true_iff.1 hloaded).1
  exact ⟨log, m', Run.loads_all (e := Script.engine) rfl (Script.run_loading _)
    (Machine.isCaller_of_isCaller (by decide +kernel)) ((threads_insert ..).trans (if_pos rfl)) hrun
    hkept halone (Script.replay_of_isLoaded hloaded) (by decide), of_decide_eq_true htold⟩

namespace Script

/-- A content with a graph, next to which a number is too large to be read. -/
def overflowing : String :=
  "\x7b\"x\":1e999,\"target\":\x7b\"blocks\":\x7b" ++
    block "a" "debug_print" "\"topLevel\":true" ++ "\x7d\x7d\x7d"

end Script

/-- A content that is not empty and can be parsed does not run if the check for emptiness fails. -/
theorem stopped_of_parsed_content : ∃ (log : List Deed) (m' : Machine) (n : Nat),
    Run Script.engine (Script.loading [⟨"t", none, Script.overflowing⟩]) log m' ∧
    Script.engine.replay World.host
      (Supervisor.loadAll Script.engine [⟨"t", none, Script.overflowing⟩])
      (Deed.statesOf World.host log) = some (.done n) ∧
    isEmptyContent Script.overflowing ≠ .ok true ∧
    (∃ graph, Graph.parse Script.overflowing = .ok graph) ∧
    ∃ y, m'.world.tab? "t" = some y ∧ Supervisor.isStopped y.status = true := by
  obtain ⟨log, m', hrun, hf⟩ := Run.of_playAll_any (e := Script.engine)
    (m := Script.loading [⟨"t", none, Script.overflowing⟩]) [.perform 0 100]
    (f := fun log m => Script.isLoaded [⟨"t", none, Script.overflowing⟩] 1 log &&
      (!(isEmptyContent Script.overflowing).isOk && (Graph.parse Script.overflowing).isOk &&
        (m.world.tab? "t").any fun y => Supervisor.isStopped y.status)) (by decide +kernel)
  simp only [Bool.and_eq_true] at hf
  obtain ⟨hloaded, ⟨hunread, hparsed⟩, hstopped⟩ := hf
  refine ⟨log, m', 1, hrun, Script.replay_of_isLoaded hloaded, fun h => ?_, ?_,
    (Option.any_eq_true _ _).1 hstopped⟩
  · rw [h] at hunread
    cases hunread
  · cases hgraph : Graph.parse Script.overflowing with
    | ok graph => exact ⟨graph, rfl⟩
    | error err =>
      rw [hgraph] at hparsed
      cases hparsed

end BlockEngine
