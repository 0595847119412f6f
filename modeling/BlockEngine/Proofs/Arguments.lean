import BlockEngine.Proofs.Moves
import BlockEngine.Proofs.Script

/-!
# Arguments of overlapping calls

All runs of a body keep their arguments on the one block of the definition.

* `View.KeepsNamed` : a step that loses no named value but those under reserved names;
* `Passage.named?`, `Conducted.named?_run` : an argument stays until a body stores one of its name;
* `Site.ReadsFrom` : a reporter that reads an argument of a definition;
* `Run.argument_kept` : it reports what the last run of the body that stored the argument was passed.
-/

namespace BlockEngine

variable {e : Engine} {t u : TaskId} {γ γ' : Stage} {σ σ' : Stance} {v v' v'' : View}
  {φ φ' : TaskId → Stage} {ψ ψ' : TaskId → Stance} {log log₁ log₂ ds : List Deed} {m m' : Machine}
  {n : Nat} {block key : String} {x : Json}

/-! ## Named values in a view -/

/-- The named value a generation holds on a block. -/
def View.named? (v : View) (n : Nat) (block key : String) : Option Json :=
  (v.generation? n).bind (·.value? block key)

theorem World.ownValue?_eq (w : World) (n : Nat) (block key : String) :
    w.ownValue? n block key = w.view.named? n block key := rfl

theorem View.named?_store (v : View) {n' : Nat} (h : ∃ s, v.generation? n' = some s)
    (block' key' : String) (x : Json) (n : Nat) (block key : String) :
    (v.modifyGeneration n' (·.store block' key' x)).named? n block key =
      if n = n' ∧ block = block' ∧ key = key' then some x else v.named? n block key := by
  obtain ⟨s, hs⟩ := h
  unfold named?
  rw [generation?_modifyGeneration]
  by_cases hn : n = n'
  · subst hn
    rw [if_pos rfl, hs, Option.map_some, Option.bind_some, Option.bind_some,
      GenerationState.value?_store]
    simp
  · rw [if_neg hn, if_neg fun h => hn h.1]

/-- No generation and no named value is lost or changed, but for values under reserved names. -/
structure View.KeepsNamed (v v' : View) : Prop where
  generation : ∀ n s, v.generation? n = some s → ∃ s', v'.generation? n = some s' ∧
    ∀ block key, ¬ IsReserved key → s'.value? block key = s.value? block key

namespace View.KeepsNamed

theorem of_generations (h : v'.generations = v.generations) : v.KeepsNamed v' :=
  ⟨fun n s hs => ⟨s, by unfold generation? at hs ⊢; rwa [h], fun _ _ _ => rfl⟩⟩

theorem modifyGeneration (h : v.KeepsNamed v') (n : Nat)
    {f : GenerationState → GenerationState} (hf : KeepsNames f) :
    v.KeepsNamed (v'.modifyGeneration n f) := by
  refine ⟨fun k s hs => ?_⟩
  obtain ⟨s', hs', hkeep⟩ := h.generation k s hs
  rw [generation?_modifyGeneration]
  split
  · next hk =>
    subst hk
    exact ⟨f s', by rw [hs']; rfl, fun b a ha => (hf s' b a ha).trans (hkeep b a ha)⟩
  · exact ⟨s', hs', hkeep⟩

theorem cancelAll (h : v.KeepsNamed v') (ts : List TaskId) :
    v.KeepsNamed (ts.foldl View.cancel v') := by
  refine ⟨fun k s hs => ?_⟩
  unfold View.generation?
  rw [(cancelAll_spec v' ts).1]
  exact h.generation k s hs

theorem spawn (v : View) {i n : Nat} {d : String} {c : Context} {j : Job} :
    v.KeepsNamed ({ v with issued := i }.spawn n d c j) := by
  unfold View.spawn
  split
  · exact of_generations rfl
  · have hadd : v.KeepsNamed (View.addTask { v with issued := i } (some j)) := of_generations rfl
    exact hadd.modifyGeneration n fun _ _ _ _ => rfl

theorem modifyTab (v : View) (id : String) (f : TabEntry → TabEntry) :
    v.KeepsNamed (v.modifyTab id f) := by
  unfold View.modifyTab
  split <;> exact of_generations rfl

theorem named? (h : v.KeepsNamed v') (hkey : ¬ IsReserved key)
    (hx : v.named? n block key = some x) : v'.named? n block key = some x := by
  obtain ⟨s, hs, hv⟩ := Option.bind_eq_some_iff.1 hx
  obtain ⟨s', hs', hkeep⟩ := h.generation n s hs
  exact Option.bind_eq_some_iff.2 ⟨s', hs', (hkeep block key hkey).trans hv⟩

end View.KeepsNamed

/-! ## Steps -/

theorem Effect.keepsNamed (h : Effect e t γ v γ' v') (hv : v.Sound e) : v.KeepsNamed v' := by
  have hrefl : v.KeepsNamed v := .of_generations rfl
  cases h with
  | touch _ hf => exact hrefl.modifyGeneration _ hf
  | listen | unlisten =>
    refine .modifyGeneration ?_ _ fun _ _ _ _ => rfl
    exact .of_generations rfl
  | spawn => exact .spawn v
  | cancel => exact hrefl.cancelAll _
  | abort => exact hrefl.cancelAll [_]
  | @destroy _ n _ =>
    exact hrefl.modifyGeneration n (f := fun s => { s with tracked := [], destroyed := true })
      fun _ _ _ _ => rfl
  | mark | install => exact .modifyTab ..
  | renew =>
    refine ⟨fun n s hs => ⟨s, ?_, fun _ _ _ => rfl⟩⟩
    unfold View.generation?
    rw [View.get?_generations_insert, if_neg (Nat.ne_of_lt (hv.generationsNumbered n s hs))]
    exact hs
  | _ => exact .of_generations rfl

theorem Talk.keepsNamed (h : Talk e σ v σ' v') : v.KeepsNamed v' := by
  cases h with
  | startBody => exact .spawn v
  | _ => exact .of_generations rfl

theorem Change.keepsNamed (h : Change e t γ σ v γ' σ' v') (hv : v.Sound e) :
    v.KeepsNamed v' := by
  cases h with
  | effect h => exact h.keepsNamed hv
  | talk h => exact h.keepsNamed

/-- A named value stays, unless a body stores an argument in its place. -/
theorem Passage.named? (hp : Passage e log m φ ψ ds v' φ' ψ') (hv : m.world.view.Sound e)
    (hkey : ¬ IsReserved key) (hx : m.world.view.named? n block key = some x) :
    v'.named? n block key = some x ∨
      ∃ t p y arguments request returns a, ∃ s : Site, ds = [.performed t p m.world] ∧
        m.world.view.tasks t = some y ∧ y.job = some (.body s arguments request returns) ∧
        (Unreserved arguments → arguments[(Deed.statesOf t log).length]? = some a) ∧
        key = a.2 ∧ p.Stores n block key (requested request a.1) := by
  cases hp with
  | change _ _ _ hchange => exact .inl ((hchange.keepsNamed hv).named? hkey hx)
  | reply => exact .inl ((View.KeepsNamed.of_generations rfl).named? hkey hx)
  | depart _ _ _ hsettles | still hsettles =>
    exact .inl ((View.KeepsNamed.of_generations hsettles.generations).named? hkey hx)
  | @store t p y s arguments request returns a _ hy hj _ _ _ hplace hstores =>
    by_cases hsame : n = s.generation.number ∧ block = s.id ∧ key = a.2
    · obtain ⟨rfl, rfl, rfl⟩ := hsame
      exact .inr ⟨t, p, y, arguments, request, returns, a, s, rfl, hy, hj, hplace, rfl, hstores⟩
    · obtain ⟨hknown, -⟩ := hv.jobs t y _ hy hj
      obtain ⟨g, hg, -⟩ := hknown
      rw [View.named?_store _ ⟨g, hg⟩, if_neg hsame]
      exact .inl hx

/-- An argument stays while no other task stores one in its place. -/
theorem Conducted.named?_run (he : e.Orderly) (hc : Conducted e log m φ ψ)
    (hrun : Run e m log₂ m') {s : Standing} {b : Site} {arguments : List (String × String)}
    {request : Json} {returns : LockId} (hs : m.world.view.tasks t = some s)
    (hj : s.job = some (.body b arguments request returns)) (hunreserved : Unreserved arguments)
    (hnames : (arguments.map Prod.snd).Nodup) {i : Nat} {id : String}
    (hi : arguments[i]? = some (id, key)) (hlt : i < (Deed.statesOf t log).length)
    (hx : m.world.view.named? n block key = some x)
    (hothers : ∀ u p w, Deed.performed u p w ∈ log₂ → u ≠ t → ∀ y, ¬ p.Stores n block key y) :
    m'.world.view.named? n block key = some x := by
  have hkey : ¬ IsReserved key := hunreserved (id, key) (List.mem_of_getElem? hi)
  induction hrun with
  | refl => exact hx
  | @move log₀ ds m₁ m₂ hrun hmove ih =>
    have hx₁ := ih fun u p w hd => hothers u p w (List.mem_append_left _ hd)
    obtain ⟨φ₁, ψ₁, hc₁, hle⟩ := hc.extend he hrun
    obtain ⟨φ₂, ψ₂, hp, -⟩ := hc₁.move he hmove
    rcases hp.named? hc₁.sound hkey hx₁ with hx₂ |
      ⟨u, p, y, arguments', request', returns', a, b', rfl, hy, hj', hplace, hka, hstores⟩
    · exact hx₂
    · by_cases hu : u = t
      · -- The task itself has stored this argument and comes to each of them once.
        subst hu
        obtain ⟨y', hy', hjob, -⟩ := hle.task u s hs
        obtain rfl := Option.some.inj (hy.symm.trans hy')
        rw [hjob, hj] at hj'
        cases hj'
        have ha := hplace hunreserved
        have hlater : i < (Deed.statesOf u (log ++ log₀)).length := by
          rw [Deed.statesOf_append, List.length_append]
          exact Nat.lt_add_right _ hlt
        have hget : ∀ {j : Nat} {a : String × String}, arguments[j]? = some a →
            (arguments.map Prod.snd)[j]? = some a.2 := fun h => by rw [List.getElem?_map, h]; rfl
        have hsame := (List.getElem?_inj (List.getElem?_eq_some_iff.1 (hget hi)).1 hnames).1
          ((hget hi).trans (hka ▸ (hget ha).symm))
        exact absurd hsame (Nat.ne_of_lt hlater)
      · exact absurd hstores (hothers u p _ (List.mem_append_right _ List.mem_cons_self) hu _)

/-! ## Reporters -/

/-- The blocks met going from parent to parent, no more than `fuel`. -/
def Graph.upwards (g : Graph) : Nat → Option Block → List Block
  | 0, _ => []
  | _, none => []
  | fuel + 1, some b => b :: g.upwards fuel (b.parent.bind g.get?)

/-- A block and the blocks around it, from the inside out. -/
def Graph.around (g : Graph) (id : String) : List Block := g.upwards (g.size + 1) (g.get? id)

theorem World.valueFrom?_eq (w : World) (g : Generation) (key : String) (fuel : Nat)
    (b : Option Block) : w.valueFrom? g key fuel b =
      (g.graph.upwards fuel b).findSome? fun c => w.ownValue? g.number c.id key := by
  induction fuel generalizing b with
  | zero => rfl
  | succ fuel ih =>
    cases b with
    | none => rfl
    | some b =>
      rw [World.valueFrom?, Graph.upwards, List.findSome?_cons]
      cases w.ownValue? g.number b.id key with
      | none => exact ih _
      | some y => rfl

/-- The first block around a block that holds a value under a name. -/
def World.holderOf? (w : World) (g : Generation) (block key : String) : Option Block :=
  (g.graph.around block).find? fun c => (w.ownValue? g.number c.id key).isSome

theorem World.value?_of_holderOf? {w : World} {g : Generation} {c : Block}
    (h : w.holderOf? g block key = some c) :
    w.value? g block key = w.ownValue? g.number c.id key := by
  change w.valueFrom? g key _ _ = _
  rw [valueFrom?_eq]
  change (g.graph.around block).findSome? _ = _
  unfold holderOf? at h
  generalize g.graph.around block = bs at h ⊢
  induction bs with
  | nil => cases h
  | cons b bs ih =>
    rw [List.find?_cons] at h
    rw [List.findSome?_cons]
    cases hv : w.ownValue? g.number b.id key with
    | some y =>
      rw [hv] at h
      obtain rfl := Option.some.inj h
      exact hv.symm
    | none =>
      rw [hv] at h
      exact ih h

/-- A reporter in the body of a definition that reads its argument of a name: of the blocks around
the reporter, the definition is the first one that holds a value under the name. -/
structure Site.ReadsFrom (r d : Site) (name : String) (w : World) : Prop where
  generation : r.generation = d.generation
  block : r.generation.graph.get? r.id = some r.block
  field : r.block.field "VALUE" = name
  holder : (w.holderOf? r.generation r.id name).map Block.id = some d.id

theorem Site.ReadsFrom.value? {r d : Site} {name : String} {w : World}
    (h : r.ReadsFrom d name w) :
    w.value? r.generation r.id (r.block.field "VALUE") =
      w.ownValue? d.generation.number d.id name := by
  obtain ⟨c, hc, hid⟩ := Option.map_eq_some_iff.1 h.holder
  rw [h.field, World.value?_of_holderOf? hc, hid, h.generation]

theorem Engine.replay_readArgument (e : Engine) (u : TaskId) (env : Environment) (r : Site)
    (w : World) : e.replay u (ExceptT.run (Library.readArgument env r)) [w] =
      some (.done (.ok ((w.value? r.generation r.id (r.block.field "VALUE")).getD .null))) := rfl

theorem Engine.replay_readArgumentTruth (e : Engine) (u : TaskId) (env : Environment) (r : Site)
    (w : World) : e.replay u (ExceptT.run (Library.readArgumentTruth env r)) [w] =
      some (.done (.ok (.bool
        (((w.value? r.generation r.id (r.block.field "VALUE")).map Json.toBool).getD false)))) :=
  rfl

/-! ## Arguments of calls -/

theorem requested_request (callId id : String) (passed : Keyed Json) :
    requested (Library.request callId passed) id = (Keyed.get? id passed).getD .null := by
  unfold requested Library.request Json.object Keyed.ofList
  simp only [List.foldl, Json.get?, Keyed.get?_insert, if_pos, Option.bind_some]

/-- A task of a body stores its arguments before anything else, one in a step. -/
theorem Carries.stores {ws : List World} {p : Execution Unit} {b : Site}
    {arguments : List (String × String)} {request : Json} {returns : LockId}
    (h : Carries e t ws v (some (.body b arguments request returns)) γ σ p)
    (hp : p ≠ .done ()) (hunreserved : Unreserved arguments) {a : String × String}
    (ha : arguments[ws.length]? = some a) :
    p.Stores b.generation.number b.id a.2 (requested request a.1) := by
  cases h with
  | plain hb => exact absurd (hb _ rfl) (by simp [Job.isBody])
  | replied => exact absurd rfl hp
  | body _ _ hlength =>
    exact absurd (List.getElem?_eq_some_iff.1 ha).1 (Nat.not_lt.2 (hlength hunreserved))
  | @keeping _ _ kept rest _ _ _ _ _ q hargs _ _ _ hkept =>
    obtain ⟨rfl, hlength⟩ := hkept hunreserved
    rw [hargs, ← hlength, List.getElem?_append_right (Nat.le_refl _), Nat.sub_self] at ha
    cases rest with
    | nil => cases ha
    | cons a' rest =>
      obtain rfl := Option.some.inj ha
      have ha : ¬ IsReserved a'.2 := hunreserved a' (hargs ▸ by simp)
      rw [Engine.bodyLeft_cons, Engine.keep_of_unreserved ha]
      exact ⟨_, rfl⟩

/-- After that step the generation holds what the request passes. -/
theorem Conducted.named?_of_store (hc : Conducted e log m φ ψ) {p : Execution Unit} {w : World}
    (hmove : Move e m [.performed t p w] m') {s : Standing} {b : Site}
    {arguments : List (String × String)} {request : Json} {returns : LockId}
    (hs : m.world.view.tasks t = some s)
    (hj : s.job = some (.body b arguments request returns)) (hunreserved : Unreserved arguments)
    {a : String × String} (ha : arguments[(Deed.statesOf t log).length]? = some a) :
    m'.world.view.named? b.generation.number b.id a.2 = some (requested request a.1) := by
  cases hmove with
  | @perform _ _ q w' hp hstep =>
    obtain ⟨s', hs', -, -, hcarries⟩ := (hc.task t).carries p hp
    obtain rfl := Option.some.inj (hs.symm.trans hs')
    rw [hj] at hcarries
    have hdone : p ≠ .done () := fun h => by
      rw [h] at hstep
      cases hstep
    obtain ⟨k, rfl⟩ := hcarries.stores hdone hunreserved ha
    obtain ⟨rfl, rfl⟩ := Prod.mk.inj (Option.some.inj hstep)
    obtain ⟨⟨g, hg, -⟩, -⟩ := hc.sound.jobs t s _ hs hj
    change (m.world.storeValue _ _ _ _).view.named? _ _ _ = _
    rw [World.view_storeValue, View.named?_store _ ⟨g, hg⟩, if_pos ⟨rfl, rfl, rfl⟩]

/-- A reporter of an argument reports what the body was passed, whoever goes on meanwhile, from the
step on in which the body stored the argument until another run of the body stores its own. -/
theorem Run.argument_kept (he : e.HasCore) {capacity : Nat} {p : Execution Unit} {w : World}
    (hrun : Run e (.start capacity) (log₁ ++ .performed t p w :: log₂) m)
    {b : Site} {arguments : List (String × String)} {callId : String} {passed : Keyed Json}
    {returns : LockId} {s : TaskRecord} (hs : m.world.task? t = some s)
    (hj : s.job = some (.body b arguments (Library.request callId passed) returns))
    (hnames : (arguments.map Prod.snd).Nodup) (hunreserved : Unreserved arguments)
    {id name : String} (ha : arguments[(Deed.statesOf t log₁).length]? = some (id, name))
    (hothers : ∀ u q w', Deed.performed u q w' ∈ log₂ → u ≠ t →
      ∀ y, ¬ q.Stores b.generation.number b.id name y)
    {r : Site} (hr : r.ReadsFrom b name m.world) :
    e.replay u (ExceptT.run (Library.readArgument e.environment r)) [m.world] =
        some (.done (.ok ((Keyed.get? id passed).getD .null))) ∧
      e.replay u (ExceptT.run (Library.readArgumentTruth e.environment r)) [m.world] =
        some (.done (.ok (.bool ((Keyed.get? id passed).getD .null).toBool))) := by
  have horderly := Engine.orderly_of_core he
  obtain ⟨m₁, m₂, hbefore, hmove, hafter⟩ := hrun.split
  obtain ⟨φ₁, ψ₁, hc₁⟩ := Conducted.run horderly hbefore
  obtain ⟨φ₂, ψ₂, hc₂, hle₁⟩ := hc₁.extend horderly (Run.single hmove)
  obtain ⟨φ₃, ψ₃, -, hle₂⟩ := hc₂.extend horderly hafter
  obtain ⟨x, hx⟩ : ∃ x, m₁.world.view.tasks t = some x := by
    cases hmove with
    | perform hp _ =>
      obtain ⟨x, hx, -⟩ := (hc₁.task t).carries p hp
      exact ⟨x, hx⟩
  obtain ⟨y, hy, hyj, -⟩ := hle₁.task t x hx
  obtain ⟨z, hz, hzj, -⟩ := hle₂.task t y hy
  have hview : m.world.view.tasks t = some s.standing := by
    rw [World.view_tasks, hs]
    rfl
  obtain rfl := Option.some.inj (hview.symm.trans hz)
  have hyjob : y.job = some (.body b arguments (Library.request callId passed) returns) :=
    hzj.symm.trans hj
  have hstored := hc₁.named?_of_store hmove hx (hyj.symm.trans hyjob) hunreserved ha
  have hlater : (Deed.statesOf t log₁).length <
      (Deed.statesOf t (log₁ ++ [.performed t p w])).length := by
    rw [Deed.statesOf_append, List.length_append, Deed.statesOf_performed]
    exact Nat.lt_succ_self _
  have hvalue : m.world.ownValue? b.generation.number b.id name =
      some ((Keyed.get? id passed).getD .null) := by
    rw [World.ownValue?_eq, ← requested_request callId]
    exact hc₂.named?_run horderly hafter hy hyjob hunreserved hnames ha hlater hstored hothers
  rw [Engine.replay_readArgument, Engine.replay_readArgumentTruth, hr.value?, hvalue]
  exact ⟨rfl, rfl⟩

/-! ## Two overlapping calls -/

/-- The run of a body for a call, and a reporter of its generation. -/
structure Script.Reading where
  definition : Site
  arguments : List (String × String)
  callId : String
  passed : Keyed Json
  returns : LockId
  reporter : Site

/-- What the body run by a task has to do with a reporter. -/
def Machine.reading? (m : Machine) (t : TaskId) (reporter : String) : Option Script.Reading :=
  match m.liveJob? t with
  | some (.body b arguments (.obj [("args", .obj passed), ("call_id", .str callId)]) returns) =>
    (b.generation.graph.get? reporter).map fun c =>
      ⟨b, arguments, callId, passed, returns, ⟨b.generation, c, 0, b.context⟩⟩
  | _ => none

/-- Whether the reporter reads the argument `a`, named `x`, that the body was passed as a text. -/
def Script.Reading.reads (d : Script.Reading) (w : World) (text : String) : Bool :=
  d.arguments = [("a", "x")] && d.reporter.block.field "VALUE" = "x" &&
    (w.holderOf? d.reporter.generation d.reporter.id "x").map Block.id = some d.definition.id &&
    (Keyed.get? "a" d.passed).bind Json.str? = some text

theorem Machine.of_reading? {reporter : String} {d : Script.Reading}
    (h : m.reading? t reporter = some d) :
    m.world.IsLive t (.body d.definition d.arguments (Library.request d.callId d.passed) d.returns) ∧
      d.reporter.generation = d.definition.generation ∧
      d.reporter.generation.graph.get? d.reporter.id = some d.reporter.block := by
  unfold reading? at h
  split at h
  · next b arguments passed callId returns hjob =>
    obtain ⟨c, hc, rfl⟩ := Option.map_eq_some_iff.1 h
    rw [Library.request_eq]
    refine ⟨isLive_of_liveJob? hjob, rfl, ?_⟩
    change b.generation.graph.get? c.id = some c
    rw [Graph.id_of_get? hc, hc]
  · cases h

theorem Machine.readsFrom_of_reads {reporter text : String} {d : Script.Reading}
    (h : m.reading? t reporter = some d) (hreads : d.reads m.world text = true) :
    d.arguments = [("a", "x")] ∧ d.reporter.ReadsFrom d.definition "x" m.world ∧
      Keyed.get? "a" d.passed = some (.str text) := by
  obtain ⟨-, hgeneration, hblock⟩ := of_reading? h
  obtain ⟨hreads, htext⟩ := Bool.and_eq_true_iff.1 hreads
  obtain ⟨hreads, hholder⟩ := Bool.and_eq_true_iff.1 hreads
  obtain ⟨hargs, hfield⟩ := Bool.and_eq_true_iff.1 hreads
  refine ⟨of_decide_eq_true hargs, ⟨hgeneration, hblock, of_decide_eq_true hfield,
    of_decide_eq_true hholder⟩, ?_⟩
  obtain ⟨x, hx, htext⟩ := Option.bind_eq_some_iff.1 (of_decide_eq_true htext)
  cases x with
  | str s => rw [hx, Option.some.inj htext]
  | _ => cases htext

/-- Both bodies of the tab have stored their arguments, the task 3 first. -/
def Script.overlapping : List Script.Line :=
  [.call 0 (.save "main" Script.twoCalls), .perform 0 100, .begin 1, .perform 1 100, .begin 2,
    .perform 2 100, .begin 3, .begin 4, .perform 3 1, .perform 4 1]

/-- Whether a deed is a step of a task. -/
def Deed.isBy (t : TaskId) : Deed → Bool
  | .performed u _ _ => u = t
  | .dropped .. => false

/-- Whether a deed is a step that changes the state by itself. -/
def Deed.isAct : Deed → Bool
  | .performed _ (.act ..) _ => true
  | _ => false

/-- The body of the task 3 was passed 1 and has stored it, and its reporter reads 2. -/
def Script.isLost (log : List Deed) (m : Machine) : Bool :=
  (m.reading? 3 "r").any fun d => d.reads m.world "1" &&
    decide (1 ≤ (Deed.statesOf 3 log).length) &&
    decide ((m.world.value? d.reporter.generation d.reporter.id "x").bind Json.str? = some "2")

/-- The body of the task 4 was passed 2 and has stored it, and the task 3 has gone on since. -/
def Script.isKept (log : List Deed) (m : Machine) : Bool :=
  (m.reading? 4 "r").any fun d => d.reads m.world "2" &&
    match log.dropWhile (!·.isBy 4) with
    | .performed u _ _ :: log₂ => decide (u = 4) && log₂.all (!·.isAct) && log₂.any (·.isBy 3) &&
      decide ((Deed.statesOf 4 (log.takeWhile (!·.isBy 4))).length = 0)
    | _ => false

theorem Script.run_overlapping :
    ∃ log m log' m', Run Script.engine (.start 10) log m ∧ Run Script.engine m log' m' ∧
      Script.isLost log m = true ∧ Script.isKept (log ++ log') m' = true := by
  obtain ⟨log, m, hrun, hf⟩ := Run.of_playAll_any (e := Script.engine) (m := .start 10)
    Script.overlapping
    (f := fun log m => Script.isLost log m && (m.playAll Script.engine [.perform 3 1]).any fun r =>
      Script.isKept (log ++ r.1) r.2) (by decide +kernel)
  obtain ⟨hlost, hf⟩ := Bool.and_eq_true_iff.1 hf
  obtain ⟨log', m', hrun', hkept⟩ := Run.of_playAll_any [.perform 3 1] (f := fun log' m' =>
    Script.isKept (log ++ log') m') hf
  exact ⟨log, m, log', m', hrun, hrun', hlost, hkept⟩

theorem unreserved_x : Unreserved [("a", "x")] := by
  simp [Unreserved, IsReserved, valueKey, indexKey]

/-- Two bodies run at the same time: the first one reads what the second one was passed. -/
theorem argument_of_overlapping_call_lost :
    ¬ ∀ (log : List Deed) (m : Machine) (t : TaskId) (b r : Site)
      (arguments : List (String × String)) (callId : String) (passed : Keyed Json)
      (returns : LockId) (id name : String),
      Run Script.engine (.start 10) log m →
      m.world.IsLive t (.body b arguments (Library.request callId passed) returns) →
      (arguments.map Prod.fst).Nodup → (arguments.map Prod.snd).Nodup → Unreserved arguments →
      (id, name) ∈ arguments → arguments.length ≤ (Deed.statesOf t log).length →
      r.ReadsFrom b name m.world →
      Script.engine.replay t (ExceptT.run
          (Library.readArgument Script.engine.environment r)) [m.world] =
        some (.done (.ok ((Keyed.get? id passed).getD .null))) := by
  intro hall
  obtain ⟨log, m, log', m', hrun, -, hlost, -⟩ := Script.run_overlapping
  obtain ⟨⟨b, arguments, callId, passed, returns, r⟩, hd, hf⟩ := (Option.any_eq_true _ _).1 hlost
  obtain ⟨hf, hother⟩ := Bool.and_eq_true_iff.1 hf
  obtain ⟨hreads, hbegun⟩ := Bool.and_eq_true_iff.1 hf
  obtain ⟨hlive, -⟩ := Machine.of_reading? hd
  obtain ⟨rfl, hr, hpassed⟩ := Machine.readsFrom_of_reads hd hreads
  have heq := hall log m 3 b r [("a", "x")] callId passed returns "a" "x" hrun hlive
    (by decide) (by decide) unreserved_x List.mem_cons_self (of_decide_eq_true hbegun) hr
  rw [Engine.replay_readArgument, hr.field, hpassed] at heq
  have hsame := Except.ok.inj (Execution.done.inj (Option.some.inj heq))
  obtain ⟨y, hy, hy'⟩ := Option.bind_eq_some_iff.1 (of_decide_eq_true hother)
  rw [hy] at hsame
  obtain rfl : y = .str "1" := hsame
  exact absurd hy' (by decide)

/-- The second body stores its argument after the first one has, and reads it after the first one
has gone on. -/
theorem argument_kept_of_overlapping_calls :
    ∃ log₁ p w log₂ m, ∃ b r : Site, ∃ callId passed returns,
      Run Script.engine (.start 10) (log₁ ++ .performed 4 p w :: log₂) m ∧
      m.world.IsLive 4 (.body b [("a", "x")] (Library.request callId passed) returns) ∧
      r.ReadsFrom b "x" m.world ∧ (∃ d ∈ log₂, d.isBy 3 = true) ∧
      Keyed.get? "a" passed = some (.str "2") ∧
      Script.engine.replay 4 (ExceptT.run
          (Library.readArgument Script.engine.environment r)) [m.world] =
        some (.done (.ok (.str "2"))) := by
  obtain ⟨log, m₁, log', m, hrun, hrun', -, hkept⟩ := Script.run_overlapping
  have hrun := hrun.trans hrun'
  generalize log ++ log' = log at hrun hkept
  obtain ⟨⟨b, arguments, callId, passed, returns, r⟩, hd, hf⟩ := (Option.any_eq_true _ _).1 hkept
  obtain ⟨hreads, hlog⟩ := Bool.and_eq_true_iff.1 hf
  obtain ⟨hlive, -⟩ := Machine.of_reading? hd
  obtain ⟨rfl, hr, hpassed⟩ := Machine.readsFrom_of_reads hd hreads
  split at hlog
  · next u p w log₂ hdrop =>
    obtain ⟨hlog, hfirst⟩ := Bool.and_eq_true_iff.1 hlog
    obtain ⟨hlog, hfirstBody⟩ := Bool.and_eq_true_iff.1 hlog
    obtain ⟨hu, hacts⟩ := Bool.and_eq_true_iff.1 hlog
    obtain rfl := of_decide_eq_true hu
    rw [← List.takeWhile_append_dropWhile (p := (!·.isBy 4)) (l := log), hdrop] at hrun
    obtain ⟨s, hs, hj, hend⟩ := hlive
    refine ⟨_, p, w, log₂, m, b, r, callId, passed, returns, hrun, ⟨s, hs, hj, hend⟩, hr,
      List.any_eq_true.1 hfirstBody, hpassed, ?_⟩
    have hnames : ([("a", "x")].map Prod.snd).Nodup := by decide
    have ha : [("a", "x")][(Deed.statesOf 4 (log.takeWhile (!·.isBy 4))).length]? =
        some ("a", "x") := by
      rw [of_decide_eq_true hfirst]
      rfl
    have hread := (hrun.argument_kept (e := Script.engine) (u := 4) rfl hs hj hnames unreserved_x ha
      (fun u q w' hmem _ y hstores => ?_) hr).1
    · rwa [hpassed] at hread
    · obtain ⟨k, rfl⟩ := hstores
      simpa [Deed.isAct] using List.all_eq_true.1 hacts _ hmem
  · cases hlog

end BlockEngine
