import BlockEngine.Proofs.Renewal

/-!
# Threads of tasks and callers

* `View.Adds` : what a step does to tasks: it starts some and ends none;
* `Engine.Replied` : the body of a procedure has come to its end and replied;
* `Carries` : what a thread that has begun still has to do;
* `Carries.step` : a step of it is a change of its stage or stance, or the reply of a body.
-/

namespace BlockEngine

variable {α β : Type} {e : Engine} {t u : TaskId} {γ γ' : Stage} {σ σ' : Stance}
  {v v' v'' : View}

/-! ## Tasks after a step -/

/-- The tasks of the earlier state keep their jobs and go on; new ones work on jobs like `P`. -/
def View.Adds (v v' : View) (P : TaskId → Job → Prop) : Prop :=
  ∀ u s', v'.tasks u = some s' →
    (∃ s, v.tasks u = some s ∧ s'.job = s.job ∧ s'.ended = s.ended) ∨
    v.tasks u = none ∧ ∃ j, P u j ∧ s' = ⟨some j, false, false⟩

namespace View.Adds

variable {P P' : TaskId → Job → Prop}

theorem of_eq (h : v'.tasks = v.tasks) : v.Adds v' P :=
  fun _ s' hs' => .inl ⟨s', h ▸ hs', rfl, rfl⟩

theorem weaken (h : v.Adds v' P) (hP : ∀ u j, P u j → P' u j) : v.Adds v' P' := fun u s' hs' =>
  (h u s' hs').imp_right fun ⟨hn, j, hj, hs⟩ => ⟨hn, j, hP u j hj, hs⟩

theorem cancelAll (v : View) (ts : List TaskId) : v.Adds (ts.foldl View.cancel v) P :=
  fun u s' hs' => .inl ((View.cancelAll_spec v ts).2.2.2.2 u s' hs')

theorem destroy (v : View) (n : Nat) : v.Adds (v.destroy n) P :=
  .of_eq (View.tasks_destroy v n)

theorem spawn (hs : v.TasksNumbered) {i n : Nat} {d : String} {c : Context} {j : Job}
    (hj : P v.taskCount j) : v.Adds ({ v with issued := i }.spawn n d c j) P := by
  intro u s' hs'
  unfold View.spawn at hs'
  split at hs'
  · exact .inl ⟨s', hs', rfl, rfl⟩
  · rw [View.tasks_modifyGeneration, View.tasks_addTask] at hs'
    split at hs'
    · next hu =>
      obtain rfl : u = v.taskCount := hu
      obtain rfl := Option.some.inj hs'
      refine .inr ⟨?_, j, hj, rfl⟩
      cases hx : v.tasks v.taskCount with
      | none => rfl
      | some x => exact absurd (hs _ x hx) (Nat.lt_irrefl _)
    · exact .inl ⟨s', hs', rfl, rfl⟩

/-- A task of the earlier state, later. -/
theorem later (h : v.Adds v' P) (hle : v ≤ v') {s : Standing} (hs : v.tasks u = some s) :
    ∃ s', v'.tasks u = some s' ∧ s'.job = s.job ∧ s'.ended = s.ended := by
  obtain ⟨s', hs', -⟩ := hle.task u s hs
  rcases h u s' hs' with ⟨s₀, hs₀, hj, hend⟩ | ⟨hnone, -⟩
  · obtain rfl : s = s₀ := Option.some.inj (hs.symm.trans hs₀)
    exact ⟨s', hs', hj, hend⟩
  · exact absurd (hnone.symm.trans hs) (by simp)

end View.Adds

/-- What is no dialogue starts no bodies. -/
theorem Effect.adds (h : Effect e t γ v γ' v') (hs : v.Sound e) :
    v.Adds v' fun _ j => j.isBody = false := by
  cases h with
  | spawn _ hb => exact .spawn hs.tasksNumbered hb
  | cancel => exact .cancelAll _ _
  | abort => exact .cancelAll _ [_]
  | destroy => exact .destroy _ _
  | touch | listen | unlisten => exact .of_eq (View.tasks_modifyGeneration ..)
  | mark | install =>
    unfold View.modifyTab
    split <;> exact .of_eq rfl
  | _ => exact .of_eq rfl

/-- A dialogue starts the body that is due. -/
theorem Talk.adds (h : Talk e σ v σ' v') (hs : v.Sound e) :
    v.Adds v' fun u j => ∃ a due left bodies d arguments returns,
      σ = .asked a due (.runBody d arguments returns :: left) bodies ∧
      σ' = .asked a due left (bodies ++ [u]) ∧ j = a.body d arguments returns v.issued := by
  cases h with
  | @startBody _ a due left bodies bodies' d arguments returns s _ hdead hlive =>
    cases hd : v.isDestroyed d.generation.number with
    | true =>
      have hd' : View.isDestroyed { v with issued := v.issued + 1 } d.generation.number = true := hd
      unfold View.spawn
      rw [if_pos hd']
      exact .of_eq rfl
    | false =>
      rw [hlive hd]
      exact .spawn hs.tasksNumbered ⟨a, due, left, bodies, d, arguments, returns, rfl, rfl, rfl⟩
  | _ => exact .of_eq rfl

theorem Change.adds (h : Change e t γ σ v γ' σ' v') (hs : v.Sound e) :
    v.Adds v' fun _ _ => True := by
  cases h with
  | effect h => exact (h.adds hs).weaken fun _ _ _ => trivial
  | talk h => exact (h.adds hs).weaken fun _ _ _ => trivial

theorem Change.fits (h : Change e t γ σ v γ' σ' v') {s : Standing} (hs : v.tasks t = some s)
    (hfits : γ.Fits s.job) : γ'.Fits s.job := by
  cases h with
  | effect h => exact h.fits hs hfits
  | talk => exact hfits

theorem Supervised.change {lapsed : Prop} {lost : Nat → Prop} {φ : TaskId → Stage}
    (h : Supervised lapsed lost φ v) (hv : v.Sound e) {s : Standing} (hs : v.tasks t = some s)
    (hlive : s.ended = false) (hfits : (φ t).Fits s.job)
    (hchange : Change e t (φ t) σ v γ' σ' v') :
    Supervised lapsed lost (setStage φ t γ') v' := by
  cases hchange with
  | effect heff => exact h.effect hv hs hlive hfits heff
  | talk htalk =>
    rw [setStage_self]
    exact h.talk hv htalk

/-! ## Ends of threads -/

/-- A thread that has nothing in hand and owes nothing. -/
def Stage.AtRest (γ : Stage) : Prop := γ.hand = none ∧ γ.owed = []

theorem Stands.of_done {Q : Stage → View → α → Prop} {a : α}
    (h : Stands e t Q γ σ v (.done a)) : σ = .free ∧ Q γ v a := by
  generalize hp : Execution.done a = p at h
  cases h with
  | free h =>
    subst hp
    cases h with
    | done h => exact ⟨rfl, h⟩
  | dozing | enrolled => cases hp
  | @asked v a due left bodies k hpair hr =>
    cases left with
    | nil =>
      change Execution.done _ = (ExceptT.run (Library.heard ..)).bind k at hp
      unfold Library.heard at hp
      split at hp <;> cases hp
    | cons r rest =>
      obtain ⟨d, arguments, returns, rfl⟩ := (hr r List.mem_cons_self).runBody_of_paired hpair
      cases hp

/-- The number of the call whose bodies a thread is about to start. -/
def Stance.starting? : Stance → Option Nat
  | .enrolled a | .asked a _ (_ :: _) _ => some a.number
  | .free | .dozing _ | .asked _ _ [] _ => none

/-- A thread that waits for a mailbox has it, and is not about to start anything. -/
theorem Stands.of_pause {Q : Stage → View → α → Prop} {m : MailboxId} {d : Option Nat}
    {k : Option Delivery → Execution α} (h : Stands e t Q γ σ v (.pause (.mail m d) k)) :
    σ.mailbox? = some m ∧ σ.starting? = none := by
  generalize hp : Execution.pause (.mail m d) k = p at h
  cases h with
  | free h => subst hp; cases h
  | dozing => cases hp; exact ⟨rfl, rfl⟩
  | enrolled => cases hp
  | @asked v a due left bodies k hpair hr =>
    cases left with
    | nil =>
      change Execution.pause _ _ = (ExceptT.run (Library.heard ..)).bind k at hp
      unfold Library.heard at hp
      split at hp <;> cases hp
      exact ⟨rfl, rfl⟩
    | cons r rest =>
      obtain ⟨d, arguments, returns, rfl⟩ := (hr r List.mem_cons_self).runBody_of_paired hpair
      cases hp

/-! ## Bodies that keep their arguments -/

/-- No argument has a name that the engine itself uses. -/
def Unreserved (arguments : List (String × String)) : Prop :=
  ∀ a ∈ arguments, ¬ IsReserved a.2

theorem Library.request_eq (callId : String) (passed : Keyed Json) :
    Library.request callId passed = .obj [("args", .obj passed), ("call_id", .str callId)] := by
  have hlt : "args" < "call_id" := by decide
  simp [Library.request, Json.object, Keyed.ofList, Keyed.insert, hlt]

/-- The value that a request passes for an argument. -/
def requested (request : Json) (id : String) : Json :=
  ((request.get? "args").bind (·.get? id)).getD .null

/-- An execution whose first step stores a named value on a block, and does nothing else. -/
def Execution.Stores (p : Execution α) (n : Nat) (block key : String) (x : Json) : Prop :=
  ∃ k, p = .act (fun w => w.storeValue n block key x) k

theorem Execution.Stores.bind {p : Execution α} {n : Nat} {block key : String} {x : Json}
    (h : p.Stores n block key x) (k : α → Execution β) : (p.bind k).Stores n block key x := by
  obtain ⟨g, rfl⟩ := h
  exact ⟨_, rfl⟩

namespace Engine

/-- What is left of a body that keeps its arguments: the storing in hand, the arguments that come
after it, and the statements. -/
def bodyLeft (e : Engine) (s : Site) (request : Json) (q : Execution Unit)
    (rest : List (String × String)) : Execution (Except EngineError Signal) :=
  q.bind fun _ => (Engine.keepArguments s request rest).bind fun _ => e.bodyStatements s

theorem bodyLeft_cons (e : Engine) (s : Site) (request : Json) (a : String × String)
    (rest : List (String × String)) : e.bodyLeft s request (.done ()) (a :: rest) =
      e.bodyLeft s request (Engine.keep s a.2 (requested request a.1)) rest :=
  Execution.bind_assoc ..

theorem bodyLeft_ne_done {q : Execution Unit} (hq : ∀ a, q ≠ .done a) (s : Site) (request : Json)
    (rest : List (String × String)) (r : Except EngineError Signal) :
    e.bodyLeft s request q rest ≠ .done r := by
  cases q with
  | done a => exact absurd rfl (hq a)
  | _ => nofun

/-- An argument whose name is not reserved is kept in one step. -/
theorem keep_of_unreserved {s : Site} {key : String} (hkey : ¬ IsReserved key) (x : Json) :
    Engine.keep s key x =
      .act (fun w => w.storeValue s.generation.number s.id key x) fun _ => .done () := by
  unfold Engine.keep Execution.setValue
  rw [if_neg fun h => hkey (.inl h)]
  rfl

end Engine

/-! ## What a thread carries -/

/-- The body of a procedure, after steps in the states `ws`: it came to its end with `r` and has
performed the step after that, which is the reply. -/
def Engine.Replied (e : Engine) (t : TaskId) (s : Site) (arguments : List (String × String))
    (request : Json) (ws : List World) (r : Except EngineError Signal) : Prop :=
  ∃ pre w post, ws = pre ++ w :: post ∧
    e.replay t (e.bodyChain s arguments request) pre = some (.done r)

theorem Engine.Replied.append {s : Site} {arguments : List (String × String)} {request : Json}
    {ws : List World} {r : Except EngineError Signal}
    (h : e.Replied t s arguments request ws r) (ws' : List World) :
    e.Replied t s arguments request (ws ++ ws') r := by
  obtain ⟨pre, w, post, rfl, hr⟩ := h
  exact ⟨pre, w, post ++ ws', by rw [List.append_assoc, List.cons_append], hr⟩

/-- A body replied before its last step, or it is the last step. -/
theorem Engine.Replied.of_append {s : Site} {arguments : List (String × String)} {request : Json}
    {ws : List World} {w : World} {r : Except EngineError Signal}
    (h : e.Replied t s arguments request (ws ++ [w]) r) :
    e.Replied t s arguments request ws r ∨
      e.replay t (e.bodyChain s arguments request) ws = some (.done r) := by
  obtain ⟨pre, w', post, hws, hr⟩ := h
  rcases List.eq_nil_or_concat post with rfl | ⟨post, w'', rfl⟩
  · obtain ⟨rfl, -⟩ := List.append_inj' hws rfl
    exact .inr hr
  · rw [List.concat_eq_append, ← List.cons_append, ← List.append_assoc] at hws
    obtain ⟨rfl, -⟩ := List.append_inj' hws rfl
    exact .inl ⟨pre, w', post, rfl, hr⟩

/-- Nothing is left to replay after the end. -/
theorem Engine.replay_done (e : Engine) (t : TaskId) (a : α) (w : World) (ws : List World) :
    e.replay t (.done a) (w :: ws) = none := rfl

/-- A body replies once. -/
theorem Engine.Replied.unique {s : Site} {arguments : List (String × String)} {request : Json}
    {ws : List World} {r r' : Except EngineError Signal}
    (h : e.Replied t s arguments request ws r) (h' : e.Replied t s arguments request ws r') :
    r = r' := by
  obtain ⟨pre, w, post, hws, hr⟩ := h
  obtain ⟨pre', w', post', hws', hr'⟩ := h'
  have hlonger : ∀ {xs ys : List World} {y : World} {a b : Except EngineError Signal},
      e.replay t (e.bodyChain s arguments request) xs = some (.done a) →
      e.replay t (e.bodyChain s arguments request) (xs ++ y :: ys) = some (.done b) → False := by
    intro xs ys y a b ha hb
    rw [e.replay_append, ha] at hb
    cases hb
  rcases List.append_eq_append_iff.1 (hws.symm.trans hws') with ⟨xs, rfl, -⟩ | ⟨xs, rfl, -⟩
  · cases xs with
    | nil =>
      rw [List.append_nil, hr] at hr'
      exact Execution.done.inj (Option.some.inj hr')
    | cons y ys => exact (hlonger hr hr').elim
  · cases xs with
    | nil =>
      rw [List.append_nil, hr'] at hr
      exact (Execution.done.inj (Option.some.inj hr)).symm
    | cons y ys => exact (hlonger hr' hr).elim

/-- No body at its end: what is left to do is not the reply. -/
def Unfinished (e : Engine) (t : TaskId) (ws : List World) (job : Option Job) : Prop :=
  ∀ s arguments request returns r, job = some (.body s arguments request returns) →
    e.replay t (e.bodyChain s arguments request) ws ≠ some (.done r)

theorem Unfinished.of_replay {ws : List World} {s : Site} {arguments : List (String × String)}
    {request : Json} {returns : LockId} {q : Execution (Except EngineError Signal)}
    (hr : e.replay t (e.bodyChain s arguments request) ws = some q) (hq : ∀ r, q ≠ .done r) :
    Unfinished e t ws (some (.body s arguments request returns)) := by
  intro s' arguments' request' returns' r hj h
  cases hj
  exact hq r (Option.some.inj (hr.symm.trans h))

/-- What the thread of a task or a caller carries after steps in the states `ws`. A body first keeps
its arguments, one in a step unless a name is reserved; a body that has replied is at its end. -/
inductive Carries (e : Engine) (t : TaskId) (ws : List World) (v : View) :
    Option Job → Stage → Stance → Execution Unit → Prop
  | plain {job γ σ p} :
      (∀ j, job = some j → j.isBody = false) →
      Stands e t (fun γ' _ _ => γ'.AtRest) γ σ v p → Carries e t ws v job γ σ p
  | keeping {s arguments kept rest request returns γ₀ γ σ q} :
      arguments = kept ++ rest → s.AtHome γ₀ v →
      Stands e t (fun γ' _ _ => γ' = γ₀) γ σ v q →
      e.replay t (e.bodyChain s arguments request) ws = some (e.bodyLeft s request q rest) →
      (Unreserved arguments → q = .done () ∧ kept.length = ws.length) →
      Carries e t ws v (some (.body s arguments request returns)) γ σ
        ((e.bodyLeft s request q rest).bind (Engine.reply returns request))
  | body {s arguments request returns γ σ q} :
      Stands e t (fun _ _ _ => True) γ σ v q →
      e.replay t (e.bodyChain s arguments request) ws = some q →
      (Unreserved arguments → arguments.length ≤ ws.length) →
      Carries e t ws v (some (.body s arguments request returns)) γ σ
        (q.bind (Engine.reply returns request))
  | replied {s arguments request returns γ r} :
      e.Replied t s arguments request ws r →
      Carries e t ws v (some (.body s arguments request returns)) γ .free (.done ())

namespace Carries

variable {ws : List World} {job : Option Job} {p q : Execution Unit} {w w' : World}

theorem mono (h : Carries e t ws v job γ σ p) (hle : v ≤ v') : Carries e t ws v' job γ σ p := by
  cases h with
  | plain hj h => exact .plain hj (h.mono (fun _ _ _ _ _ h => h) hle)
  | keeping ha hs h hr hkept =>
    exact .keeping ha (hs.mono hle) (h.mono (fun _ _ _ _ _ h => h) hle) hr hkept
  | body h hr hlength => exact .body (h.mono (fun _ _ _ _ _ h => h) hle) hr hlength
  | replied h => exact .replied h

/-- A reply meets no subscriptions. -/
theorem reactions_reply (hs : v.Sound e) {s : Site} {arguments : List (String × String)}
    {request : Json} {returns : LockId} (hj : (Job.body s arguments request returns).Coherent v)
    (x : Json) : (v.locks.deliver returns x).1.2 = [] := by
  obtain ⟨-, signature, calls, hp⟩ := hj
  obtain ⟨-, y, -, hy, -, -, -, hkey, -⟩ := hp
  refine List.eq_nil_iff_forall_not_mem.2 fun r hr => ?_
  have hc := hs.coherent_deliver hr
  rcases hc.plain_or_runBody with ⟨tab, z, hz, -, hz'⟩ | ⟨d, arguments, returns', rfl⟩
  · obtain rfl : y = z := Option.some.inj (hy.symm.trans hz)
    exact procedureReturn_not_plain signature (hkey ▸ hz')
  · obtain ⟨τ, m, -, -, -, x, -, hx, -, -, -, hxkey, -⟩ := hc
    obtain rfl : y = x := Option.some.inj (hy.symm.trans hx)
    exact procedureReturn_ne_procedure signature τ (hkey.symm.trans hxkey)

section

variable {s : Site} {arguments kept rest : List (String × String)} {request : Json}
  {returns : LockId} {γ₀ : Stage}

/-- A step of the storing in hand. -/
theorem step_storing (he : e.Orderly) {q₀ : Execution Unit} (ha : arguments = kept ++ rest)
    (hhome : s.AtHome γ₀ v) (h : Stands e t (fun γ' _ _ => γ' = γ₀) γ σ v q₀)
    (hr : e.replay t (e.bodyChain s arguments request) ws = some (e.bodyLeft s request q₀ rest))
    (hreserved : ¬ Unreserved arguments) (hq : ∀ a, q₀ ≠ .done a) (hle : v ≤ w.view)
    (hs : w.view.Sound e)
    (hstep : e.step t w ((e.bodyLeft s request q₀ rest).bind (Engine.reply returns request)) =
      some (q, w')) :
    Unfinished e t ws (some (.body s arguments request returns)) ∧
    ∃ γ' σ', Change e t γ σ w.view γ' σ' w'.view ∧
      Carries e t (ws ++ [w]) w'.view (some (.body s arguments request returns)) γ' σ' q := by
  refine ⟨.of_replay hr (Engine.bodyLeft_ne_done hq s request rest), ?_⟩
  unfold Engine.bodyLeft at hstep
  rw [Execution.bind_assoc, Engine.step_bind _ _ _ _ hq] at hstep
  obtain ⟨⟨q', w₁⟩, hq', heq⟩ := Option.map_eq_some_iff.1 hstep
  obtain ⟨rfl, rfl⟩ := Prod.mk.inj heq
  obtain ⟨γ', σ', hchange, h'⟩ := h.step he hle hs hq'
  refine ⟨γ', σ', hchange, ?_⟩
  have hreplay : e.replay t (e.bodyChain s arguments request) (ws ++ [w]) =
      some (e.bodyLeft s request q' rest) := by
    rw [e.replay_append, hr]
    change (e.step t w _).bind _ = _
    unfold Engine.bodyLeft
    rw [Engine.step_bind _ _ _ _ hq, hq']
    rfl
  have hnew : Carries e t (ws ++ [w]) w₁.view (some (.body s arguments request returns)) γ' σ'
      ((e.bodyLeft s request q' rest).bind (Engine.reply returns request)) :=
    .keeping ha (hhome.mono (View.le_trans hle (hchange.le hs))) h' hreplay fun hn =>
      absurd hn hreserved
  unfold Engine.bodyLeft at hnew
  rwa [Execution.bind_assoc] at hnew

/-- A step of the statements of a body, or its reply. -/
theorem step_statements (he : e.Orderly) {q₀ : Execution (Except EngineError Signal)}
    (h : Stands e t (fun _ _ _ => True) γ σ v q₀)
    (hr : e.replay t (e.bodyChain s arguments request) ws = some q₀)
    (hlength : Unreserved arguments → arguments.length ≤ ws.length) (hle : v ≤ w.view)
    (hs : w.view.Sound e) (hj : (Job.body s arguments request returns).Coherent w.view)
    (hstep : e.step t w (q₀.bind (Engine.reply returns request)) = some (q, w')) :
    (Unfinished e t ws (some (.body s arguments request returns)) ∧
      ∃ γ' σ', Change e t γ σ w.view γ' σ' w'.view ∧
        Carries e t (ws ++ [w]) w'.view (some (.body s arguments request returns)) γ' σ' q) ∨
    ∃ r, σ = .free ∧ q = .done () ∧ e.Replied t s arguments request (ws ++ [w]) r ∧
      e.replay t (e.bodyChain s arguments request) ws = some (.done r) ∧
      w'.view = { w.view with
        locks := (w.locks.deliver returns (Engine.replyTo request r)).2 } := by
  by_cases hdone : ∃ r, q₀ = .done r
  · obtain ⟨r, rfl⟩ := hdone
    obtain ⟨rfl, -⟩ := h.of_done
    change e.step t w (.signal returns (Engine.replyTo request r) fun _ => .done ()) = _ at hstep
    have hnone : (w.locks.deliver returns (Engine.replyTo request r)).1.2 = [] :=
      reactions_reply hs hj _
    rw [Engine.step_signal, hnone] at hstep
    obtain ⟨rfl, rfl⟩ := Prod.mk.inj (Option.some.inj hstep)
    exact .inr ⟨r, rfl, rfl, ⟨ws, w, [], rfl, hr⟩, hr, World.view_deliver ..⟩
  · rw [Engine.step_bind _ _ _ _ fun a ha => hdone ⟨a, ha⟩] at hstep
    obtain ⟨⟨p', w₁⟩, hp', heq⟩ := Option.map_eq_some_iff.1 hstep
    obtain ⟨rfl, rfl⟩ := Prod.mk.inj heq
    obtain ⟨γ', σ', hchange, h'⟩ := h.step he hle hs hp'
    refine .inl ⟨.of_replay hr fun r h => hdone ⟨r, h⟩, γ', σ', hchange,
      .body h' ?_ fun hn => ?_⟩
    · rw [e.replay_append, hr]
      change (e.step t w q₀).bind _ = _
      rw [hp']
      rfl
    · rw [List.length_append]
      exact Nat.le_add_right_of_le (hlength hn)

end

/-- A step of a thread is a change of its stage or stance, a body that stores an argument, or the
reply of a body. -/
theorem step (he : e.Orderly) (h : Carries e t ws v job γ σ p) (hle : v ≤ w.view)
    (hs : w.view.Sound e) (hj : ∀ j, job = some j → j.Coherent w.view)
    (hstep : e.step t w p = some (q, w')) :
    (Unfinished e t ws job ∧ ∃ γ' σ', Change e t γ σ w.view γ' σ' w'.view ∧
      Carries e t (ws ++ [w]) w'.view job γ' σ' q) ∨
    (∃ s arguments request returns a, job = some (.body s arguments request returns) ∧
      Unfinished e t ws job ∧ a ∈ arguments ∧ ¬ IsReserved a.2 ∧ (Unreserved arguments → arguments[ws.length]? = some a) ∧
      p.Stores s.generation.number s.id a.2 (requested request a.1) ∧
      w' = w.storeValue s.generation.number s.id a.2 (requested request a.1) ∧
      Carries e t (ws ++ [w]) w'.view job γ σ q) ∨
    ∃ s arguments request returns r, job = some (.body s arguments request returns) ∧
      σ = .free ∧ q = .done () ∧ e.Replied t s arguments request (ws ++ [w]) r ∧
      e.replay t (e.bodyChain s arguments request) ws = some (.done r) ∧
      w'.view = { w.view with
        locks := (w.locks.deliver returns (Engine.replyTo request r)).2 } := by
  cases h with
  | plain hb h =>
    obtain ⟨γ', σ', hchange, h'⟩ := h.step he hle hs hstep
    exact .inl ⟨fun _ _ _ _ _ hj => absurd (hb _ hj) (by simp [Job.isBody]), γ', σ', hchange,
      .plain hb h'⟩
  | replied h => cases hstep
  | body h hr hlength =>
    refine (step_statements he h hr hlength hle hs (hj _ rfl) hstep).imp id fun hreply => .inr ?_
    obtain ⟨r, hσ, hq, hreplied, hr', hw⟩ := hreply
    exact ⟨_, _, _, _, r, rfl, hσ, hq, hreplied, hr', hw⟩
  | @keeping s arguments kept rest request returns γ₀ _ _ q₀ ha hhome h hr hkept =>
    by_cases hdone : ∃ x, q₀ = .done x
    · obtain ⟨⟨⟩, rfl⟩ := hdone
      obtain ⟨rfl, rfl⟩ := h.of_done
      cases rest with
      | nil =>
        have hlength : Unreserved arguments → arguments.length ≤ ws.length := fun hn => by
          rw [ha, List.append_nil]
          exact Nat.le_of_eq (hkept hn).2
        have hstatements : Stands e t (fun _ _ _ => True) γ .free v (e.bodyStatements s) :=
          .free (Conducts.weaken (Does.bodyStatements hhome) fun _ _ _ _ => trivial)
        refine (step_statements he hstatements hr hlength hle hs (hj _ rfl) hstep).imp id
          fun hreply => .inr ?_
        obtain ⟨r, hσ, hq, hreplied, hr', hw⟩ := hreply
        exact ⟨_, _, _, _, r, rfl, hσ, hq, hreplied, hr', hw⟩
      | cons a rest =>
        have hmem : a ∈ arguments := ha ▸ List.mem_append_right _ List.mem_cons_self
        have ha' : arguments = (kept ++ [a]) ++ rest := by rw [ha, List.append_cons]
        rw [Engine.bodyLeft_cons] at hr hstep
        by_cases hreserved : IsReserved a.2
        · rw [Engine.bodyLeft_cons]
          have hkeep : Stands e t (fun γ' _ _ => γ' = γ) γ .free v
              (Engine.keep s a.2 (requested request a.1)) :=
            .free (Conducts.weaken (Does.keep s hreserved _) fun _ _ _ h => h.1)
          exact .inl (step_storing he ha' hhome hkeep hr (fun hn => hn a hmem hreserved) nofun hle
            hs hstep)
        · rw [Engine.bodyLeft_cons]
          rw [Engine.keep_of_unreserved hreserved] at hr hstep ⊢
          obtain ⟨rfl, rfl⟩ := Prod.mk.inj (Option.some.inj hstep)
          have hle' : v ≤ (w.storeValue s.generation.number s.id a.2
              (requested request a.1)).view := by
            rw [World.view_storeValue]
            exact View.le_trans hle
              (View.KeepsTasks_le (GenerationState.keepsTasks_store s.id a.2 _) w.view _)
          have hreplay : e.replay t (e.bodyChain s arguments request) (ws ++ [w]) =
              some (e.bodyLeft s request (.done ()) rest) := by
            rw [e.replay_append, hr]
            rfl
          refine .inr (.inl ⟨s, arguments, request, returns, a, rfl, .of_replay hr nofun, hmem,
            hreserved, fun hn => ?_, ⟨_, rfl⟩, rfl, .keeping ha' (hhome.mono hle') (.free (.done rfl)) hreplay fun hn =>
              ⟨rfl, ?_⟩⟩)
          · rw [ha, ← (hkept hn).2, List.getElem?_append_right (Nat.le_refl _), Nat.sub_self]
            rfl
          · rw [List.length_append, List.length_append, (hkept hn).2]
            rfl
    · exact .inl (step_storing he ha hhome h hr (fun hn => hdone ⟨(), (hkept hn).1⟩)
        (fun x hx => hdone ⟨x, hx⟩) hle hs hstep)

/-- A thread at its end has nothing. -/
theorem of_done (h : Carries e t ws v job γ σ (.done ())) :
    σ = .free ∧ (job = none → γ.AtRest) ∧
      ∀ s arguments request returns, job = some (.body s arguments request returns) →
        ∃ r, e.Replied t s arguments request ws r := by
  generalize hp : Execution.done () = p at h
  cases h with
  | plain hb h =>
    subst hp
    obtain ⟨hσ, hrest⟩ := h.of_done
    exact ⟨hσ, fun _ => hrest, fun _ _ _ _ hj => absurd (hb _ hj) (by simp [Job.isBody])⟩
  | @keeping s arguments kept rest request returns _ _ _ q =>
    cases hleft : e.bodyLeft s request q rest <;> rw [hleft] at hp <;> cases hp
  | @body s arguments request returns _ _ q h =>
    cases q <;> cases hp
  | replied h =>
    refine ⟨rfl, nofun, fun _ _ _ _ hj => ?_⟩
    cases hj
    exact ⟨_, h⟩

/-- A thread that waits for a mailbox has it, and is not about to start anything. -/
theorem of_pause {m : MailboxId} {d : Option Nat} {k : Option Delivery → Execution Unit}
    (h : Carries e t ws v job γ σ (.pause (.mail m d) k)) :
    σ.mailbox? = some m ∧ σ.starting? = none := by
  generalize hp : Execution.pause (.mail m d) k = p at h
  cases h with
  | plain hb h =>
    subst hp
    exact h.of_pause
  | @keeping s arguments kept rest request returns γ₀ _ _ q ha hhome h =>
    unfold Engine.bodyLeft at hp
    rw [Execution.bind_assoc] at hp
    cases q with
    | done x =>
      cases rest with
      | nil =>
        change _ = (e.bodyStatements s).bind (Engine.reply returns request) at hp
        unfold Engine.bodyStatements at hp
        split at hp <;> cases hp
      | cons a rest => cases hp
    | pause =>
      cases hp
      exact h.of_pause
    | _ => cases hp
  | @body s arguments request returns _ _ q h =>
    cases q <;> cases hp
    exact h.of_pause
  | replied => cases hp

/-- What a task carries when it begins. -/
theorem work {j : Job} {s : Standing} (hs : v.tasks t = some s) (hsj : s.job = some j)
    (hj : j.Coherent v) :
    Carries e t [] v (some j) (.ofHome j.home?) .free (e.work j) := by
  cases hb : j.isBody with
  | false =>
    refine .plain (fun j' h => Option.some.inj h ▸ hb) (.free ?_)
    refine Conducts.weaken (Does.work hj hb ⟨s, hs, hsj⟩) fun γ' _ _ h => ?_
    rw [h.1]
    exact ⟨rfl, rfl⟩
  | true =>
    cases j with
    | body s arguments request returns =>
      have hhome : s.AtHome (.ofHome (some s.generation)) v := ⟨rfl, hj.1⟩
      have hargs : arguments = [] ++ arguments := rfl
      exact .keeping hargs hhome (.free (.done rfl)) rfl fun _ => ⟨rfl, rfl⟩
    | _ => cases hb

/-- What a caller carries when it makes a call. -/
theorem call (hc : v.IsCaller t) (c : Call) :
    Carries e t ws v none .idle .free (c.execution e) := by
  refine .plain (fun _ h => by cases h) (.free ?_)
  refine Conducts.weaken (leads_call hc c) fun γ' _ _ h => ?_
  rw [h.2]
  exact ⟨rfl, rfl⟩

end Carries
end BlockEngine
