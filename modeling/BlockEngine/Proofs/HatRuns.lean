import BlockEngine.Proofs.Following
import BlockEngine.Proofs.Script

/-!
# Hats that a signal starts

A broadcast signals the lock of its message in one tab, a write of a variable the locks of the
variable in all tabs. The hats that listen there ask for a run of the chain after them.

* `LockKey.eq_of_text` : the keys of two kinds or of two ids have different texts;
* `Reaction.Listens` : what a reaction listens to, by the key of its lock;
* `Notice` : a broadcast or a write, with the hats it concerns;
* `Firing` : a lock that tells its subscriptions a value, with the runs they ask for;
* `Run.hats_fire` : every hat concerned by a notice starts one run, and no other hat does.
-/

namespace BlockEngine

variable {α : Type} {e : Engine} {t : TaskId} {log log₀ ds : List Deed} {m m' : Machine}
  {v : View} {w : World} {ws : List World} {xs : List (TaskId × Job)} {l : LockId} {x : Json}

/-! ## Texts of keys -/

namespace LockKey

/-- The word that the text of a key begins with. -/
def word : LockKey → String
  | .broadcast _ => "broadcast"
  | .variableWrite _ => "variable"
  | .value _ => "value"
  | .event _ => "event"
  | .procedure _ => "procedure"
  | .procedureReturn _ => "procedure_return"

/-- What the text of a key says after the first colon. -/
def suffix : LockKey → String
  | .broadcast s | .variableWrite s | .value s | .event s => s
  | .procedure s | .procedureReturn s => signatureHash s

theorem text_eq (k : LockKey) : k.text = k.word ++ ":" ++ k.suffix := by
  have happend : ∀ a b s : String, a = b → a ++ s = b ++ s := fun a b s h => h ▸ rfl
  cases k <;> exact happend _ _ _ (by simp only [word]; decide)

theorem colon_notMem_word (k : LockKey) : ':' ∉ k.word.toList := by
  cases k <;> simp only [word] <;> decide

/-- The first colon of a text ends the word. -/
theorem takeWhile_text (k : LockKey) : k.text.toList.takeWhile (· ≠ ':') = k.word.toList := by
  have hcolon : ":".toList = [':'] := by decide
  have hword : ∀ c ∈ k.word.toList, decide (c ≠ ':') = true := fun c hc =>
    decide_eq_true fun (h : c = ':') => colon_notMem_word k (h ▸ hc)
  rw [text_eq, String.toList_append, String.toList_append, List.append_assoc,
    List.takeWhile_append_of_pos hword, hcolon]
  simp

theorem word_eq_of_text {k k' : LockKey} (h : k.text = k'.text) :
    k.word = k'.word ∧ k.suffix = k'.suffix := by
  have hword : k.word = k'.word := by
    rw [← String.toList_inj, ← takeWhile_text, ← takeWhile_text, h]
  rw [text_eq, text_eq, hword] at h
  exact ⟨hword, String.append_right_inj _ |>.1 h⟩

/-- Both keys are of procedures, in the same role, with signatures of one hash. -/
def BothProcedures : LockKey → LockKey → Prop
  | .procedure s, .procedure s' | .procedureReturn s, .procedureReturn s' =>
    signatureHash s = signatureHash s'
  | _, _ => False

/-- Keys of one text are the same, but for procedures with signatures of one hash. -/
theorem eq_of_text {k k' : LockKey} (h : k.text = k'.text) : k = k' ∨ BothProcedures k k' := by
  obtain ⟨hword, hsuffix⟩ := word_eq_of_text h
  cases k <;> cases k' <;> simp only [word, String.reduceEq] at hword
  case broadcast.broadcast | variableWrite.variableWrite | value.value | event.event =>
    exact .inl (congrArg _ hsuffix)
  case procedure.procedure | procedureReturn.procedureReturn => exact .inr hsuffix

end LockKey

/-! ## What reactions listen to -/

/-- A reaction listens to the locks of a key in a tab. -/
def Reaction.Listens (tab : String) : Reaction → LockKey → Prop
  | .start hat, .broadcast message =>
    hat.tab = tab ∧ hat.block.fieldRef "BROADCAST_OPTION" = message
  | .keepAndStart hat, .variableWrite id | .keepAndStartIf hat _, .variableWrite id =>
    hat.tab = tab ∧ Library.variableId hat = id
  | .link .., .value _ => True
  | .keepAndRun owner _, .event block => owner.tab = tab ∧ owner.id = block
  | .runBody .., .procedure _ => True
  | _, _ => False

theorem Reaction.Coherent.listens {env : Environment} {r : Reaction} {y : Lock Reaction}
    (h : r.Coherent env v l) (hy : v.locks.lock? l = some y) :
    ∃ k : LockKey, y.key = k.text ∧ r.Listens y.tab k := by
  have hlock : ∀ {tab : String} {k : LockKey}, v.IsLockOf tab k l → y.tab = tab ∧ y.key = k.text := by
    rintro tab k ⟨y', hy', htab, hkey⟩
    obtain rfl := Option.some.inj (hy.symm.trans hy')
    exact ⟨htab, hkey⟩
  cases r with
  | start hat => exact ⟨_, (hlock h.2).2, (hlock h.2).1.symm, rfl⟩
  | keepAndStart hat | keepAndStartIf hat operator =>
    exact ⟨_, (hlock h.2).2, (hlock h.2).1.symm, rfl⟩
  | link id asTruth =>
    obtain ⟨tab, source, hsource⟩ := h
    exact ⟨_, (hlock hsource).2, trivial⟩
  | keepAndRun owner body => exact ⟨_, (hlock h.2.1).2, (hlock h.2.1).1.symm, rfl⟩
  | runBody d arguments returns =>
    obtain ⟨signature, m, -, -, -, y', z, hy', -, -, -, hkey, -⟩ := h
    obtain rfl := Option.some.inj (hy.symm.trans hy')
    exact ⟨.procedure signature, hkey, trivial⟩
  | host name act => exact h.elim

/-- What listens to a lock of a key that belongs to no procedure. -/
theorem View.Sound.listens (hs : v.Sound e) {y : Lock Reaction} {s : Subscription Reaction}
    {k : LockKey} (hy : v.locks.lock? l = some y) (hmem : s ∈ y.subscriptions)
    (hkey : y.key = k.text) (hk : ∀ k', ¬ LockKey.BothProcedures k' k) :
    s.reaction.Listens y.tab k := by
  obtain ⟨-, hr⟩ := hs.subscribed l y hy s hmem
  obtain ⟨k', hkey', hlistens⟩ := hr.listens hy
  rcases LockKey.eq_of_text (hkey'.symm.trans hkey) with rfl | hboth
  · exact hlistens
  · exact absurd hboth (hk k')

/-! ## Notices -/

/-- What hats listen to: a message to the tab of a block, or a value written to a variable. -/
inductive Notice where
  | message (s : Site) (text : String)
  | write (id : String) (value : Json)

namespace Notice

/-- What is known after a notice: how many took the message, or the value before. -/
def Answer : Notice → Type
  | .message .. => Nat
  | .write .. => Option Json

/-- What a block does to give a notice. -/
def execution : (n : Notice) → Execution n.Answer
  | .message s text => Library.send s text
  | .write id value => Execution.writeVariable id value

/-- The value that is signalled. -/
def value : Notice → Json
  | .message _ text => .str text
  | .write _ value => value

/-- The key of the locks that are signalled. -/
def key : Notice → LockKey
  | .message _ text => .broadcast text
  | .write id _ => .variableWrite id

/-- A hat that listens to a notice: to the message, in its tab, or to the variable, in any tab. -/
def Concerns : Notice → Reaction → Prop
  | .message s text, .start hat =>
    hat.tab = s.tab ∧ hat.block.fieldRef "BROADCAST_OPTION" = text
  | .write id _, .keepAndStart hat | .write id _, .keepAndStartIf hat _ =>
    Library.variableId hat = id
  | _, _ => False

end Notice

/-! ## Runs that hats ask for -/

/-- The run a reaction asks for on a value, as its hat and what the task works on under a context:
the chain after the hat, if it has one. -/
def Reaction.run? (limit : Nat) (x : Json) : Reaction → Option (Site × (Context → Job))
  | .start hat | .keepAndStart hat =>
    (hat.next? limit).map fun next => (hat, fun c => .chain (next.withContext c))
  | .keepAndStartIf hat operator =>
    (hat.next? limit).map fun next => (hat, fun c => .chainIf hat operator x (next.withContext c))
  | _ => none

namespace World

/-- The reactions of a lock, in the order of their subscriptions. -/
def subscribed (w : World) (l : LockId) : List Reaction :=
  ((w.locks.lock? l).map fun y => y.subscriptions.map (·.reaction)).getD []

/-- The task that is started for a run asked for in a state; none if the generation of the hat is
destroyed. -/
def startedFor (w : World) (r : Site × (Context → Job)) : List (TaskId × Job) :=
  if w.isDestroyed r.1.generation.number then [] else [(w.taskCount, r.2 (r.1.context.child w.issued))]

/-- No data link is in place. -/
def Unlinked (w : World) : Prop := ∀ l id asTruth, Reaction.link id asTruth ∉ w.subscribed l

end World

/-- The tasks started for runs, each asked for in a state of its own. -/
def startedRuns (asked : List World) (runs : List (Site × (Context → Job))) :
    List (TaskId × Job) :=
  (List.zipWith World.startedFor asked runs).flatten

/-- A lock that tells its subscriptions a value, in a state, and the states in which they ask for
their runs. -/
structure Firing where
  lock : LockId
  world : World
  asked : List World

namespace Firing

/-- The runs that are asked for, in the order of the subscriptions. -/
def runs (f : Firing) (limit : Nat) (x : Json) : List (Site × (Context → Job)) :=
  (f.world.subscribed f.lock).filterMap (Reaction.run? limit x)

/-- The tasks that are started for these runs. -/
def started (f : Firing) (limit : Nat) (x : Json) : List (TaskId × Job) :=
  startedRuns f.asked (f.runs limit x)

/-- The states of a firing, in order. -/
def states (f : Firing) : List World := f.world :: f.asked

end Firing

/-! ## What signals tell -/

namespace World

theorem mem_subscribed {r : Reaction} :
    r ∈ w.subscribed l ↔
      ∃ y, w.locks.lock? l = some y ∧ ∃ s ∈ y.subscriptions, s.reaction = r := by
  unfold subscribed
  cases w.locks.lock? l with
  | none => simp
  | some y => simp

/-- A signal runs the reactions of all subscriptions: none of the engine has a filter. -/
theorem reactions_deliver (hs : w.view.Sound e) (l : LockId) (x : Json) :
    (w.locks.deliver l x).1.2 = w.subscribed l := by
  unfold subscribed
  cases hy : w.locks.lock? l with
  | none => rw [LockTable.deliver_of_none hy]; rfl
  | some y =>
    rw [LockTable.deliver_of_some hy]
    refine congrArg (List.map _) (List.filter_eq_self.2 fun s hmem => ?_)
    rw [(hs.subscribed l y hy s hmem).1]
    rfl

/-- Only data links listen to the result of a block. -/
theorem subscribed_of_value (hs : w.view.Sound e) (hu : w.Unlinked) {tab block : String}
    (hl : w.view.IsLockOf tab (.value block) l) : w.subscribed l = [] := by
  obtain ⟨y, hy, -, hkey⟩ := hl
  refine List.eq_nil_iff_forall_not_mem.2 fun r hr => ?_
  obtain ⟨y', hy', s, hmem, rfl⟩ := mem_subscribed.1 hr
  obtain rfl := Option.some.inj (hy.symm.trans hy')
  have hlistens := hs.listens hy hmem hkey fun k' h => by cases k' <;> exact h
  cases hreaction : s.reaction with
  | link id asTruth => exact hu l id asTruth (hreaction ▸ hr)
  | _ => rw [hreaction] at hlistens; exact hlistens

end World

/-- The value that a hat keeps is told to nobody. -/
theorem Reaches.of_keep {s : Site} {u : Unit} (hu : ∀ w ∈ ws, w.Unlinked)
    (h : Performs e t v (Engine.keep s valueKey x) ws xs u) : xs = [] := by
  obtain ⟨ws₁, ws₂, xs₁, xs₂, _, rfl, rfl, hstore, -, htell⟩ := h.of_bind
  obtain ⟨w₁, rfl, rfl, -⟩ := hstore.of_change
  have hstored : w₁.added (w₁.storeValue s.generation.number s.id valueKey x) = [] :=
    World.added_of_taskCount ((congrArg View.taskCount (World.view_storeValue ..)).trans
      (View.taskCount_modifyGeneration ..))
  rw [hstored, List.nil_append]
  rw [if_pos rfl] at htell
  obtain ⟨_, htell⟩ := htell.of_answered
  obtain ⟨ws₃, ws₄, xs₃, xs₄, w₂, rfl, rfl, hlook, hgrown, hfound⟩ := htell.of_bind
  obtain ⟨rfl, rfl, hs₂, -⟩ := hlook.of_look
  rw [List.nil_append]
  cases hl : w₂.locks.find? s.generation.tab (LockKey.value s.id).text with
  | none =>
    simp only [hl] at hfound
    exact hfound.of_done.2.1
  | some l =>
    simp only [hl] at hfound
    obtain ⟨a, hsignal⟩ := hfound.of_answered
    obtain ⟨w₃, ws₅, rfl, hs₃, hreactions⟩ := hsignal.of_signalLock
    obtain ⟨-, -, -, hle⟩ := (hgrown w₃ List.mem_cons_self).of_look
    obtain ⟨y, hy, htab, hkey, -⟩ := hs₂.locks.find?_spec hl
    have hlock : w₃.view.IsLockOf s.generation.tab (.value s.id) l :=
      View.IsLockOf.mono ⟨y, hy, htab, hkey⟩ hle
    have hu₃ : w₃.Unlinked :=
      hu w₃ (List.mem_append_right _ (List.mem_append_right _ List.mem_cons_self))
    rw [World.reactions_deliver hs₃, World.subscribed_of_value hs₃ hu₃ hlock] at hreactions
    exact hreactions.of_done.2.1

/-! ## What hats do -/

/-- A reaction of a hat that starts its chain. -/
def Reaction.IsHat : Reaction → Prop
  | .start _ | .keepAndStart _ | .keepAndStartIf .. => True
  | _ => False

/-- Runs are asked for in some of the states, one after the other, and the tasks are those started for
them. -/
def Asked (runs : List (Site × (Context → Job))) (ws : List World) (xs : List (TaskId × Job)) :
    Prop :=
  ∃ asked, asked.Sublist ws ∧ asked.length = runs.length ∧ xs = startedRuns asked runs

namespace Asked

variable {runs runs' : List (Site × (Context → Job))} {ws' : List World}
  {xs' : List (TaskId × Job)}

theorem none (ws : List World) : Asked [] ws [] := ⟨[], List.nil_sublist _, rfl, rfl⟩

theorem one (r : Site × (Context → Job)) (w : World) : Asked [r] [w] (w.startedFor r) :=
  ⟨[w], .refl _, rfl, (List.append_nil _).symm⟩

theorem mono (h : Asked runs ws xs) (hsub : ws.Sublist ws') : Asked runs ws' xs :=
  let ⟨asked, hasked, hrest⟩ := h
  ⟨asked, hasked.trans hsub, hrest⟩

theorem append (h : Asked runs ws xs) (h' : Asked runs' ws' xs') :
    Asked (runs ++ runs') (ws ++ ws') (xs ++ xs') := by
  obtain ⟨asked, hsub, hlength, rfl⟩ := h
  obtain ⟨asked', hsub', hlength', rfl⟩ := h'
  refine ⟨asked ++ asked', hsub.append hsub', ?_, ?_⟩
  · rw [List.length_append, List.length_append, hlength, hlength']
  · unfold startedRuns
    rw [List.zipWith_append hlength, List.flatten_append]

end Asked

namespace Reaches

/-- The start of a task in a new context of a block. -/
theorem of_spawnIn {s : Site} {job : Context → Job} {a : Option TaskId}
    (h : Performs e t v (Execution.spawnIn s job) ws xs a) : Asked [(s, job)] ws xs := by
  obtain ⟨w, rfl, rfl, -⟩ := h.of_atomically
  have hadded : w.added _ = w.startedFor (s, job) :=
    World.added_spawn (w := w.fresh.2) s.generation.number s.description
      (s.context.child w.issued) (job (s.context.child w.issued))
  exact ⟨[w], .refl _, rfl, hadded.trans (List.append_nil _).symm⟩

/-- The chain after a hat is started, if it has one. -/
theorem of_spawnNext {hat : Site} {limit : Nat} {a : Option TaskId}
    (h : Performs e t v (Execution.spawnNext limit hat) ws xs a) :
    Asked ((Reaction.start hat).run? limit x).toList ws xs := by
  unfold Execution.spawnNext at h
  cases hn : hat.next? limit with
  | none =>
    simp only [hn] at h
    obtain ⟨rfl, rfl, -⟩ := h.of_done
    simp only [Reaction.run?, hn]
    exact .none _
  | some next =>
    simp only [hn] at h
    simp only [Reaction.run?, hn]
    exact of_spawnIn h

/-- A hat asks for its run once, if it has a chain. -/
theorem of_react {r : Reaction} {u : Unit} (hr : r.IsHat) (hu : ∀ w ∈ ws, w.Unlinked)
    (h : Performs e t v (e.react x r) ws xs u) :
    Asked (r.run? e.settings.maxDepth x).toList ws xs := by
  cases r with
  | start hat =>
    obtain ⟨a, h⟩ := h.of_answered
    exact of_spawnNext h
  | keepAndStart hat =>
    obtain ⟨ws₁, ws₂, xs₁, xs₂, _, rfl, rfl, hkeep, -, hstart⟩ := h.of_bind
    obtain rfl := hkeep.of_keep fun w hw => hu w (List.mem_append_left _ hw)
    obtain ⟨a, hstart⟩ := hstart.of_answered
    exact (of_spawnNext (x := x) hstart).mono (List.sublist_append_right ..)
  | keepAndStartIf hat operator =>
    obtain ⟨ws₁, ws₂, xs₁, xs₂, _, rfl, rfl, hkeep, -, hstart⟩ := h.of_bind
    obtain rfl := hkeep.of_keep fun w hw => hu w (List.mem_append_left _ hw)
    refine Asked.mono ?_ (List.sublist_append_right ..)
    cases hn : hat.next? e.settings.maxDepth with
    | none =>
      simp only [hn] at hstart
      obtain ⟨rfl, rfl, -⟩ := hstart.of_done
      simp only [Reaction.run?, hn]
      exact .none _
    | some next =>
      simp only [hn] at hstart
      obtain ⟨a, hstart⟩ := hstart.of_answered
      simp only [Reaction.run?, hn]
      exact of_spawnIn hstart
  | _ => exact hr.elim

/-- Hats ask for their runs one after the other. -/
theorem of_reactAll {rs : List Reaction} {u : Unit} (hr : ∀ r ∈ rs, r.IsHat)
    (hu : ∀ w ∈ ws, w.Unlinked) (h : Performs e t v (e.reactAll x rs) ws xs u) :
    Asked (rs.filterMap (Reaction.run? e.settings.maxDepth x)) ws xs := by
  induction rs generalizing ws xs with
  | nil =>
    obtain ⟨rfl, rfl, -⟩ := h.of_done
    exact .none _
  | cons r rs ih =>
    obtain ⟨ws₁, ws₂, xs₁, xs₂, _, rfl, rfl, hfirst, -, hrest⟩ := h.of_bind
    have hfirst := of_react (hr r List.mem_cons_self)
      (fun w hw => hu w (List.mem_append_left _ hw)) hfirst
    have hrest := ih (fun r h => hr r (List.mem_cons_of_mem _ h))
      (fun w hw => hu w (List.mem_append_right _ hw)) hrest
    have hruns : (r :: rs).filterMap (Reaction.run? e.settings.maxDepth x) =
        (r.run? e.settings.maxDepth x).toList ++
          rs.filterMap (Reaction.run? e.settings.maxDepth x) := by
      cases hrun : r.run? e.settings.maxDepth x <;> simp [hrun]
    exact hruns ▸ hfirst.append hrest

/-- A signal whose reactions are hats is a firing. -/
theorem of_signalLock_hats {a : Nat} (hu : ∀ w ∈ ws, w.Unlinked)
    (hr : ∀ w ∈ ws, w.view.Sound e → ∀ r ∈ w.subscribed l, r.IsHat)
    (h : Performs e t v (Execution.signalLock l x) ws xs a) :
    ∃ f : Firing, f.lock = l ∧ f.world.view.Sound e ∧ f.states.Sublist ws ∧
      f.asked.length = (f.runs e.settings.maxDepth x).length ∧
      xs = f.started e.settings.maxDepth x := by
  obtain ⟨w, ws', rfl, hs, hreactions⟩ := h.of_signalLock
  rw [World.reactions_deliver hs] at hreactions
  obtain ⟨asked, hsub, hlength, rfl⟩ := of_reactAll (hr w List.mem_cons_self hs)
    (fun w hw => hu w (List.mem_cons_of_mem _ hw)) hreactions
  exact ⟨⟨l, w, asked⟩, rfl, hs, hsub.cons_cons w, hlength, rfl⟩

/-- Signals of several locks are firings one after the other. -/
theorem of_signalLocks {ls : List LockId} {u : Unit} (hu : ∀ w ∈ ws, w.Unlinked)
    (hr : ∀ l ∈ ls, ∀ w ∈ ws, w.view.Sound e → ∀ r ∈ w.subscribed l, r.IsHat)
    (h : Performs e t v (Execution.signalLocks x ls) ws xs u) :
    ∃ fs : List Firing, fs.map Firing.lock = ls ∧ (∀ f ∈ fs, f.world.view.Sound e) ∧
      (fs.flatMap Firing.states).Sublist ws ∧
      (∀ f ∈ fs, f.asked.length = (f.runs e.settings.maxDepth x).length) ∧
      xs = fs.flatMap (·.started e.settings.maxDepth x) := by
  induction ls generalizing ws xs with
  | nil =>
    obtain ⟨rfl, rfl, -⟩ := h.of_done
    exact ⟨[], rfl, nofun, .slnil, nofun, rfl⟩
  | cons l ls ih =>
    obtain ⟨ws₁, ws₂, xs₁, xs₂, _, rfl, rfl, hfirst, -, hrest⟩ := h.of_bind
    obtain ⟨f, rfl, hs, hstates, hlength, rfl⟩ := hfirst.of_signalLock_hats
      (fun w hw => hu w (List.mem_append_left _ hw))
      fun w hw => hr l List.mem_cons_self w (List.mem_append_left _ hw)
    obtain ⟨fs, rfl, hsound, hstates', hlengths, rfl⟩ := ih
      (fun w hw => hu w (List.mem_append_right _ hw))
      (fun l' hl w hw => hr l' (List.mem_cons_of_mem _ hl) w (List.mem_append_right _ hw)) hrest
    refine ⟨f :: fs, rfl, List.forall_mem_cons.2 ⟨hs, hsound⟩, ?_,
      List.forall_mem_cons.2 ⟨hlength, hlengths⟩, ?_⟩
    · rw [List.flatMap_cons]
      exact hstates.append hstates'
    · rw [List.flatMap_cons]

end Reaches

/-! ## What notices come to -/

/-- What a notice comes to in some states: which locks fire, and the tasks that are started. -/
structure Notice.Fires (n : Notice) (limit : Nat) (looked : World) (fs : List Firing)
    (ws : List World) (xs : List (TaskId × Job)) : Prop where
  /-- The locks are looked for in one state and fire after it, one after the other. -/
  states : (looked :: fs.flatMap Firing.states).Sublist ws
  /-- No lock fires twice. -/
  once : (fs.map Firing.lock).Nodup
  /-- The locks of all hats that the notice concerns fire. -/
  all : ∀ l, ∀ r ∈ looked.subscribed l, n.Concerns r → l ∈ fs.map Firing.lock
  /-- Only hats that the notice concerns are told. -/
  only : ∀ f ∈ fs, ∀ r ∈ f.world.subscribed f.lock, n.Concerns r
  /-- Every hat that has a chain asks for one run of it. -/
  asked : ∀ f ∈ fs, f.asked.length = (f.runs limit n.value).length
  /-- The tasks for these runs are all that is started. -/
  started : xs = fs.flatMap (·.started limit n.value)

namespace Notice

variable {n : Notice} {r : Reaction}

theorem isHat_of_concerns (h : n.Concerns r) : r.IsHat := by
  cases n <;> cases r <;> trivial

/-- Who listens to a lock that a notice signals is a hat that it concerns. -/
theorem concerns_of_lock {tab : String} (hs : w.view.Sound e) (hl : w.view.IsLockOf tab n.key l)
    (htab : ∀ s text, n = .message s text → tab = s.tab) (hr : r ∈ w.subscribed l) :
    n.Concerns r := by
  obtain ⟨y, hy, rfl, hkey⟩ := hl
  obtain ⟨y', hy', s, hmem, rfl⟩ := World.mem_subscribed.1 hr
  obtain rfl := Option.some.inj (hy.symm.trans hy')
  have hlistens := hs.listens hy hmem hkey fun k' h => by
    cases n <;> cases k' <;> exact h
  generalize s.reaction = r at hlistens
  cases n with
  | message s text =>
    cases r with
    | start hat => exact ⟨hlistens.1.trans (htab s text rfl), hlistens.2⟩
    | _ => exact hlistens.elim
  | write id x =>
    cases r with
    | keepAndStart hat | keepAndStartIf hat operator => exact hlistens.2
    | _ => exact hlistens.elim

/-- A hat that a notice concerns listens to a lock that the notice signals. -/
theorem lock_of_concerns (hs : w.view.Sound e) (hr : r ∈ w.subscribed l) (hn : n.Concerns r) :
    ∃ y, w.locks.lock? l = some y ∧ y.key = n.key.text ∧ y.released = false ∧
      ∀ s text, n = .message s text → y.tab = s.tab := by
  obtain ⟨y, hy, s, hmem, rfl⟩ := World.mem_subscribed.1 hr
  have hreleased : y.released = false := by
    cases hrel : y.released with
    | false => rfl
    | true =>
      rw [(hs.locks.ended l y hy hrel).2] at hmem
      exact absurd hmem List.not_mem_nil
  obtain ⟨k, hkey, hlistens⟩ := (hs.subscribed l y hy s hmem).2.listens hy
  generalize s.reaction = r at hlistens hn
  cases n with
  | message s text =>
    cases r with
    | start hat =>
      cases k with
      | broadcast message =>
        refine ⟨y, hy, ?_, hreleased, fun s' text' heq => ?_⟩
        · rw [hkey, ← hlistens.2, hn.2]
          rfl
        · cases heq
          exact hlistens.1.symm.trans hn.1
      | _ => exact hlistens.elim
    | _ => exact hn.elim
  | write id x =>
    cases r with
    | keepAndStart hat | keepAndStartIf hat operator =>
      cases k with
      | variableWrite id' =>
        refine ⟨y, hy, ?_, hreleased, fun _ _ heq => by cases heq⟩
        rw [hkey, ← hlistens.2, hn]
        rfl
      | _ => exact hlistens.elim
    | _ => exact hn.elim

end Notice

namespace Reaches

/-- A message is sent to the one lock of its tab. -/
theorem of_send {s : Site} {text : String} {a : Nat} (hu : ∀ w ∈ ws, w.Unlinked)
    (h : Performs e t v (Library.send s text) ws xs a) :
    ∃ looked fs, (Notice.message s text).Fires e.settings.maxDepth looked fs ws xs := by
  obtain ⟨ws₁, ws₂, xs₁, xs₂, l, rfl, rfl, hobtain, hgrown, hsignal⟩ := h.of_bind
  obtain ⟨w₀, rfl, rfl, hs₀, -, rfl⟩ := hobtain.of_atomically
  have hlock : ∀ w ∈ ws₂, w.view.IsLockOf s.tab (.broadcast text)
      (w₀.locks.obtain s.tab s.id (LockKey.broadcast text).text).1 := fun w hw => by
    obtain ⟨w', hw', -, -, hle, -⟩ := (hgrown w hw).of_atomically
    obtain rfl := (List.cons.inj hw').1
    obtain ⟨y, hy, htab, hkey, -⟩ := hs₀.locks.obtain_spec s.tab s.id (LockKey.broadcast text).text
    exact View.IsLockOf.mono ⟨y, hy, htab, hkey⟩ hle
  have honly : ∀ w ∈ ws₂, w.view.Sound e →
      ∀ r ∈ w.subscribed (w₀.locks.obtain s.tab s.id (LockKey.broadcast text).text).1,
        (Notice.message s text).Concerns r := fun w hw hs r hr =>
    Notice.concerns_of_lock hs (hlock w hw) (fun s' text' heq => by cases heq; rfl) hr
  obtain ⟨f, hf, hs, hstates, hlength, rfl⟩ := hsignal.of_signalLock_hats
    (fun w hw => hu w (List.mem_append_right _ hw))
    fun w hw hs r hr => Notice.isHat_of_concerns (honly w hw hs r hr)
  refine ⟨w₀, [f], ?_, ?_, fun l' r hr hn => ?_, ?_, ?_, ?_⟩
  · simpa using hstates.cons_cons w₀
  · exact List.pairwise_singleton ..
  · obtain ⟨y, hy, hkey, hreleased, htab⟩ := Notice.lock_of_concerns hs₀ hr hn
    have hfind := hs₀.locks.holds l' y hy hreleased
    rw [hkey, htab s text rfl] at hfind
    have hobtained := LockTable.obtain_of_some hfind s.id
    rw [List.map_singleton, List.mem_singleton, hf]
    exact (congrArg Prod.fst hobtained).symm
  · rw [List.forall_mem_singleton, hf]
    exact honly f.world (hstates.subset List.mem_cons_self) hs
  · exact List.forall_mem_singleton.2 hlength
  · have hadded : w₀.added (w₀.withLocks (·.obtain s.tab s.id (LockKey.broadcast text).text)).2 = [] :=
      World.added_of_taskCount rfl
    rw [hadded, List.flatMap_singleton]
    rfl

/-- A write of a variable is told to the locks of all tabs. -/
theorem of_writeVariable {id : String} {a : Option Json} (hu : ∀ w ∈ ws, w.Unlinked)
    (h : Performs e t v (Execution.writeVariable id x) ws xs a) :
    ∃ looked fs, (Notice.write id x).Fires e.settings.maxDepth looked fs ws xs := by
  obtain ⟨ws₁, ws₂, xs₁, xs₂, _, rfl, rfl, hstore, -, hafter⟩ := h.of_bind
  obtain ⟨w₁, rfl, rfl, -⟩ := hstore.of_atomically
  obtain ⟨_, htell⟩ := hafter.of_answered
  obtain ⟨ws₃, ws₄, xs₃, xs₄, w₀, rfl, rfl, hlook, hgrown, hall⟩ := htell.of_bind
  obtain ⟨rfl, rfl, hs₀, -⟩ := hlook.of_look
  obtain ⟨_, hsignals⟩ := hall.of_answered
  have honly : ∀ l ∈ w₀.locks.acrossTabs (LockKey.variableWrite id).text, ∀ w ∈ ws₄,
      w.view.Sound e → ∀ r ∈ w.subscribed l, (Notice.write id x).Concerns r := by
    intro l hl w hw hs r hr
    obtain ⟨y, hy, hkey, -⟩ := hs₀.locks.mem_acrossTabs.1 hl
    obtain ⟨-, -, -, hle⟩ := (hgrown w hw).of_look
    have hlock : w.view.IsLockOf y.tab (.variableWrite id) l :=
      View.IsLockOf.mono ⟨y, hy, rfl, hkey⟩ hle
    exact Notice.concerns_of_lock hs hlock (fun _ _ heq => by cases heq) hr
  obtain ⟨fs, hlocks, hsound, hstates, hlengths, rfl⟩ := hsignals.of_signalLocks
    (fun w hw => hu w (List.mem_append_right _ (List.mem_append_right _ hw)))
    fun l hl w hw hs r hr => Notice.isHat_of_concerns (honly l hl w hw hs r hr)
  refine ⟨w₀, fs, ?_, ?_, fun l r hr hn => ?_, fun f hf => ?_, hlengths, ?_⟩
  · exact (hstates.cons_cons w₀).trans (List.sublist_append_right ..)
  · exact hlocks ▸ hs₀.locks.nodup_acrossTabs _
  · obtain ⟨y, hy, hkey, hreleased, -⟩ := Notice.lock_of_concerns hs₀ hr hn
    exact hlocks ▸ hs₀.locks.mem_acrossTabs.2 ⟨y, hy, hkey, hreleased⟩
  · refine honly f.lock (hlocks ▸ List.mem_map_of_mem hf) f.world ?_ (hsound f hf)
    exact hstates.subset (List.mem_flatMap.2 ⟨f, hf, List.mem_cons_self⟩)
  · have hstored : w₁.added { w₁ with vars := w₁.vars.write id x } = [] :=
      World.added_of_taskCount rfl
    rw [hstored]
    rfl

/-- Every notice that comes to its end fires. -/
theorem of_notice {n : Notice} {a : n.Answer} (hu : ∀ w ∈ ws, w.Unlinked)
    (h : Performs e t v n.execution ws xs a) :
    ∃ looked fs, n.Fires e.settings.maxDepth looked fs ws xs := by
  cases n with
  | message s text => exact of_send hu h
  | write id x => exact of_writeVariable hu h

end Reaches

/-! ## Notices never wait -/

namespace World.Unlinked

variable {w' : World}

theorem of_locks (h : w.Unlinked) (hlocks : w'.locks = w.locks) : w'.Unlinked := fun l id b hr => by
  unfold World.subscribed at hr
  rw [hlocks] at hr
  exact h l id b hr

theorem deliver (h : w.Unlinked) (l : LockId) (x : Json) : (w.deliver l x).2.Unlinked := by
  intro l' id b hr
  obtain ⟨y', hy', s, hmem, hs⟩ := mem_subscribed.1 hr
  have hlocks : (w.deliver l x).2.locks = (w.locks.deliver l x).2 :=
    congrArg View.locks (view_deliver w l x)
  rw [hlocks] at hy'
  obtain ⟨y, hy, value, waiters, rfl, -⟩ := LockTable.lock?_deliver hy'
  exact h l' id b (mem_subscribed.2 ⟨y, hy, s, hmem, hs⟩)

theorem obtain (h : w.Unlinked) (tab owner key : String) :
    (w.withLocks (·.obtain tab owner key)).2.Unlinked := by
  intro l id b hr
  obtain ⟨y, hy, s, hmem, hs⟩ := mem_subscribed.1 hr
  rcases LockTable.lock?_obtain hy with hy | rfl
  · exact h l id b (mem_subscribed.2 ⟨y, hy, s, hmem, hs⟩)
  · exact absurd hmem List.not_mem_nil

theorem spawn (h : w.Unlinked) (n : Nat) (d : String) (c : Context) (j : Job) :
    (w.spawn n d c j).2.Unlinked :=
  h.of_locks ((congrArg View.locks (view_spawn w n d c j)).trans (View.locks_spawn ..))

theorem storeValue (h : w.Unlinked) (n : Nat) (block key : String) (x : Json) :
    (w.storeValue n block key x).Unlinked :=
  h.of_locks ((congrArg View.locks (view_storeValue w n block key x)).trans
    (View.locks_modifyGeneration ..))

end World.Unlinked

namespace Prompt

theorem signalLock
    (hr : ∀ w : World, v ≤ w.view → w.view.Sound e → w.Unlinked →
      Prompt e t World.Unlinked (w.deliver l x).2.view (e.reactAll x (w.subscribed l))) :
    Prompt e t World.Unlinked v (Execution.signalLock l x) := by
  refine .step _ (fun w => (w.deliver l x).2)
    (fun w _ hs hu => ⟨Engine.step_signal e t w l x .done, ?_, hu.deliver l x⟩)
    fun w hw hs hu => ?_
  · rw [World.view_deliver]
    exact View.le_withLocks (.deliver ..)
  · refine Prompt.bind ?_ fun _ _ _ => .done
    rw [World.reactions_deliver hs]
    exact hr w hw hs hu

theorem spawnIn (s : Site) (job : Context → Job) :
    Prompt e t World.Unlinked v (Execution.spawnIn s job) := by
  refine .atomically fun w hs hu => ⟨?_, ?_⟩
  · have hview := World.view_spawn w.fresh.2 s.generation.number s.description
      (s.context.child w.issued) (job (s.context.child w.issued))
    refine View.le_trans (View.le_draw (Nat.le_succ _)) (hview ▸ View.le_spawn ?_ ..)
    exact hs.tasksNumbered
  · exact (hu.of_locks rfl : w.fresh.2.Unlinked).spawn _ _ _ _

theorem spawnNext (limit : Nat) (hat : Site) :
    Prompt e t World.Unlinked v (Execution.spawnNext limit hat) := by
  unfold Execution.spawnNext
  cases hat.next? limit with
  | none => exact .done
  | some next => exact spawnIn ..

theorem keep (s : Site) (x : Json) :
    Prompt e t World.Unlinked v (Engine.keep s valueKey x) := by
  refine Prompt.bind (.change fun w _ hu => ⟨?_, hu.storeValue _ _ _ _⟩) fun v₁ _ _ => ?_
  · rw [World.view_storeValue]
    exact View.KeepsTasks_le (GenerationState.keepsTasks_store s.id valueKey x) _ _
  · rw [if_pos rfl]
    refine Prompt.bind (.look fun w _ hs _ => ?_) fun _ _ _ => .done
    cases hl : w.locks.find? s.generation.tab (LockKey.value s.id).text with
    | none => exact .done
    | some l =>
      refine Prompt.bind (signalLock fun w₁ hle hs₁ hu₁ => ?_) fun _ _ _ => .done
      obtain ⟨y, hy, htab, hkey, -⟩ := hs.locks.find?_spec hl
      have hlock : w₁.view.IsLockOf s.generation.tab (.value s.id) l :=
        View.IsLockOf.mono ⟨y, hy, htab, hkey⟩ hle
      rw [World.subscribed_of_value hs₁ hu₁ hlock]
      exact .done

theorem react {r : Reaction} (hr : r.IsHat) : Prompt e t World.Unlinked v (e.react x r) := by
  cases r with
  | start hat => exact (spawnNext ..).bind fun _ _ _ => .done
  | keepAndStart hat =>
    exact (keep hat x).bind fun _ _ _ => (spawnNext ..).bind fun _ _ _ => .done
  | keepAndStartIf hat operator =>
    refine (keep hat x).bind fun _ _ _ => ?_
    cases hat.next? e.settings.maxDepth with
    | none => exact .done
    | some next => exact (spawnIn ..).bind fun _ _ _ => .done
  | _ => exact hr.elim

theorem reactAll {rs : List Reaction} (hr : ∀ r ∈ rs, r.IsHat) :
    Prompt e t World.Unlinked v (e.reactAll x rs) := by
  induction rs generalizing v with
  | nil => exact .done
  | cons r rs ih =>
    exact (react (hr r List.mem_cons_self)).bind fun _ _ _ =>
      ih fun r' hr' => hr r' (List.mem_cons_of_mem _ hr')

/-- The lock of a notice is signalled to hats only. -/
theorem signal_notice {n : Notice} {tab : String} (hl : v.IsLockOf tab n.key l)
    (htab : ∀ s text, n = .message s text → tab = s.tab) :
    Prompt e t World.Unlinked v (Execution.signalLock l x) :=
  signalLock fun _ hle hs _ => reactAll fun _ hr =>
    Notice.isHat_of_concerns (Notice.concerns_of_lock hs (hl.mono hle) htab hr)

theorem signalLocks (id : String) {ls : List LockId}
    (hl : ∀ l ∈ ls, ∃ tab, v.IsLockOf tab (.variableWrite id) l) :
    Prompt e t World.Unlinked v (Execution.signalLocks x ls) := by
  induction ls generalizing v with
  | nil => exact .done
  | cons l ls ih =>
    obtain ⟨tab, hlock⟩ := hl l List.mem_cons_self
    have hfirst : Prompt e t World.Unlinked v (Execution.signalLock l x) :=
      signal_notice (n := .write id x) hlock fun _ _ h => by cases h
    refine hfirst.bind fun v' _ hle => ih fun l' hl' => ?_
    obtain ⟨tab', hlock'⟩ := hl l' (List.mem_cons_of_mem _ hl')
    exact ⟨tab', hlock'.mono hle⟩

theorem send (s : Site) (text : String) :
    Prompt e t World.Unlinked v (Library.send s text) := by
  refine .act (fun w _ _ hu => ⟨View.le_withLocks (.obtain ..), hu.obtain _ _ _⟩) fun w _ hs _ => ?_
  obtain ⟨y, hy, htab, hkey, -⟩ := hs.locks.obtain_spec s.tab s.id (LockKey.broadcast text).text
  exact signal_notice (n := .message s text) ⟨y, hy, htab, hkey⟩ fun _ _ h => by cases h; rfl

theorem writeVariable (id : String) (x : Json) :
    Prompt e t World.Unlinked v (Execution.writeVariable id x) := by
  have hstore : Prompt e t World.Unlinked v (Execution.atomically fun w =>
      (w.vars.value? id, { w with vars := w.vars.write id x })) :=
    .atomically fun w _ hu => ⟨View.le_refl w.view, hu.of_locks rfl⟩
  have htell : ∀ v', Prompt e t World.Unlinked v'
      (Execution.signalAllTabs (LockKey.variableWrite id).text x) := fun v' => by
    unfold Execution.signalAllTabs
    refine .look fun w _ hs _ => ?_
    refine (signalLocks id fun l hl => ?_).bind fun _ _ _ => .done
    obtain ⟨y, hy, hkey, -⟩ := hs.locks.mem_acrossTabs.1 hl
    exact ⟨y.tab, y, hy, rfl, hkey⟩
  exact hstore.bind fun v' _ _ => (htell v').bind fun _ _ _ => .done

/-- Whoever gives a notice never waits. -/
theorem notice (n : Notice) : Prompt e t World.Unlinked v n.execution := by
  cases n with
  | message s text => exact send s text
  | write id x => exact writeVariable id x

end Prompt

/-! ## Hats of a run -/

/-- Keys of different kinds or ids have different texts, but for procedures of one hash. Whoever gives
a notice comes to the end of it, if nobody else moves; and in every run in which it has come to the
end of it, in whatever order the others moved, every hat that listened has started one run of its
chain, and no other hat has. -/
theorem Run.hats_fire (he : e.HasCore) {capacity : Nat} (hbefore : Run e (.start capacity) log₀ m)
    {n : Notice} {k : n.Answer → Execution Unit} (hthread : m.threads[t]? = some (n.execution.bind k)) :
    (∀ k k' : LockKey, k.text = k'.text → k = k' ∨ LockKey.BothProcedures k k') ∧
    (m.world.Unlinked → ∃ log m' a, Run e m log m' ∧
      (∀ d ∈ log, ∃ q w, d = .performed t q w ∧ w.Unlinked) ∧
      e.replay t n.execution (Deed.statesOf t log) = some (.done a)) ∧
    ∀ log m' a, Run e m log m' → (∀ w, Deed.dropped t w ∉ log) →
      (∀ w ∈ Deed.statesOf t log, w.Unlinked) →
      e.replay t n.execution (Deed.statesOf t log) = some (.done a) →
      ∃ looked fs, n.Fires e.settings.maxDepth looked fs (Deed.statesOf t log)
        (Deed.started e t log) := by
  have horderly := Engine.orderly_of_core he
  obtain ⟨φ, ψ, hc⟩ := Conducted.run horderly hbefore
  refine ⟨fun k k' => LockKey.eq_of_text, fun hu => ?_, fun log m' a hrun hdrop hu hdone => ?_⟩
  · exact (Prompt.notice n).run horderly hc (View.le_refl _) hu hthread
  · exact (hrun.performs horderly hc hthread hdrop hdone).of_notice hu

/-- A root block that is a broadcast of a literal message gives its notice in its first step. -/
theorem Engine.step_work_broadcast (he : e.HasCore) {s : Site} {text : Json}
    (hop : s.block.opcode = ⟨"event", "broadcast"⟩)
    (hinput : ExceptT.run (s.input e.environment "BROADCAST_INPUT" .reference) = .done (.ok text))
    (t : TaskId) (w : World) :
    ∃ k, e.step t w (e.work (.root s)) =
      some ((Notice.message s text.toText).execution.bind k, w) := by
  have hkind : e.registry.kind? s.block.opcode = some .command := by
    rw [he, hop]
    rfl
  have hlookup : e.lookup s = .ok ⟨"broadcast", .command Library.broadcast, []⟩ := by
    unfold Engine.lookup
    rw [he, hop]
    rfl
  have hbroadcast : ExceptT.run (Library.broadcast e.environment s) =
      (Library.send s text.toText).bind fun _ => .done (.ok .proceed) := by
    unfold Library.broadcast
    change (ExceptT.run (s.input e.environment "BROADCAST_INPUT" .reference)).bind _ = _
    rw [hinput]
    rfl
  have hturn : ∃ k, ExceptT.run (e.chainTurn [] s) =
      (ExceptT.run (Library.broadcast e.environment s)).bind k := by
    unfold chainTurn
    rw [show ([] : List String).contains s.id = false from rfl, hlookup]
    change ∃ k, ((ExceptT.run (Library.broadcast e.environment s)).bind _).bind _ = _
    rw [Execution.bind_assoc]
    exact ⟨_, rfl⟩
  obtain ⟨k, hk⟩ := hturn
  refine ⟨fun _ => (k (.ok .proceed)).bind (afterTurn (afterRoot s)), ?_⟩
  rw [step_work_root (by rw [hkind]; exact nofun), hk, hbroadcast, Execution.bind_assoc,
    Execution.bind_assoc]
  rfl

namespace Script

/-- A tab with two hats for the message that its command broadcasts, and one for another message. -/
def soundings : String :=
  let hat (id message next : String) := block id "event_gotbroadcast"
    ("\"topLevel\":true,\"fields\":\x7b\"BROADCAST_OPTION\":[\"" ++ message ++ "\",null]\x7d," ++
      "\"next\":\"" ++ next ++ "\"")
  let stop (id parent : String) := block id "control_stop"
    ("\"topLevel\":false,\"parent\":\"" ++ parent ++ "\"")
  document [
    hat "1" "go" "4", hat "2" "halt" "5", hat "3" "go" "6",
    stop "4" "1", stop "5" "2", stop "6" "3",
    block "7" "event_broadcast"
      "\"topLevel\":true,\"inputs\":\x7b\"BROADCAST_INPUT\":[1,[11,\"go\",\"go\"]]\x7d"]

/-- The hats of the tab get ready, then the command is there as task 4. -/
def untilReady : List Line :=
  [.call 0 (.save "main" soundings), .perform 0 100, .begin 1, .perform 1 100, .begin 2,
    .perform 2 100, .begin 3, .perform 3 100, .finish 1, .finish 2, .finish 3, .perform 0 100]

/-- The broadcast that a task which has not begun will give, with its message. -/
def sending? (m : Machine) (t : TaskId) : Option (Site × Json) :=
  match m.liveJob? t with
  | some (.root s) =>
    match ExceptT.run (s.input engine.environment "BROADCAST_INPUT" .reference) with
    | .done (.ok text) =>
      if s.block.opcode = ⟨"event", "broadcast"⟩ ∧ (m.threads[t]?).isNone then some (s, text)
      else none
    | _ => none
  | _ => none

theorem sending?_spec {m : Machine} {s : Site} {text : Json} (h : sending? m t = some (s, text)) :
    m.world.IsLive t (.root s) ∧ m.threads[t]? = none ∧
      s.block.opcode = ⟨"event", "broadcast"⟩ ∧
      ExceptT.run (s.input engine.environment "BROADCAST_INPUT" .reference) = .done (.ok text) := by
  unfold sending? at h
  split at h
  · next hjob =>
    split at h
    · next hinput =>
      split at h
      · next hs =>
        obtain ⟨rfl, rfl⟩ := Prod.mk.inj (Option.some.inj h)
        exact ⟨Machine.isLive_of_liveJob? hjob, Option.isNone_iff_eq_none.1 hs.2, hs.1, hinput⟩
      · cases h
    · cases h
  · cases h

/-- The machine after the first step of a task. -/
def entered (m : Machine) (t : TaskId) (j : Job) : Machine :=
  (Machine.performAll engine t 1 ⟨m.world, m.threads.insert t (engine.work j)⟩).2

/-- The first step of the task leads to the broadcast. -/
theorem run_entered {m : Machine} {s : Site} {text : Json} (h : sending? m t = some (s, text)) :
    ∃ log k, Run engine m log (entered m t (.root s)) ∧
      (entered m t (.root s)).threads[t]? =
        some ((Notice.message s text.toText).execution.bind k) := by
  obtain ⟨hlive, hresting, hop, hinput⟩ := sending?_spec h
  obtain ⟨k, hstep⟩ := Engine.step_work_broadcast (e := engine) rfl hop hinput t m.world
  have hbegin : Run engine m [] ⟨m.world, m.threads.insert t (engine.work (.root s))⟩ :=
    .single (.begin hlive hresting)
  refine ⟨_, k, hbegin.trans (Run.of_performAll engine t 1 _), ?_⟩
  simp [entered, Machine.performAll, hstep]

/-- Whether no data link is in place. -/
def isUnlinked (w : World) : Bool :=
  w.locks.locks.all fun y => y.subscriptions.all fun s =>
    match s.reaction with
    | .link .. => false
    | _ => true

theorem unlinked_of_isUnlinked {w : World} (h : isUnlinked w = true) : w.Unlinked := by
  intro l id b hr
  obtain ⟨y, hy, s, hmem, hs⟩ := World.mem_subscribed.1 hr
  have hlock := List.all_eq_true.1 h y (List.mem_of_getElem? hy)
  have hsub := List.all_eq_true.1 hlock s hmem
  rw [hs] at hsub
  cases hsub

/-- Whether a task has come to the end of a broadcast and has started two tasks. -/
def isSent (t : TaskId) (s : Site) (text : Json) (log : List Deed) : Bool :=
  log.all (!·.isDrop) && (Deed.statesOf t log).all isUnlinked &&
    (match engine.replay t (Notice.message s text.toText).execution (Deed.statesOf t log) with
      | some (.done _) => true
      | _ => false) &&
    decide ((Deed.started engine t log).length = 2)

theorem run_soundings :
    ∃ log₀ m s text log m', Run engine (.start 10) log₀ m ∧ sending? m 4 = some (s, text) ∧
      Run engine (entered m 4 (.root s)) log m' ∧ isSent 4 s text log = true := by
  obtain ⟨log₀, m, hrun, hf⟩ := Run.of_playAll_any (e := engine) (m := .start 10) untilReady
    (f := fun _ m => (sending? m 4).any fun (s, text) =>
      ((entered m 4 (.root s)).playAll engine [.perform 4 4]).any fun r => isSent 4 s text r.1)
    (by decide +kernel)
  obtain ⟨⟨s, text⟩, hs, hf⟩ := (Option.any_eq_true _ _).1 hf
  obtain ⟨log, m', hrun', hf⟩ :=
    Run.of_playAll_any [.perform 4 4] (f := fun log _ => isSent 4 s text log) hf
  exact ⟨log₀, m, s, text, log, m', hrun, hs, hrun', hf⟩

end Script

/-- Of three hats the two that listen to the message start their chains. -/
theorem hats_fire_two_of_three :
    ∃ log₀ m t, ∃ n : Notice, ∃ k log m' a looked fs, Run Script.engine (.start 10) log₀ m ∧
      m.threads[t]? = some (n.execution.bind k) ∧ Run Script.engine m log m' ∧
      (∀ w, Deed.dropped t w ∉ log) ∧ (∀ w ∈ Deed.statesOf t log, w.Unlinked) ∧
      Script.engine.replay t n.execution (Deed.statesOf t log) = some (.done a) ∧
      n.Fires Script.engine.settings.maxDepth looked fs (Deed.statesOf t log)
        (Deed.started Script.engine t log) ∧
      (Deed.started Script.engine t log).length = 2 := by
  obtain ⟨log₀, m, s, text, log, m', hbefore, hsending, hrun, hsent⟩ := Script.run_soundings
  obtain ⟨log₁, k, hentered, hthread⟩ := Script.run_entered hsending
  simp only [Script.isSent, Bool.and_eq_true, decide_eq_true_eq] at hsent
  obtain ⟨⟨⟨hkept, hunlinked⟩, hdone⟩, hstarted⟩ := hsent
  have hdrop : ∀ w, Deed.dropped 4 w ∉ log := fun w hw => by
    have := List.all_eq_true.1 hkept _ hw
    simp [Deed.isDrop] at this
  have hlinks : ∀ w ∈ Deed.statesOf 4 log, w.Unlinked := fun w hw =>
    Script.unlinked_of_isUnlinked (List.all_eq_true.1 hunlinked w hw)
  obtain ⟨a, hdone⟩ : ∃ a, Script.engine.replay 4 (Notice.message s text.toText).execution
      (Deed.statesOf 4 log) = some (.done a) := by
    split at hdone
    · next a heq => exact ⟨a, heq⟩
    · cases hdone
  obtain ⟨looked, fs, hfires⟩ := (Run.hats_fire (e := Script.engine) rfl (hbefore.trans hentered)
    hthread).2.2 log m' a hrun hdrop hlinks hdone
  exact ⟨_, _, 4, _, k, log, m', a, looked, fs, hbefore.trans hentered, hthread, hrun, hdrop, hlinks,
    hdone, hfires, hstarted⟩

end BlockEngine
