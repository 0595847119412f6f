import BlockEngine.Change
import BlockEngine.Ident

/-!
# Locks

A lock is a named meeting point of a tab: waiters receive the next value they accept, subscriptions
react to every value they accept, both in the order they came. `ρ` is what a subscription does.

* `LockTable.obtain`, `find?` : the lock of a tab and a key;
* `register`, `subscribe`, `unsubscribe` : taking part in a lock;
* `deliver` : store a value, serve the waiters, collect the reactions to run;
* `release`, `releaseAll` : end the locks of a tab, or of all tabs.

A lock keeps its number for ever: a holder of the number of a released lock still sees it. A waiter
has a mailbox of its own, which is served once and disappears when its owner gives up.
-/

namespace BlockEngine

/-- A test of signalled values. -/
inductive SignalFilter where
  | all
  | change (f : ChangeFilter)
  /-- A reply that carries this call id. -/
  | callId (id : String)
  /-- A test of the one who takes part. -/
  | test (holds : Json → Bool)

def SignalFilter.accepts (f : SignalFilter) (v : Json) : Bool :=
  match f with
  | .all => true
  | .change f => f.accepts v
  | .callId id => ((v.get? "call_id").bind Json.str?) = some id
  | .test holds => holds v

/-- What a waiter receives. -/
inductive Delivery where
  | value (v : Json)
  | released

abbrev LockId := Nat
abbrev MailboxId := Nat
abbrev SubscriptionId := Nat

structure Waiter where
  filter : SignalFilter
  mailbox : MailboxId

structure Subscription (ρ : Type) where
  id : SubscriptionId
  filter : SignalFilter
  reaction : ρ

/-- A lock. `value` is the last one signalled; `issued` counts the subscriptions ever made. -/
structure Lock (ρ : Type) where
  tab : String
  owner : String
  key : String
  value : Json
  waiters : List Waiter
  subscriptions : List (Subscription ρ)
  issued : Nat
  released : Bool

/-- A lock after its end: nobody takes part any more. -/
def Lock.ended {ρ : Type} (l : Lock ρ) : Lock ρ :=
  { l with released := true, waiters := [], subscriptions := [] }

/-- The mailbox of a waiter: empty, or with what was delivered. -/
structure Mailbox where
  id : MailboxId
  content : Option Delivery

/-- All locks ever made, those that tabs hold now by tab and key, and the mailboxes. -/
structure LockTable (ρ : Type) where
  locks : List (Lock ρ)
  held : Keyed (Keyed LockId)
  mailboxes : List Mailbox
  issued : Nat

namespace LockTable

variable {ρ : Type}

def empty : LockTable ρ := ⟨[], [], [], 0⟩

def lock? (t : LockTable ρ) (l : LockId) : Option (Lock ρ) := t.locks[l]?

/-- Change one lock. -/
def modify (t : LockTable ρ) (l : LockId) (f : Lock ρ → Lock ρ) : LockTable ρ :=
  { t with locks := t.locks.modify l f }

/-! ## The locks of a tab -/

/-- The keys and locks a tab holds. -/
def ofTab (t : LockTable ρ) (tab : String) : Keyed LockId := (Keyed.get? tab t.held).getD []

/-- The lock a tab holds under a key. -/
def find? (t : LockTable ρ) (tab key : String) : Option LockId := Keyed.get? key (t.ofTab tab)

/-- The lock of a tab and a key, made for `owner` if there is none. -/
def obtain (t : LockTable ρ) (tab owner key : String) : LockId × LockTable ρ :=
  match t.find? tab key with
  | some l => (l, t)
  | none =>
    let l := t.locks.length
    (l, { t with
          locks := t.locks ++ [⟨tab, owner, key, .null, [], [], 0, false⟩]
          held := Keyed.insert tab (Keyed.insert key l (t.ofTab tab)) t.held })

/-- The locks that all tabs hold under a key. -/
def acrossTabs (t : LockTable ρ) (key : String) : List LockId :=
  t.held.filterMap fun p => Keyed.get? key p.2

/-! ## Mailboxes -/

def mailbox? (t : LockTable ρ) (m : MailboxId) : Option Mailbox :=
  t.mailboxes.find? (·.id = m)

/-- Whether the owner of a mailbox still waits for it to be served. -/
def isPending (t : LockTable ρ) (m : MailboxId) : Bool :=
  t.mailboxes.any fun b => b.id = m && b.content.isNone

/-- Put a delivery into a mailbox. -/
def serve (t : LockTable ρ) (m : MailboxId) (d : Delivery) : LockTable ρ :=
  { t with
    mailboxes := t.mailboxes.map fun b => if b.id = m then { b with content := some d } else b }

/-- Take a mailbox away, as its owner does who has read it or gives up. -/
def close (t : LockTable ρ) (m : MailboxId) : LockTable ρ :=
  { t with mailboxes := t.mailboxes.filter (·.id ≠ m) }

/-! ## Taking part -/

/-- Register a waiter. On a released lock it is served at once. -/
def register (t : LockTable ρ) (l : LockId) (filter : SignalFilter) : MailboxId × LockTable ρ :=
  let m := t.issued
  let t : LockTable ρ := { t with issued := m + 1 }
  match t.lock? l with
  | some lock =>
    if lock.released then (m, { t with mailboxes := t.mailboxes ++ [⟨m, some .released⟩] })
    else
      let t : LockTable ρ := { t with mailboxes := t.mailboxes ++ [⟨m, none⟩] }
      (m, t.modify l fun lock =>
        { lock with waiters := lock.waiters.filter (t.isPending ·.mailbox) ++ [⟨filter, m⟩] })
  | none => (m, t)

/-- Register a reaction to every accepted value. A released lock numbers it but never keeps it. -/
def subscribe (t : LockTable ρ) (l : LockId) (filter : SignalFilter) (reaction : ρ) :
    SubscriptionId × LockTable ρ :=
  let id := ((t.lock? l).map (·.issued)).getD 0 + 1
  (id, t.modify l fun lock =>
    { lock with
      issued := id
      subscriptions :=
        if lock.released then lock.subscriptions
        else lock.subscriptions ++ [⟨id, filter, reaction⟩] })

/-- Remove a subscription; whether it was there. -/
def unsubscribe (t : LockTable ρ) (l : LockId) (id : SubscriptionId) : Bool × LockTable ρ :=
  (((t.lock? l).map fun lock => lock.subscriptions.any (·.id = id)).getD false,
    t.modify l fun lock => { lock with subscriptions := lock.subscriptions.filter (·.id ≠ id) })

/-! ## Signals -/

/-- The waiters of a lock that a value wakes: still waiting, and accepting it. -/
def woken (t : LockTable ρ) (lock : Lock ρ) (v : Json) : List MailboxId :=
  ((lock.waiters.filter fun w => t.isPending w.mailbox && w.filter.accepts v)).map (·.mailbox)

/-- Store a value and serve every waiter that accepts it. The answer names the mailboxes served
and the reactions of the accepting subscriptions, both in order. -/
def deliver (t : LockTable ρ) (l : LockId) (v : Json) :
    (List MailboxId × List ρ) × LockTable ρ :=
  match t.lock? l with
  | none => (([], []), t)
  | some lock =>
    let woken := t.woken lock v
    let reactions := (lock.subscriptions.filter (·.filter.accepts v)).map (·.reaction)
    let waiters := lock.waiters.filter fun w => t.isPending w.mailbox && !w.filter.accepts v
    let t := t.modify l fun lock => { lock with value := v, waiters }
    ((woken, reactions), woken.foldl (fun t m => t.serve m (.value v)) t)

/-! ## Release -/

/-- End one lock: its waiters see a release, its subscriptions are gone. -/
def releaseLock (t : LockTable ρ) (l : LockId) : List MailboxId × LockTable ρ :=
  match t.lock? l with
  | none => ([], t)
  | some lock =>
    let woken := (lock.waiters.filter (t.isPending ·.mailbox)).map (·.mailbox)
    let t := t.modify l Lock.ended
    (woken, woken.foldl (fun t m => t.serve m .released) t)

/-- End locks one after the other. -/
def releaseLocks (t : LockTable ρ) : List LockId → List MailboxId × LockTable ρ
  | [] => ([], t)
  | l :: rest =>
    let (woken, t) := t.releaseLock l
    let (more, t) := t.releaseLocks rest
    (woken ++ more, t)

/-- End every lock of a tab. -/
def release (t : LockTable ρ) (tab : String) : List MailboxId × LockTable ρ :=
  { t with held := Keyed.erase tab t.held }.releaseLocks (Keyed.values (t.ofTab tab))

/-- End every lock of every tab. -/
def releaseAll (t : LockTable ρ) : List MailboxId × LockTable ρ :=
  let all := t.held.flatMap fun (p : String × Keyed LockId) => Keyed.values p.2
  { t with held := [] }.releaseLocks all

/-! ## Counts -/

def lockCount (t : LockTable ρ) (tab : String) : Nat := (t.ofTab tab).length

/-- The waiters of a lock that still wait. -/
def waiterCount (t : LockTable ρ) (l : LockId) : Nat :=
  ((t.lock? l).map fun lock => (lock.waiters.filter (t.isPending ·.mailbox)).length).getD 0

def subscriberCount (t : LockTable ρ) (l : LockId) : Nat :=
  ((t.lock? l).map (·.subscriptions.length)).getD 0

end LockTable
end BlockEngine
