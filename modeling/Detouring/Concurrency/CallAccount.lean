-- The calls that run through one chain of hooks, and the update that may be changing it. An
-- update first claims the chain and then waits until only calls of its own thread are inside;
-- new calls wait for the update, unless their thread is inside already.
import Detouring.Concurrency.Waitable

namespace Detouring

structure CallAccount where
  /-- The calls inside the chain, of all threads. -/
  active : Nat := 0
  /-- The thread whose update has claimed the chain. -/
  updater : Option ThreadId := none
  /-- The calls that each thread has open. -/
  depth : ThreadId → Nat := fun _ => 0

/-- What a thread can ask of an account. -/
inductive CallRequest where
  /-- Run a call through the chain. -/
  | enter
  /-- Claim the chain for an update. -/
  | claim
  /-- Wait until the calls of other threads have left. -/
  | drain
  /-- Wait until an update has claimed the chain. -/
  | watch
deriving DecidableEq

namespace CallAccount

def isUpdating (a : CallAccount) : Bool := a.updater.isSome

def setDepth (a : CallAccount) (t : ThreadId) (n : Nat) : ThreadId → Nat :=
  fun u => if u = t then n else a.depth u

/-- Opens a call, unless an update of another thread must be waited out. The updating thread
itself is turned away, for it would wait for ever. -/
def enter (a : CallAccount) (t : ThreadId) : CallAccount × Attempt CallRequest :=
  match a.updater with
  | none => ({ a with active := a.active + 1, depth := a.setDepth t (a.depth t + 1) }, .granted)
  | some u =>
    if u = t then (a, .refused .updateReentry)
    else if 0 < a.depth t then
      ({ a with active := a.active + 1, depth := a.setDepth t (a.depth t + 1) }, .granted)
    else (a, .waits .enter)

/-- Grants an update once only calls of its own thread are left. -/
def drain (a : CallAccount) (t : ThreadId) : CallAccount × Attempt CallRequest :=
  if a.active ≤ a.depth t then (a, .granted) else (a, .waits .drain)

/-- Claims the chain for an update of the thread. -/
def claim (a : CallAccount) (t : ThreadId) : CallAccount × Attempt CallRequest :=
  match a.updater with
  | none => { a with updater := some t }.drain t
  | some u => if u = t then (a, .refused (.state .nestedUpdate)) else (a, .waits .claim)

/-- Lets on once the chain is claimed. -/
def watch (a : CallAccount) : CallAccount × Attempt CallRequest :=
  (a, if a.isUpdating then .passed else .waits .watch)

/-- Closes a call of the thread. -/
def leave (a : CallAccount) (t : ThreadId) : CallAccount :=
  { a with active := a.active - 1, depth := a.setDepth t (a.depth t - 1) }

def endUpdate (a : CallAccount) : CallAccount := { a with updater := none }

instance : Waitable CallAccount CallRequest where
  attempt a t
    | .enter => a.enter t
    | .claim => a.claim t
    | .drain => a.drain t
    | .watch => a.watch
  release a t
    | .enter => a.leave t
    | .claim | .drain => a.endUpdate
    | .watch => a

/-! ## Laws -/

/-- A request that is turned away changes nothing. -/
theorem enter_of_refused {a : CallAccount} {t : ThreadId} {e : Fault}
    (h : (a.enter t).2 = .refused e) : (a.enter t).1 = a := by
  unfold enter at h ⊢
  split at h
  · cases h
  · split at h
    · rename_i same; simp [same]
    · split at h <;> cases h

theorem claim_of_refused {a : CallAccount} {t : ThreadId} {e : Fault}
    (h : (a.claim t).2 = .refused e) : (a.claim t).1 = a := by
  unfold claim at h ⊢
  split at h
  · unfold drain at h
    split at h <;> cases h
  · split at h
    · rename_i same; simp [same]
    · cases h

end CallAccount

end Detouring
