-- Several threads that share numbered resources, one step at a time. A task that is handed over
-- to its thread may wait there while other threads go on; joining the thread gives its outcome.
-- What a request was granted is kept under a name of the thread's own.
import Detouring.Concurrency.Waitable

namespace Detouring

/-! ## Tasks -/

/-- Something a thread holds: which request was granted, for which resource. -/
structure Holding (ω : Type) where
  thread : ThreadId
  name : String
  request : ω
  resource : Nat

/-- What a thread does with a resource. -/
inductive ThreadTask (ω : Type) where
  /-- Makes a request; what it grants is kept under the name. -/
  | request (name : String) (what : ω)
  /-- Gives up what such a request was granted. -/
  | drop (name : String) (what : ω)
  | look

/-- What came of a task. -/
inductive TaskOutcome (ω : Type) where
  | answered (answer : Attempt ω)
  | dropped (wasHeld : Bool)
  | looked

/-- How far a task has come. -/
inductive TaskProgress (ω : Type) where
  /-- A request waits, now for `now`. -/
  | waiting (wanted : Holding ω) (now : ω)
  | done (outcome : TaskOutcome ω)

/-- The outcome so far. -/
def TaskProgress.outcome {ω : Type} : TaskProgress ω → TaskOutcome ω
  | .waiting _ now => .answered (.waits now)
  | .done outcome => outcome

/-- A task that was handed over to its thread. -/
structure Parked (ω : Type) where
  thread : ThreadId
  resource : Nat
  progress : TaskProgress ω

structure Schedule (σ ω : Type) where
  resources : Nat → σ
  held : List (Holding ω) := []
  parked : List (Parked ω) := []

namespace Schedule

variable {σ ω : Type} [DecidableEq ω] [Waitable σ ω]

def setResource (s : Schedule σ ω) (i : Nat) (r : σ) : Schedule σ ω :=
  { s with resources := fun j => if j = i then r else s.resources j }

/-! ## Holdings -/

/-- `true` for what the thread holds under this name by a request of this sort. -/
def Holding.named (t : ThreadId) (name : String) (request : ω) (h : Holding ω) : Bool :=
  h.thread == t && h.name == name && decide (h.request = request)

/-- Gives up a holding. -/
def giveBack (s : Schedule σ ω) (h : Holding ω) : Schedule σ ω :=
  s.setResource h.resource
    (Waitable.release (s.resources h.resource) h.thread h.request)

/-- Keeps what was granted; an older holding of that name is given up. -/
def keep (s : Schedule σ ω) (h : Holding ω) : Schedule σ ω :=
  let isOld := Holding.named h.thread h.name h.request
  let older := s.held.filter isOld
  older.foldl giveBack { s with held := s.held.filter (fun x => !isOld x) ++ [h] }

/-- Gives up what a thread holds under a name. -/
def drop (s : Schedule σ ω) (t : ThreadId) (name : String) (request : ω) :
    Schedule σ ω × Bool :=
  let isIt := Holding.named t name request
  match s.held.find? isIt with
  | none => (s, false)
  | some h => ({ s with held := s.held.filter (fun x => !isIt x) }.giveBack h, true)

/-! ## One task -/

/-- Tries a request once, as it now stands. -/
def attempt (s : Schedule σ ω) (wanted : Holding ω) (now : ω) :
    Schedule σ ω × TaskProgress ω :=
  let (r, answer) := Waitable.attempt (s.resources wanted.resource) wanted.thread now
  let s := s.setResource wanted.resource r
  match answer with
  | .granted => (s.keep wanted, .done (.answered .granted))
  | .waits now => (s, .waiting wanted now)
  | answer => (s, .done (.answered answer))

/-- Does as much of a task as can be done at once. -/
def start (s : Schedule σ ω) (t : ThreadId) (resource : Nat) :
    ThreadTask ω → Schedule σ ω × TaskProgress ω
  | .request name what => s.attempt ⟨t, name, what, resource⟩ what
  | .drop name what =>
    let (s, wasHeld) := s.drop t name what
    (s, .done (.dropped wasHeld))
  | .look => (s, .done .looked)

/-! ## Many threads -/

/-- Tries every waiting request once, in the order they were handed over. -/
def settleOnce (s : Schedule σ ω) : Schedule σ ω :=
  s.parked.foldl (fun acc p =>
    match p.progress with
    | .waiting wanted now =>
      let (acc, progress) := acc.attempt wanted now
      { acc with parked := acc.parked ++ [{ p with progress }] }
    | .done _ => { acc with parked := acc.parked ++ [p] }) { s with parked := [] }

/-- Tries the waiting requests until no more of them can go on. A request waits in at most two
ways. -/
def settle (s : Schedule σ ω) : Schedule σ ω :=
  (List.range (2 * s.parked.length)).foldl (fun s _ => s.settleOnce) s

/-- Hands a task over to its thread. -/
def handOver (s : Schedule σ ω) (t : ThreadId) (resource : Nat) (task : ThreadTask ω) :
    Schedule σ ω :=
  let (s, progress) := s.start t resource task
  let p : Parked ω := { thread := t, resource, progress }
  { s with parked := s.parked ++ [p] }.settle

/-- Does a task to its end, as far as other threads let it go on. -/
def run (s : Schedule σ ω) (t : ThreadId) (resource : Nat) (task : ThreadTask ω) :
    Schedule σ ω × TaskOutcome ω :=
  let (s, progress) := s.start t resource task
  match progress with
  | .done outcome => (s.settle, outcome)
  | .waiting wanted now =>
    let (s, progress) := s.settle.attempt wanted now
    (s.settle, progress.outcome)

/-- Takes the outcome of the task that was handed over to a thread, and its resource. -/
def join (s : Schedule σ ω) (t : ThreadId) : Schedule σ ω × Option (Nat × TaskOutcome ω) :=
  match s.parked.find? (·.thread == t) with
  | none => (s, none)
  | some p =>
    ({ s with parked := s.parked.filter (·.thread != t) }, some (p.resource, p.progress.outcome))

/-- `true` while some thread has a task that was not joined. -/
def isPending (s : Schedule σ ω) : Bool := !s.parked.isEmpty

end Schedule

end Detouring
