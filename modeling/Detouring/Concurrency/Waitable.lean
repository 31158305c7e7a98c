-- Things that a thread may have to wait for. A request is granted, turned down, refused with a
-- reason, or has to wait; a waiting request is tried again until it no longer waits.
import Detouring.Fault

namespace Detouring

abbrev ThreadId := Nat

/-- What became of one attempt of a request. -/
inductive Attempt (ω : Type) where
  | granted
  /-- What was waited for has come, and there is nothing to keep. -/
  | passed
  /-- The thread is already inside. -/
  | declined
  | refused (cause : Fault)
  /-- To be tried again, as this request. -/
  | waits (request : ω)
deriving DecidableEq

/-- `true` if a request needs no further attempt. -/
def Attempt.settled {ω : Type} : Attempt ω → Bool
  | .waits _ => false
  | _ => true

/-- A resource with requests that can wait. -/
class Waitable (σ : Type) (ω : outParam Type) where
  attempt : σ → ThreadId → ω → σ × Attempt ω
  /-- Gives back what a request was granted. -/
  release : σ → ThreadId → ω → σ

end Detouring
