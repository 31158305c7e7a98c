-- The forms of call instructions.

namespace Detouring

inductive CallForm where
  /-- A call by a displacement of 16 or 32 bits. -/
  | near16
  | near32
  /-- A call to an address in a register or in memory. -/
  | indirect16
  | indirect64
  /-- A call to a selector and an address in memory. -/
  | far16
  | far32
  | far64
deriving DecidableEq

namespace CallForm

/-- The name of the form in instruction listings. -/
def name : CallForm → String
  | near16 => "Call_rel16"
  | near32 => "Call_rel32_64"
  | indirect16 => "Call_rm16"
  | indirect64 => "Call_rm64"
  | far16 => "Call_m1616"
  | far32 => "Call_m1632"
  | far64 => "Call_m1664"

/-- `true` if there is a jump that goes where such a call goes. -/
def hasJump : CallForm → Bool
  | near32 | indirect64 | far64 => true
  | _ => false

end CallForm

end Detouring
