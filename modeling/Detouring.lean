import Detouring.Concurrency.CallAccount
import Detouring.Concurrency.Reentry
import Detouring.Concurrency.Schedule
import Detouring.Memory.ArenaSession
import Detouring.Proofs.Calling.Measuring
import Detouring.Proofs.Calling.Recognizing
import Detouring.Proofs.Concurrency.Deadlock
import Detouring.Proofs.Detour.Lifetime
import Detouring.Proofs.Detour.Pinning
import Detouring.Proofs.Detour.Reentering
import Detouring.Proofs.Hook.Circling
import Detouring.Proofs.Hook.Listing
import Detouring.Proofs.Hook.Survivors
import Detouring.Proofs.Hook.Ties
import Detouring.Proofs.Hook.Unhooking
import Detouring.Proofs.Jump.Confining
import Detouring.Proofs.Jump.Mistaking
import Detouring.Proofs.Memory.Extents
import Detouring.Proofs.Memory.Inventory
import Detouring.Proofs.Memory.Nearby
import Detouring.Proofs.Memory.Refusals
import Detouring.Proofs.Pattern.Accepting
import Detouring.Proofs.Pattern.Distinct
import Detouring.Proofs.Pattern.Earliest
import Detouring.Proofs.Pattern.Precedence
import Detouring.Proofs.Pattern.Running
import Detouring.Proofs.Pattern.Settling
import Detouring.Proofs.Relocation.Calling
import Detouring.Proofs.Thunk.Ending
import Detouring.Proofs.Thunk.Shapes
import Detouring.Scenario.Run
