-- Detours from one method to another: made by a factory, applied to the bodies of the methods,
-- undone and dropped.
import Detouring.Detour.Body

namespace Detouring

namespace World

/-! ## Factories -/

/-- A new factory. If the runtime announces fresh code, the factory asks to be told. -/
def newFactory : Op World Nat := do
  let w ← get
  let id := w.nextFactory
  if w.asks RuntimeFlag.compileNotices then
    let runtime ← w.runtime.subscribe id
    set { w with runtime }
  Op.change fun w => { w with factories := w.factories ++ [id], nextFactory := id + 1 }
  return id

/-! ## Undoing -/

/-- Writes the source's code back. The alternate entry is kept for calls that still run there;
whatever the outcome, the detour is no longer applied. -/
def withdraw (d : MethodDetour) (r : Redirection) : Op World Unit := do
  let outcome ← onMachine r.undo.outcome
  changeMachine r.abandon
  setDetour { d with
    applied := false
    redirection := none
    retired := d.retired ++ r.alternate.toList
    coupled := rfl }
  let _ ← outcome

/-- Restores the source of a detour and lets its methods go. -/
def undoDetour (id : Nat) : Op World Unit :=
  withDetour id fun d =>
    if !d.isApplied then throw (.disposed .methodDetour)
    else if d.busy then throw (.state (.undoneWhileApplying d.source d.target))
    else do
      d.redirection.forM (withdraw d)
      updateDetour id ({ · with pins := [] })
      Op.change (unpin d.pins)

/-- Takes a detour off the books, and with it all that it keeps. -/
def removeDetour (d : MethodDetour) (w : World) : World :=
  let machine := match d.redirection with
    | some r => r.drop w.machine
    | none => w.machine
  let w := { w with machine, detours := w.detours.filter (·.id != d.id) }
  { unpin d.pins w with machine := w.machine.freeAll d.retired }

/-- Drops a detour; one that is applied is undone first. -/
def dropDetour (id : Nat) : Op World Unit := do
  withDetour id fun d => do
    if d.isApplied then
      match ← (undoDetour id).outcome with
      | .ok () => pure ()
      | .error e => report (.detourNotUndone d.source d.target e)
  withDetour id fun d => Op.change (removeDetour d)

/-! ## Applying -/

/-- Writes the jump of a detour between two bodies. The alternate entry is announced before. -/
def redirect (source target : Nat) (beforePatch : Option Nat → Op World Unit) :
    Op World Redirection := do
  let p := (← get).platform
  let plan ← onMachine (RedirectionPlan.make p.architecture p.settings source target none)
  (beforePatch plan.entry?).cleaning fun w => { w with machine := plan.discard w.machine }
  onMachine (Redirection.ofPlan plan)

/-- Keeps both methods in place, finds their bodies and redirects the source. Gives the methods
that are kept, and the redirection. -/
def establish (d : MethodDetour) (beforePatch : Option Nat → Op World Unit) :
    Op World (List Method × Redirection) := do
  let pins ← pinIfNeeded d.source
  let more ← (pinIfNeeded d.target).cleaning (unpin pins)
  let pins := pins ++ more
  Op.cleaning (unpin pins) do
    let source ← resolve d.source
    let target ← resolve d.target
    return (pins, ← redirect source target beforePatch)

/-- Applies a detour. -/
def applyDetour (id : Nat) (beforePatch : Option Nat → Op World Unit) : Op World Unit :=
  withDetour id fun d =>
    if d.isApplied then throw (.state (.alreadyApplied d.source d.target))
    else if d.busy then throw (.state (.appliedWhileApplying d.source d.target))
    else do
      setDetour { d with busy := true }
      let outcome ← (establish d beforePatch).outcome
      updateDetour id ({ · with busy := false })
      let (pins, r) ← outcome
      updateDetour id ({ · with applied := true, redirection := some r, pins, coupled := rfl })
      Op.change (unpin d.pins)

/-! ## Making -/

/-- Makes a detour between two different methods, and applies it if asked. -/
def createDetour (factory : Nat) (source target : Method) (apply : Bool) : Op World Nat := do
  let source ← canonicalize source
  let target ← canonicalize target
  if source = target then throw (.argument (.selfDetour source))
  else
    let _ ← disableInlining source
    let id := (← get).nextDetour
    Op.change fun w => { w with
      detours := w.detours ++ [{ id, factory, source, target }]
      nextDetour := id + 1 }
    if apply then
      (applyDetour id fun _ => pure ()).cleaning fun w => ((dropDetour id).on w).2
    return id

/-- Names who is told when the detour follows its source. -/
def watch (id : Nat) (watcher : Watcher) : Op World Unit :=
  updateDetour id ({ · with watcher })

end World

end Detouring
