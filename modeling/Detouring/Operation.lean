-- Operations change a state and may fail. What was changed before a failure stays changed, so
-- an operation that has to clean up says so.
import Detouring.Fault

namespace Detouring

/-- A change of a state `σ` that gives an `α` or fails. -/
abbrev Op (σ α : Type) := ExceptT Fault (StateM σ) α

namespace Op

variable {σ τ α : Type}

/-- The operation that does what a function on states says. -/
def of (step : σ → Except Fault α × σ) : Op σ α := step

/-- The result of an operation and the state that it leaves. -/
def on (act : Op σ α) (s : σ) : Except Fault α × σ := act s

/-- A change that cannot fail. -/
def change (f : σ → σ) : Op σ Unit := of fun s => (.ok (), f s)

/-- Cleans up if the operation fails; the failure stands. -/
def cleaning (cleanup : σ → σ) (act : Op σ α) : Op σ α := of fun s =>
  match act.on s with
  | (.ok a, s) => (.ok a, s)
  | (.error e, s) => (.error e, cleanup s)

/-- The result of the operation as a value, be it a failure or not. -/
def outcome (act : Op σ α) : Op σ (Except Fault α) := of fun s =>
  let (r, s) := act.on s
  (.ok r, s)

/-- The operation on a part of a larger state. -/
def within (part : σ → τ) (update : σ → τ → σ) (act : Op τ α) : Op σ α := of fun s =>
  let (r, t) := act.on (part s)
  (r, update s t)

/-! ## Laws -/

@[simp] theorem on_of (step : σ → Except Fault α × σ) (s : σ) : (of step).on s = step s := rfl

@[simp] theorem on_pure (a : α) (s : σ) : (pure a : Op σ α).on s = (.ok a, s) := rfl

@[simp] theorem on_throw (e : Fault) (s : σ) : (throw e : Op σ α).on s = (.error e, s) := rfl

@[simp] theorem on_change (f : σ → σ) (s : σ) : (change f).on s = (.ok (), f s) := rfl

theorem on_bind {β : Type} (act : Op σ α) (next : α → Op σ β) (s : σ) :
    (act >>= next).on s =
      match act.on s with
      | (.ok a, s) => (next a).on s
      | (.error e, s) => (.error e, s) := by
  show (ExceptT.bind act next) s = _
  unfold ExceptT.bind on
  show (match act s with | (r, s) => ExceptT.bindCont next r s) = _
  rcases act s with ⟨_ | _, _⟩ <;> rfl

theorem on_map {β : Type} (f : α → β) (act : Op σ α) (s : σ) :
    (f <$> act).on s =
      match act.on s with
      | (.ok a, s) => (.ok (f a), s)
      | (.error e, s) => (.error e, s) := by
  rw [map_eq_pure_bind, on_bind]
  rcases act.on s with ⟨_ | _, _⟩ <;> rfl

/-- A failure that is cleaned up is still the failure. -/
theorem fst_cleaning (cleanup : σ → σ) (act : Op σ α) (s : σ) :
    ((act.cleaning cleanup).on s).1 = (act.on s).1 := by
  simp only [cleaning, on_of]
  rcases act.on s with ⟨_ | _, _⟩ <;> rfl

end Op

end Detouring
