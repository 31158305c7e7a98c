-- The order of the this pointer, the return buffer and the user arguments, read off the five
-- words that one call passes. An order is accepted only if no other explains the words.
import Detouring.Calling.StructKind
import Detouring.Fault

namespace Detouring

/-- The six orders of return buffer, this pointer and arguments. -/
inductive ArgumentOrder where
  | retThisArgs
  | thisRetArgs
  | thisArgsRet
  | retArgsThis
  | argsThisRet
  | argsRetThis
deriving DecidableEq

namespace ArgumentOrder

def specialArguments : ArgumentOrder → List SpecialArgument
  | retThisArgs => [.returnBuffer, .thisPointer, .userArguments]
  | thisRetArgs => [.thisPointer, .returnBuffer, .userArguments]
  | thisArgsRet => [.thisPointer, .userArguments, .returnBuffer]
  | retArgsThis => [.returnBuffer, .userArguments, .thisPointer]
  | argsThisRet => [.userArguments, .thisPointer, .returnBuffer]
  | argsRetThis => [.userArguments, .returnBuffer, .thisPointer]

theorem specialArguments_inj {a b : ArgumentOrder}
    (h : a.specialArguments = b.specialArguments) : a = b := by
  cases a <;> cases b <;> first | rfl | (simp [specialArguments] at h)

/-- The order with the argument block at word `start`. -/
def ofPlaces (start : Nat) (thisFirst : Bool) : ArgumentOrder :=
  match start, thisFirst with
  | 0, true => argsThisRet
  | 0, false => argsRetThis
  | 1, true => thisArgsRet
  | 1, false => retArgsThis
  | _, true => thisRetArgs
  | _, false => retThisArgs

/-- The order that explains the words with the argument block at word `start`. The block reads
record, instance, record; of the two other words exactly one is the instance, and the return
buffer is not the record. -/
def explain (words : List Nat) (inst record start : Nat) : Option ArgumentOrder :=
  if (words.drop start).take 3 ≠ [record, inst, record] then none
  else
    match words.take start ++ words.drop (start + 3) with
    | [first, second] =>
      if first = inst ∧ second ≠ inst then
        if second = record then none else some (ofPlaces start true)
      else if second = inst ∧ first ≠ inst then
        if first = record then none else some (ofPlaces start false)
      else none
    | _ => none

/-- The only order that explains the five words of a call `inst.probe(record, inst, record)`. -/
def classify (words : List Nat) (inst record : Nat) : Except Fault ArgumentOrder :=
  match [0, 1, 2].filterMap (explain words inst record) with
  | [order] => .ok order
  | _ => .error (.unrecognizedConvention (.words words inst record))

end ArgumentOrder

/-! ## Measured conventions -/

/-- What calls of the two probe functions show. -/
structure ProbeReport where
  order : ArgumentOrder
  returnsBuffer : Bool

/-- What every call on x86-64 Linux shows. -/
def ProbeReport.host : ProbeReport := ⟨.retThisArgs, true⟩

/-- The convention that the probes show, with the kinds that the reference keeps in
registers. -/
def Convention.measured (reference? : Option Convention) (report : ProbeReport) :
    Except Fault Convention :=
  match reference? with
  | none => .error (.unrecognizedConvention .noReference)
  | some reference =>
    .ok {
      order := report.order.specialArguments
      classifier := (ObservedKinds.ofConvention reference).classify
      returnsBuffer := report.returnsBuffer }

end Detouring
