-- How a captured address leads to a target. Absolute addresses are targets as they stand;
-- displacements count from a point inside the match and wrap at the top of the address space.
import Detouring.Fault

namespace Detouring

/-- How a captured address is read. Displacements count from `anchor` bytes past the start of
the match; absolute forms have no anchor. -/
structure AddressRule where
  form : AddressForm
  anchor : Nat
deriving DecidableEq

namespace AddressRule

/-- The rule for an absolute form; displacements need an anchor. -/
def absolute (form : AddressForm) : Except Fault AddressRule :=
  if form.absolute then .ok { form, anchor := 0 }
  else .error (.malformed (.offsetRequired form))

/-- The rule for a displacement; absolute forms and anchors before the match are refused. -/
def relative (form : AddressForm) (anchor : Int) : Except Fault AddressRule :=
  if form.absolute then .error (.malformed (.offsetUnwanted form))
  else if anchor < 0 then .error (.malformed (.negativeOffset anchor))
  else .ok { form, anchor := anchor.toNat }

/-- Chooses between `absolute` and `relative` for a form given as a number. -/
def ofBits (raw : Nat) (anchor? : Option Int) : Except Fault AddressRule :=
  match AddressForm.ofBits? raw with
  | none => .error (.malformed (.form raw))
  | some form =>
    match anchor? with
    | none => absolute form
    | some anchor => relative form anchor

/-- The captured value as a signed displacement of the form's width. -/
def displacement (rule : AddressRule) (captured : Nat) : Int :=
  if rule.form.wide then signed64 captured else signed32 captured

/-- The address that a captured value describes, for a match `offset` bytes past `base`. For
an indirect form this is the address of the pointer cell. -/
def target (rule : AddressRule) (base offset captured : Nat) : Nat :=
  if rule.form.absolute then captured
  else wrapWord (base + offset + rule.anchor + rule.displacement captured)

end AddressRule

end Detouring
