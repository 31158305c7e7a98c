-- The memory of a process: pages that are mapped, each with a protection and perhaps a file
-- behind it, and the bytes at all addresses. Bytes at unmapped addresses mean nothing.
import Detouring.Fault
import Detouring.Memory.Protection

namespace Detouring

def pageSize : Nat := 4096

/-- The start of the page that holds an address. -/
def pageOf (address : Nat) : Nat := roundDown address pageSize

/-- A mapped page. -/
structure MappedPage where
  base : Nat
  protection : Protection
  /-- The name of the file behind the page. -/
  file : Option String
deriving DecidableEq

structure Memory where
  /-- The mapped pages, by address. -/
  pages : List MappedPage := []
  bytes : Nat → UInt8 := fun _ => 0

namespace Memory

/-! ## Pages -/

def pageAt? (m : Memory) (address : Nat) : Option MappedPage :=
  m.pages.find? fun p => p.base == pageOf address

def isMapped (m : Memory) (address : Nat) : Bool := (m.pageAt? address).isSome

def protectionAt? (m : Memory) (address : Nat) : Option Protection :=
  (m.pageAt? address).map MappedPage.protection

def isReadable (m : Memory) (address : Nat) : Bool :=
  match m.protectionAt? address with
  | some p => p.read
  | none => false

/-- Adds a page in order of address. -/
def insertPage (p : MappedPage) (pages : List MappedPage) : List MappedPage :=
  pages.takeWhile (·.base < p.base) ++ p :: pages.dropWhile (·.base < p.base)

/-! ## Bytes -/

/-- Replaces the bytes from `address` on. -/
def write (m : Memory) (address : Nat) (data : List UInt8) : Memory :=
  { m with
    bytes := fun a =>
      if address ≤ a then (data[a - address]?).getD (m.bytes a) else m.bytes a }

/-- Gives `length` bytes from `address` on one value. -/
def fill (m : Memory) (address length : Nat) (value : UInt8) : Memory :=
  { m with
    bytes := fun a => if address ≤ a ∧ a < address + length then value else m.bytes a }

/-- The bytes from `address` on, whatever they mean. -/
def peek (m : Memory) (address length : Nat) : List UInt8 :=
  (List.range length).map fun i => m.bytes (address + i)

/-- The bytes from `address` on, if all of them can be read. -/
def read? (m : Memory) (address length : Nat) : Option (List UInt8) :=
  if 0 < length ∧ (List.range length).all (fun i => m.isReadable (address + i)) then
    some (m.peek address length)
  else none

/-- The word at `address`. -/
def word (m : Memory) (address : Nat) : Nat := ofLeBytes (m.peek address 8)

def writeWord (m : Memory) (address value : Nat) : Memory := m.write address (leBytes 8 value)

/-! ## Mapping -/

/-- Maps one page of zero bytes where nothing is mapped. -/
def map (m : Memory) (base : Nat) (protection : Protection) (file : Option String) : Memory :=
  { m.fill base pageSize 0 with pages := insertPage ⟨base, protection, file⟩ m.pages }

def unmap (m : Memory) (base : Nat) : Memory :=
  { m with pages := m.pages.filter (·.base != base) }

/-- Gives one page another protection. -/
def setProtection (m : Memory) (base : Nat) (protection : Protection) : Memory :=
  { m with
    pages := m.pages.map fun p => if p.base = base then { p with protection } else p }

/-! ## Laws -/

theorem bytes_write (m : Memory) (address a : Nat) (data : List UInt8) :
    (m.write address data).bytes a =
      if address ≤ a ∧ a < address + data.length then
        (data[a - address]?).getD (m.bytes a)
      else m.bytes a := by
  simp only [write]
  by_cases low : address ≤ a
  · by_cases high : a < address + data.length
    · simp [low, high]
    · have : data.length ≤ a - address := by omega
      simp [low, high, List.getElem?_eq_none this]
  · simp [low]

/-- A write leaves the bytes around it alone. -/
theorem bytes_write_outside (m : Memory) (address a : Nat) (data : List UInt8)
    (h : a < address ∨ address + data.length ≤ a) :
    (m.write address data).bytes a = m.bytes a := by
  rw [bytes_write, if_neg (by omega)]

@[simp] theorem length_peek (m : Memory) (address length : Nat) :
    (m.peek address length).length = length := by simp [peek]

/-- What was written is what stands there. -/
theorem peek_write (m : Memory) (address : Nat) (data : List UInt8) :
    (m.write address data).peek address data.length = data := by
  apply List.ext_getElem
  · simp
  · intro i h _
    have hi : i < data.length := by simpa using h
    simp [peek, bytes_write, hi]

@[simp] theorem pages_write (m : Memory) (address : Nat) (data : List UInt8) :
    (m.write address data).pages = m.pages := rfl

/-- A word that was written is what stands there. -/
theorem word_writeWord (m : Memory) (address value : Nat) :
    (m.writeWord address value).word address = value % wordCount := by
  have h := m.peek_write address (leBytes 8 value)
  rw [length_leBytes] at h
  simp only [word, writeWord, h, ofLeBytes_leBytes]
  rfl

end Memory

end Detouring
