-- The free bytes of one page, as blocks in order of offset. No block is empty and no two touch,
-- so equal sets of free bytes have equal lists.
import Detouring.Word

namespace Detouring

/-- A run of free bytes. -/
structure FreeBlock where
  offset : Nat
  size : Nat
deriving DecidableEq

namespace FreeBlock

/-- The first offset behind the block. -/
def stop (b : FreeBlock) : Nat := b.offset + b.size

end FreeBlock

abbrev FreeList := List FreeBlock

namespace FreeList

/-- Puts a block in front, joined to the first one if they touch. -/
def join (b : FreeBlock) : FreeList → FreeList
  | [] => [b]
  | next :: rest =>
    if b.stop = next.offset then ⟨b.offset, b.size + next.size⟩ :: rest
    else b :: next :: rest

/-- Drops empty blocks and joins blocks that touch. -/
def normalize (l : FreeList) : FreeList :=
  (l.filter fun b => 0 < b.size).foldr join []

/-- How far an address is from the next multiple of `align`. -/
def padding (address align : Nat) : Nat :=
  if address % align = 0 then 0 else align - address % align

/-- Cuts `size` bytes out of the first block that has room for them at a multiple of `align`,
and gives their offset. The page stands at `base`. -/
def cut (base size align : Nat) : FreeList → Option (Nat × FreeList)
  | [] => none
  | b :: rest =>
    let pad := padding (base + b.offset) align
    if pad + size ≤ b.size then
      let start := b.offset + pad
      some (start, ⟨b.offset, pad⟩ :: ⟨start + size, b.size - pad - size⟩ :: rest)
    else (cut base size align rest).map fun (start, rest) => (start, b :: rest)

/-- Takes `size` bytes at a multiple of `align`. -/
def take (base size align : Nat) (l : FreeList) : Option (Nat × FreeList) :=
  (cut base size align l).map fun (start, rest) => (start, normalize rest)

/-- Gives bytes back. -/
def giveBack (offset size : Nat) (l : FreeList) : FreeList :=
  normalize
    (l.takeWhile (·.offset < offset) ++ ⟨offset, size⟩ :: l.dropWhile (·.offset < offset))

/-! ## Laws

No byte is lost or handed out twice: the count of free bytes follows every change. -/

/-- How many bytes are free. -/
def total (l : FreeList) : Nat := sumOf FreeBlock.size l

theorem total_join (b : FreeBlock) (l : FreeList) : total (join b l) = b.size + total l := by
  cases l with
  | nil => rfl
  | cons next rest =>
    simp only [join]
    split
    · simp [total]
      omega
    · simp [total]

theorem total_normalize (l : FreeList) : total (normalize l) = total l := by
  unfold normalize
  induction l with
  | nil => rfl
  | cons b rest ih =>
    by_cases h : 0 < b.size
    · simp only [List.filter_cons, h, decide_true, if_true, List.foldr_cons, total_join, ih]
      simp [total]
    · simp only [List.filter_cons, h, decide_false, Bool.false_eq_true, if_false, ih]
      simp [total]
      omega

theorem total_take {base size align offset : Nat} {l rest : FreeList}
    (h : take base size align l = some (offset, rest)) : total rest + size = total l := by
  unfold take at h
  simp only [Option.map_eq_some_iff, Prod.exists, Prod.mk.injEq] at h
  obtain ⟨start, left, hcut, rfl, rfl⟩ := h
  rw [total_normalize]
  induction l generalizing left with
  | nil => simp [cut] at hcut
  | cons b more ih =>
    simp only [cut] at hcut
    split at hcut
    · rename_i room
      cases hcut
      simp [total]
      omega
    · simp only [Option.map_eq_some_iff, Prod.exists, Prod.mk.injEq] at hcut
      obtain ⟨_, tail, found, rfl, rfl⟩ := hcut
      have := ih _ found
      simp [total] at this ⊢
      omega

theorem total_giveBack (offset size : Nat) (l : FreeList) :
    total (giveBack offset size l) = total l + size := by
  have h := congrArg total
    (List.takeWhile_append_dropWhile (p := fun b => decide (b.offset < offset)) (l := l))
  simp only [total, sumOf_append] at h
  rw [giveBack, total_normalize]
  simp only [total, sumOf_append, sumOf_cons]
  omega

end FreeList

end Detouring
