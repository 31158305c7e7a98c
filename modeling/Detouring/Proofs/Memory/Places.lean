-- Which pages of a memory are mapped. Pages stand at multiples of their size, one at a place;
-- patching changes bytes and protections, and takes no page away.
import Detouring.Memory.Patch
import Detouring.Proofs.Keyed

namespace Detouring

theorem pageOf_spec (x : Nat) : pageOf x % pageSize = 0 ∧ pageOf x ≤ x ∧ x < pageOf x + pageSize := by
  unfold pageOf roundDown pageSize
  omega

/-- An aligned page is the page of its bytes. -/
theorem pageOf_eq {base x : Nat} (aligned : base % pageSize = 0) (low : base ≤ x)
    (high : x < base + pageSize) : pageOf x = base := by
  unfold pageOf roundDown
  unfold pageSize at *
  omega

theorem pageOf_self {base : Nat} (aligned : base % pageSize = 0) : pageOf base = base :=
  pageOf_eq aligned (Nat.le_refl _) (Nat.lt_add_of_pos_right (by decide))

namespace Memory

variable {m m' : Memory}

/-- Where the mapped pages stand. -/
def places (m : Memory) : List Nat := m.pages.map MappedPage.base

/-- Pages are kept by address, each at a multiple of the page size. -/
structure Regular (m : Memory) : Prop where
  sorted : m.places.Pairwise (· < ·)
  aligned : ∀ base ∈ m.places, base % pageSize = 0

theorem Regular.nodup (g : m.Regular) : m.places.Nodup := g.sorted.imp Nat.ne_of_lt

theorem isMapped_iff {x : Nat} : m.isMapped x = true ↔ pageOf x ∈ m.places := by
  simp [isMapped, pageAt?, places, List.find?_isSome]

theorem Regular.isMapped_of_mem (g : m.Regular) {b x : Nat} (mb : b ∈ m.places) (low : b ≤ x)
    (high : x < b + pageSize) : m.isMapped x = true :=
  isMapped_iff.mpr (pageOf_eq (g.aligned b mb) low high ▸ mb)

theorem Regular.of_places (g : m.Regular) (same : m'.places = m.places) : m'.Regular :=
  ⟨same ▸ g.sorted, same ▸ g.aligned⟩

theorem isMapped_congr (same : m'.places = m.places) (x : Nat) :
    m'.isMapped x = m.isMapped x := by
  rw [Bool.eq_iff_iff, isMapped_iff, isMapped_iff, same]

@[simp] theorem places_write (address : Nat) (data : List UInt8) :
    (m.write address data).places = m.places := rfl

@[simp] theorem places_setProtection (base : Nat) (protection : Protection) :
    (m.setProtection base protection).places = m.places := by
  simp only [places, setProtection, List.map_map]
  refine List.map_congr_left fun p _ => ?_
  by_cases it : p.base = base <;> simp [it]

/-! ## Mapping and unmapping -/

theorem perm_map (base : Nat) (protection : Protection) (file : Option String) :
    (m.map base protection file).places.Perm (base :: m.places) := by
  simp only [places, map, insertPage]
  refine (List.perm_middle.trans (List.Perm.cons _ ?_)).map _
  rw [List.takeWhile_append_dropWhile]

theorem mem_places_map {base : Nat} {protection : Protection} {file : Option String} {x : Nat} :
    x ∈ (m.map base protection file).places ↔ x = base ∨ x ∈ m.places :=
  (perm_map base protection file).mem_iff.trans List.mem_cons

theorem mem_places_unmap {base x : Nat} : x ∈ (m.unmap base).places ↔ x ∈ m.places ∧ x ≠ base := by
  simp only [places, unmap, List.mem_map, List.mem_filter, bne_iff_ne, ne_eq]
  constructor
  · rintro ⟨p, ⟨mp, other⟩, rfl⟩
    exact ⟨⟨p, mp, rfl⟩, other⟩
  · rintro ⟨⟨p, mp, rfl⟩, other⟩
    exact ⟨p, ⟨mp, other⟩, rfl⟩

theorem Regular.unmap (g : m.Regular) (base : Nat) : (m.unmap base).Regular :=
  ⟨g.sorted.sublist (List.filter_sublist.map _), fun b mb =>
    g.aligned b (mem_places_unmap.mp mb).1⟩

theorem Regular.map (g : m.Regular) {base : Nat} (aligned : base % pageSize = 0)
    (new : base ∉ m.places) (protection : Protection) (file : Option String) :
    (m.map base protection file).Regular := by
  refine ⟨?_, fun b mb => ?_⟩
  · have sorted : m.pages.Pairwise fun p q => p.base < q.base := List.pairwise_map.mp g.sorted
    have low := List.takeWhile_sublist (l := m.pages) fun q => decide (q.base < base)
    have high := List.dropWhile_sublist (l := m.pages) fun q => decide (q.base < base)
    have behind : ∀ q ∈ m.pages.dropWhile fun q => decide (q.base < base), base < q.base :=
      fun q mq => by
        have := Keyed.le_of_mem_dropWhile (sorted.imp Nat.le_of_lt) mq
        have : q.base ≠ base := fun same =>
          new (same ▸ List.mem_map_of_mem (high.subset mq))
        omega
    refine List.pairwise_map.mpr (List.pairwise_append.mpr ⟨sorted.sublist low,
      List.pairwise_cons.mpr ⟨behind, sorted.sublist high⟩, fun p mp q mq => ?_⟩)
    have front : p.base < base := Keyed.lt_of_mem_takeWhile mp
    rcases List.mem_cons.mp mq with rfl | mq
    · exact front
    · exact Nat.lt_trans front (behind q mq)
  · rcases mem_places_map.mp mb with rfl | mb
    · exact aligned
    · exact g.aligned b mb

theorem bytes_map {base : Nat} {protection : Protection} {file : Option String} {x : Nat}
    (outside : x < base ∨ base + pageSize ≤ x) :
    (m.map base protection file).bytes x = m.bytes x := by
  simp only [Memory.map, fill]
  rw [if_neg (by omega)]

/-! ## Looking at bytes -/

theorem peek_congr {address n : Nat}
    (same : ∀ i < n, m'.bytes (address + i) = m.bytes (address + i)) :
    m'.peek address n = m.peek address n := by
  simp only [peek]
  exact List.map_congr_left fun i h => same i (List.mem_range.mp h)

theorem lt_wordCount_of_mapped {m : Memory} (words : ∀ b ∈ m.places, b + pageSize ≤ wordCount)
    {x : Nat} (mapped : m.isMapped x = true) : x < wordCount :=
  Nat.lt_of_lt_of_le (pageOf_spec x).2.2 (words _ (isMapped_iff.mp mapped))

theorem word_congr {address : Nat}
    (same : ∀ i < 8, m'.bytes (address + i) = m.bytes (address + i)) :
    m'.word address = m.word address := congrArg ofLeBytes (peek_congr same)

theorem peek_add (m : Memory) (address n k : Nat) :
    m.peek address (n + k) = m.peek address n ++ m.peek (address + n) k := by
  simp only [peek, List.range_add, List.map_append, List.map_map]
  congr 2
  funext i
  simp [Nat.add_assoc]

/-- Dropping bytes is looking further on. -/
theorem drop_peek (m : Memory) (address : Nat) {n k : Nat} (h : k ≤ n) :
    (m.peek address n).drop k = m.peek (address + k) (n - k) := by
  have whole := m.peek_add address k (n - k)
  rw [Nat.add_sub_of_le h] at whole
  rw [whole]
  exact List.drop_left' (length_peek m address k)

end Memory

end Detouring
