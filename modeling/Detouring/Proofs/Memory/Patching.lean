-- What a patch does. It succeeds wherever all of its pages are mapped; then it has replaced its
-- bytes and no others, and says what stood there. One that fails has changed no byte.
import Detouring.Proofs.Memory.Places

namespace Detouring

/-! ## Regions and pages -/

namespace Region

/-- How many bytes of a range lie in the region. -/
def overlap (low high : Nat) (r : Region) : Nat := min r.stop high - max r.start low

theorem sum_protectionsOf (regions : List Region) (start length : Nat) :
    sumOf (·.2.1) (Memory.protectionsOf regions start length) =
      sumOf (overlap start (start + length)) regions := by
  induction regions with
  | nil => rfl
  | cons r rest ih =>
    simp only [Memory.protectionsOf] at ih ⊢
    simp only [List.filterMap_cons, sumOf_cons, overlap]
    split <;> rename_i kept
    · split at kept
      · rw [ih]
        omega
      · cases kept
    · split at kept
      · cases kept
      · cases kept
        simp only [sumOf_cons, ih]

/-- Joining regions that touch moves no byte. -/
theorem sum_join (low high : Nat) {r : Region} {regions : List Region} (hr : r.start ≤ r.stop)
    (ordered : ∀ s ∈ regions, s.start ≤ s.stop) :
    sumOf (overlap low high) (r.join regions) =
        overlap low high r + sumOf (overlap low high) regions ∧
      ∀ s ∈ r.join regions, s.start ≤ s.stop := by
  cases regions with
  | nil => exact ⟨by simp [join], by simpa [join] using hr⟩
  | cons next rest =>
    have hn := ordered next List.mem_cons_self
    simp only [join]
    split
    · rename_i alike
      obtain ⟨touch, _⟩ := alike
      refine ⟨?_, fun s ms => ?_⟩
      · simp only [sumOf_cons, overlap]
        omega
      · rcases List.mem_cons.mp ms with rfl | ms
        · simp only
          omega
        · exact ordered s (List.mem_cons_of_mem _ ms)
    · refine ⟨by simp, fun s ms => ?_⟩
      rcases List.mem_cons.mp ms with rfl | ms
      · exact hr
      · exact ordered s ms

/-- A joined region begins where a region began. -/
theorem start_join {r s : Region} {regions : List Region} (h : s ∈ r.join regions) :
    s.start = r.start ∨ s.start ∈ regions.map Region.start := by
  cases regions with
  | nil =>
    rw [join, List.mem_singleton] at h
    exact Or.inl (h ▸ rfl)
  | cons next rest =>
    simp only [join] at h
    split at h
    · rcases List.mem_cons.mp h with rfl | later
      · exact Or.inl rfl
      · exact Or.inr (List.mem_cons_of_mem _ (List.mem_map_of_mem later))
    · rcases List.mem_cons.mp h with rfl | later
      · exact Or.inl rfl
      · exact Or.inr (List.mem_map_of_mem later)

theorem overlap_split {low middle high : Nat} (h1 : low ≤ middle) (h2 : middle ≤ high)
    {r : Region} (hr : r.start ≤ r.stop) :
    overlap low high r = overlap low middle r + overlap middle high r := by
  unfold overlap
  omega

/-- With one page more, a range shares with a page what it did, and what that one does. -/
theorem overlap_succ (start n : Nat) (p : MappedPage) :
    overlap start (start + (n + 1) * pageSize) (ofPage p) =
      overlap start (start + n * pageSize) (ofPage p) +
        overlap (start + n * pageSize) (start + n * pageSize + pageSize) (ofPage p) := by
  rw [Nat.succ_mul, ← Nat.add_assoc]
  exact overlap_split (Nat.le_add_right _ _) (Nat.le_add_right _ _) (Nat.le_add_right _ _)

end Region

namespace Memory

open Region

variable {m m' : Memory}

theorem sum_regions (pages : List MappedPage) (low high : Nat) :
    sumOf (overlap low high) ((pages.map ofPage).foldr join []) =
        sumOf (fun p => overlap low high (ofPage p)) pages ∧
      ∀ s ∈ (pages.map ofPage).foldr join [], s.start ≤ s.stop := by
  induction pages with
  | nil => exact ⟨rfl, by simp⟩
  | cons p rest ih =>
    obtain ⟨sum, ordered⟩ := ih
    obtain ⟨sum', ordered'⟩ := sum_join low high (r := ofPage p) (Nat.le_add_right _ _) ordered
    exact ⟨by simp [sum', sum], by simpa using ordered'⟩

theorem start_regions (pages : List MappedPage) {s : Region}
    (h : s ∈ (pages.map ofPage).foldr join []) : s.start ∈ pages.map MappedPage.base := by
  induction pages generalizing s with
  | nil => cases h
  | cons p rest ih =>
    rcases start_join h with same | later
    · exact same ▸ List.mem_cons_self
    · obtain ⟨t, mt, same⟩ := List.mem_map.mp later
      exact List.mem_cons_of_mem _ (same ▸ ih mt)

/-- The parts of a range add up to the bytes of its mapped pages. -/
theorem sum_parts (m : Memory) (start length : Nat) :
    sumOf (·.2.1) (protectionsOf m.mapRegions start length) =
      sumOf (fun p => overlap start (start + length) (ofPage p)) m.pages := by
  rw [sum_protectionsOf, mapRegions_eq, sumOf_map]
  exact (sum_regions m.pages start (start + length)).1

theorem overlap_other {p : MappedPage} {base : Nat} (aligned : base % pageSize = 0)
    (aligned' : p.base % pageSize = 0) (other : p.base ≠ base) :
    overlap base (base + pageSize) (ofPage p) = 0 := by
  unfold pageSize at aligned aligned'
  simp only [overlap, ofPage, pageSize]
  omega

theorem overlap_same (p : MappedPage) :
    overlap p.base (p.base + pageSize) (ofPage p) = pageSize := by
  simp [overlap, ofPage]

/-- A page is mapped once. -/
theorem sum_page {pages : List MappedPage} (apart : (pages.map MappedPage.base).Nodup)
    (aligned : ∀ p ∈ pages, p.base % pageSize = 0) {base : Nat}
    (mapped : base ∈ pages.map MappedPage.base) :
    sumOf (fun p => overlap base (base + pageSize) (ofPage p)) pages = pageSize := by
  obtain ⟨p, mp, rfl⟩ := List.mem_map.mp mapped
  obtain ⟨front, back, rfl⟩ := List.append_of_mem mp
  have others : ∀ l : List MappedPage, (∀ q ∈ l, q ∈ front ++ p :: back ∧ q.base ≠ p.base) →
      sumOf (fun q => overlap p.base (p.base + pageSize) (ofPage q)) l = 0 := fun l sub =>
    sumOf_eq_zero _ fun q mq => overlap_other (aligned p mp) (aligned q (sub q mq).1) (sub q mq).2
  simp only [List.map_append, List.map_cons] at apart
  rw [sumOf_append, sumOf_cons, overlap_same, others front, others back, Nat.zero_add,
    Nat.add_zero]
  · intro q mq
    have := (List.nodup_cons.mp (List.nodup_append.mp apart).2.1).1
    exact ⟨by simp [mq], fun same => this (same ▸ List.mem_map_of_mem mq)⟩
  · intro q mq
    have := (List.nodup_append.mp apart).2.2 q.base (List.mem_map_of_mem mq) p.base
      List.mem_cons_self
    exact ⟨by simp [mq], this⟩

theorem sum_pages (g : m.Regular) (start count : Nat)
    (mapped : ∀ i < count, start + i * pageSize ∈ m.places) :
    sumOf (fun p => overlap start (start + count * pageSize) (ofPage p)) m.pages =
      count * pageSize := by
  induction count with
  | zero =>
    refine sumOf_eq_zero _ fun p _ => ?_
    simp only [overlap]
    omega
  | succ n ih =>
    simp only [overlap_succ]
    rw [sumOf_add, ih fun i h => mapped i (Nat.lt_succ_of_lt h),
      sum_page g.nodup (fun p mp => g.aligned _ (List.mem_map_of_mem mp))
        (mapped n n.lt_succ_self), Nat.succ_mul]

/-! ## Protections -/

theorem protectPages_spec (protection : Protection) (base count : Nat) (m : Memory) :
    (m.protectPages protection base count).2.places = m.places ∧
      (m.protectPages protection base count).2.bytes = m.bytes ∧
      ((m.protectPages protection base count).1 = true ↔
        ∀ i < count, m.isMapped (base + i * pageSize) = true) := by
  induction count generalizing base m with
  | zero => exact ⟨rfl, rfl, by simp [protectPages]⟩
  | succ n ih =>
    simp only [protectPages]
    split
    · rename_i mapped
      obtain ⟨places, bytes, done⟩ := ih (base + pageSize) (m.setProtection base protection)
      refine ⟨by rw [places, places_setProtection], bytes, done.trans ?_⟩
      simp only [isMapped_congr (places_setProtection (m := m) base protection)]
      constructor
      · intro rest i h
        cases i with
        | zero => simpa using mapped
        | succ i =>
          have := rest i (by omega)
          rwa [Nat.add_assoc, Nat.add_comm pageSize, ← Nat.succ_mul] at this
      · intro all i h
        have := all (i + 1) (by omega)
        rwa [Nat.add_assoc, Nat.add_comm pageSize, ← Nat.succ_mul]
    · rename_i unmapped
      refine ⟨rfl, rfl, ?_⟩
      simp only [Bool.false_eq_true, false_iff]
      exact fun all => unmapped (by simpa using all 0 (Nat.succ_pos n))

/-- Protecting pages moves no page and changes no byte, and works if all are mapped. -/
theorem protect_spec (m : Memory) (start length : Nat) (protection : Protection) :
    (m.protect start length protection).2.places = m.places ∧
      (m.protect start length protection).2.bytes = m.bytes ∧
      ((m.protect start length protection).1 = .ok () ↔
        ∀ i < length / pageSize, m.isMapped (start + i * pageSize) = true) := by
  have spec := protectPages_spec protection start (length / pageSize) m
  unfold protect
  rcases done : m.protectPages protection start (length / pageSize) with ⟨_ | _, m'⟩ <;>
    simpa [done] using spec

/-- Protections are given back wherever the pages are mapped. -/
theorem restore_spec (changed : Protection) (parts : List (Nat × Nat × Protection)) (m : Memory)
    (mapped : ∀ part ∈ parts, ∀ i < part.2.1 / pageSize,
      m.isMapped (part.1 + i * pageSize) = true) :
    ∃ m', m.restore changed parts = (.ok (), m') ∧ m'.places = m.places ∧ m'.bytes = m.bytes := by
  induction parts generalizing m with
  | nil => exact ⟨m, rfl, rfl, rfl⟩
  | cons part rest ih =>
    obtain ⟨start, length, protection⟩ := part
    have later := fun part mp => mapped part (List.mem_cons_of_mem _ mp)
    simp only [restore]
    split
    · exact ih m later
    · obtain ⟨places, bytes, done⟩ := protect_spec m start length protection
      have ok := done.mpr (mapped _ List.mem_cons_self)
      rcases changing : m.protect start length protection with ⟨_ | _, m₁⟩
      · simp [changing] at ok
      · simp only [changing] at places bytes
        obtain ⟨m', restored, places', bytes'⟩ := ih m₁ fun part mp i h =>
          (isMapped_congr places _).trans (later part mp i h)
        exact ⟨m', restored, places'.trans places, bytes'.trans bytes⟩

/-- Giving protections back changes no byte, whether it works or not. -/
theorem bytes_restore (changed : Protection) (parts : List (Nat × Nat × Protection)) (m : Memory) :
    (m.restore changed parts).2.bytes = m.bytes := by
  induction parts generalizing m with
  | nil => rfl
  | cons part rest ih =>
    obtain ⟨start, length, protection⟩ := part
    obtain ⟨-, bytes, -⟩ := protect_spec m start length protection
    rw [restore]
    split
    · exact ih m
    · rcases changing : m.protect start length protection with ⟨_ | _, m₁⟩ <;>
        rw [changing] at bytes
      · exact bytes
      · exact (ih m₁).trans bytes

/-! ## Patches -/

/-- The pages of a range are those of its bytes. -/
theorem pageRange_spec (address length : Nat) :
    ∃ count, pageRange address length = (pageOf address, count * pageSize) ∧
      ∀ i < count, ∃ j < max length 1, pageOf (address + j) = pageOf address + i * pageSize := by
  generalize bytes : max length 1 = n
  have some : 0 < n := by omega
  refine ⟨(roundUp (address + n) pageSize - pageOf address) / pageSize, ?_, fun i h => ?_⟩
  · simp only [pageRange, bytes, Prod.mk.injEq, true_and]
    unfold roundUp pageOf roundDown pageSize
    omega
  · -- The first byte of the range on the page.
    refine ⟨max address (pageOf address + i * pageSize) - address, ?_, ?_⟩ <;>
      unfold roundUp pageOf roundDown pageSize at * <;> omega

theorem mem_pageRange {address length count : Nat}
    (range : pageRange address length = (pageOf address, count * pageSize)) {j : Nat}
    (h : j < max length 1) : ∃ i < count, pageOf (address + j) = pageOf address + i * pageSize := by
  have size := congrArg Prod.snd range
  simp only [pageRange] at size
  generalize max length 1 = n at size h
  refine ⟨(pageOf (address + j) - pageOf address) / pageSize, ?_, ?_⟩ <;>
    unfold roundUp pageOf roundDown pageSize at * <;> omega

/-- A part of a range is whole pages of it. -/
theorem mem_parts (g : m.Regular) {start count : Nat} (aligned : start % pageSize = 0)
    {part : Nat × Nat × Protection}
    (h : part ∈ protectionsOf m.mapRegions start (count * pageSize)) {i : Nat}
    (hi : i < part.2.1 / pageSize) : ∃ j < count, part.1 + i * pageSize = start + j * pageSize := by
  obtain ⟨r, mr, kept⟩ := List.mem_filterMap.mp h
  rw [mapRegions_eq] at mr
  obtain ⟨s, ms, rfl⟩ := List.mem_map.mp mr
  have first := g.aligned _ (start_regions m.pages ms)
  split at kept
  · cases kept
  · cases kept
    simp only [listed] at hi ⊢
    refine ⟨(max s.start start - start) / pageSize + i, ?_, ?_⟩ <;> unfold pageSize at * <;> omega

/-- The parts of a mapped range are mapped, as long as no page moves. -/
theorem parts_mapped (g : m.Regular) {start count : Nat} (aligned : start % pageSize = 0)
    (mapped : ∀ i < count, m.isMapped (start + i * pageSize) = true) (same : m'.places = m.places) :
    ∀ part ∈ protectionsOf m.mapRegions start (count * pageSize), ∀ i < part.2.1 / pageSize,
      m'.isMapped (part.1 + i * pageSize) = true := fun part mp i hi => by
  obtain ⟨j, hj, there⟩ := mem_parts g aligned mp hi
  rw [isMapped_congr same, there]
  exact mapped j hj

/-- A patch of mapped bytes succeeds, and it replaces those bytes and no others. -/
theorem patch_ok (g : m.Regular) (kind : PatchKind) (target : Nat) (data : List UInt8)
    (backup : Nat)
    (mapped : ∀ j < max data.length 1, m.isMapped (target + j) = true) :
    ∃ m', m.patch kind target data backup = (.ok (m.peek target (min backup data.length)), m') ∧
      m'.places = m.places ∧ m'.bytes = (m.write target data).bytes := by
  obtain ⟨count, range, touched⟩ := pageRange_spec target data.length
  have aligned := (pageOf_spec target).1
  have pages : ∀ i < count, pageOf target + i * pageSize ∈ m.places := fun i h => by
    obtain ⟨j, hj, page⟩ := touched i h
    exact page ▸ isMapped_iff.mp (mapped j hj)
  have pages' : ∀ i < count, m.isMapped (pageOf target + i * pageSize) = true := fun i h =>
    g.isMapped_of_mem (pages i h) (Nat.le_refl _) (Nat.lt_add_of_pos_right (by decide))
  have sum := (sum_parts m (pageOf target) (count * pageSize)).trans
    (sum_pages g (pageOf target) count pages)
  obtain ⟨places, bytes, done⟩ :=
    protect_spec m (pageOf target) (count * pageSize) kind.writable
  rw [Nat.mul_div_cancel _ (by decide : 0 < pageSize)] at done
  have ok := done.mpr pages'
  rcases changing : m.protect (pageOf target) (count * pageSize) kind.writable with ⟨_ | _, m₁⟩
  · simp [changing] at ok
  simp only [changing] at places bytes
  obtain ⟨m', restored, places', bytes'⟩ := restore_spec kind.writable _ (m₁.write target data)
    (parts_mapped g aligned pages' ((places_write target data).trans places))
  have peek : m₁.peek target = m.peek target := by
    funext n
    simp only [Memory.peek, bytes]
  refine ⟨m', ?_, places'.trans places, ?_⟩
  · simp only [patch, range, sum, ne_eq, not_true_eq_false, if_false, changing, restored, peek]
  · rw [bytes']
    simp only [write, bytes]

/-- Whatever comes of a patch, no page goes; if it fails, no byte has changed, and otherwise its
bytes were mapped. -/
theorem patch_cases (g : m.Regular) {kind : PatchKind} {target : Nat} {data : List UInt8}
    {backup : Nat} {result : Except Fault (List UInt8)}
    (h : m.patch kind target data backup = (result, m')) :
    m'.places = m.places ∧
      ((∃ e, result = .error e ∧ m'.bytes = m.bytes) ∨
        (∀ j < data.length, m.isMapped (target + j) = true) ∧
          result = .ok (m.peek target (min backup data.length)) ∧
          m'.bytes = (m.write target data).bytes) := by
  by_cases mapped : ∀ j < max data.length 1, m.isMapped (target + j) = true
  · obtain ⟨m₁, patched, places, bytes⟩ := patch_ok g kind target data backup mapped
    obtain ⟨rfl, rfl⟩ := Prod.mk.inj (patched.symm.trans h)
    exact ⟨places, Or.inr ⟨fun j hj => mapped j (by omega), rfl, bytes⟩⟩
  · obtain ⟨count, range, _⟩ := pageRange_spec target data.length
    obtain ⟨places, bytes, done⟩ :=
      protect_spec m (pageOf target) (count * pageSize) kind.writable
    rw [Nat.mul_div_cancel _ (by decide : 0 < pageSize)] at done
    simp only [patch, range] at h
    split at h
    · cases h
      exact ⟨rfl, Or.inl ⟨_, rfl, rfl⟩⟩
    · rcases changing : m.protect (pageOf target) (count * pageSize) kind.writable with ⟨_ | _, m₁⟩
      · simp only [changing] at h places bytes
        cases h
        exact ⟨places, Or.inl ⟨_, rfl, bytes⟩⟩
      · refine absurd (fun j hj => ?_) mapped
        obtain ⟨i, hi, page⟩ := mem_pageRange range hj
        have there := done.mp (by rw [changing]) i hi
        have aligned := (pageOf_spec (target + j)).1
        rw [isMapped_iff, ← page, pageOf_self aligned] at there
        exact isMapped_iff.mpr there

/-- A patch that succeeds leaves the bytes that it was given, whatever the memory is like. -/
theorem bytes_of_patch {kind : PatchKind} {target backup : Nat} {data covered : List UInt8}
    (h : m.patch kind target data backup = (.ok covered, m')) :
    m'.bytes = (m.write target data).bytes := by
  obtain ⟨-, bytes, -⟩ := protect_spec m (pageRange target data.length).1
    (pageRange target data.length).2 kind.writable
  unfold patch at h
  dsimp only at h
  split at h
  · cases h
  split at h
  · cases h
  · rename_i m₁ changing
    rw [changing] at bytes
    have back := bytes_restore kind.writable (protectionsOf m.mapRegions
      (pageRange target data.length).1 (pageRange target data.length).2) (m₁.write target data)
    split at h
    · cases h
    · rename_i m₂ restored
      rw [restored] at back
      cases h
      rw [back, write, write, show m₁.bytes = m.bytes from bytes]

end Memory

end Detouring
