-- What a page has room for. A block is taken at the lowest place where it fits, so nothing that
-- fits is passed over, and a page that has no block for a window has room for none.
import Detouring.Proofs.Memory.Allocation
import Detouring.Proofs.Memory.Searching

namespace Detouring

/-! ## Free lists -/

namespace FreeList

variable {base size align start x : Nat} {l rest : FreeList}

/-- Free bytes in a row belong to one free block. -/
theorem Tidy.exists_block (t : Tidy l) (filled : 0 < size)
    (free : ∀ o, x ≤ o → o < x + size → Covers l o) :
    ∃ b ∈ l, b.offset ≤ x ∧ x + size ≤ b.stop := by
  obtain ⟨b, mb, low, high⟩ := free x (Nat.le_refl x) (by omega)
  refine ⟨b, mb, low, ?_⟩
  by_contra short
  -- The first byte behind the block is taken, and no other block reaches over the gap.
  obtain ⟨c, mc, low', high'⟩ := free b.stop (by omega) (by omega)
  by_cases same : b = c
  · subst same
    omega
  · rcases Keyed.sublist_or_sublist mb mc same with before | behind
    · have := List.pairwise_pair.mp (t.apart.sublist before)
      omega
    · have := List.pairwise_pair.mp (t.apart.sublist behind)
      omega

/-- The padding leads to the next multiple and not past it. -/
theorem le_of_padding {address y : Nat} (low : address ≤ y) (aligned : y % align = 0) :
    address + padding address align ≤ y := by
  unfold padding
  split
  · exact low
  · rename_i between
    have split := Nat.div_add_mod address align
    obtain ⟨k, rfl⟩ := Nat.dvd_of_mod_eq_zero aligned
    have more : address / align < k := by
      by_contra less
      have := Nat.mul_le_mul_left align (Nat.le_of_not_lt less)
      exact between (by omega)
    have := Nat.mul_le_mul_left align (Nat.succ_le_of_lt more)
    rw [Nat.mul_succ] at this
    rcases Nat.eq_zero_or_pos align with rfl | some
    · simp at low
      omega
    · have := Nat.mod_lt address some
      omega

/-- Bytes are cut out of the first place where they fit. -/
theorem cut_least (s : Sorted l) (found : cut base size align l = some (start, rest)) :
    ∀ b ∈ l, b.offset ≤ x → x + size ≤ b.stop → (base + x) % align = 0 → start ≤ x := by
  induction l generalizing rest with
  | nil => cases found
  | cons b l ih =>
    obtain ⟨first, s'⟩ := List.pairwise_cons.mp s
    intro c mc low high aligned
    simp only [cut] at found
    split at found
    · rename_i room
      cases found
      rcases List.mem_cons.mp mc with rfl | mc
      · have := le_of_padding (Nat.add_le_add_left low base) aligned
        omega
      · have := first c mc
        simp only [FreeBlock.stop] at this
        omega
    · rename_i full
      simp only [Option.map_eq_some_iff, Prod.exists, Prod.mk.injEq] at found
      obtain ⟨_, tail, found, rfl, rfl⟩ := found
      rcases List.mem_cons.mp mc with rfl | mc
      · have := le_of_padding (Nat.add_le_add_left low base) aligned
        simp only [FreeBlock.stop] at high
        omega
      · exact ih s' found c mc low high aligned

/-- If nothing is cut out, the bytes fit nowhere. -/
theorem cut_none (found : cut base size align l = none) :
    ∀ b ∈ l, b.offset ≤ x → x + size ≤ b.stop → (base + x) % align ≠ 0 := by
  induction l with
  | nil => exact fun _ mb => (by cases mb)
  | cons b l ih =>
    intro c mc low high aligned
    simp only [cut] at found
    split at found
    · cases found
    · rename_i full
      rcases List.mem_cons.mp mc with rfl | mc
      · have := le_of_padding (Nat.add_le_add_left low base) aligned
        simp only [FreeBlock.stop] at high
        omega
      · exact ih (Option.map_eq_none_iff.mp found) c mc low high aligned

end FreeList

/-! ## Pages -/

namespace ArenaPage

open FreeList

variable {p p' : ArenaPage} {r : BlockRequest} {b : Block} {x : Nat}

/-- A block for the request could lie at `x`: the place is aligned, and its bytes are free. -/
structure Fits (p : ArenaPage) (r : BlockRequest) (x : Nat) : Prop where
  aligned : x % r.align = 0
  low : p.base ≤ x
  free : ∀ o, x - p.base ≤ o → o < x - p.base + r.size → Covers p.free o

/-- The page is of the right kind and stands in the window, and a block fits on it that ends in the
window. -/
def Offers (p : ArenaPage) (w : Window) (r : BlockRequest) : Prop :=
  p.executable = r.executable ∧ w.low ≤ p.base ∧ ∃ x, p.Fits r x ∧ x + r.size ≤ w.high

/-- The block that is taken is the lowest that fits. -/
theorem fits_take (t : Tidy p.free) (align : 0 < r.align) (filled : 0 < r.size)
    (taken : p.take r = some (b, p')) : p.Fits r b.base ∧ ∀ x, p.Fits r x → b.base ≤ x := by
  have aligned := Arena.aligned_take align taken
  obtain ⟨offset, free, found, rfl, _⟩ := Arena.Keeps.take_spec taken
  have inside := (FreeList.take_spec t found).2.1
  refine ⟨⟨aligned, Nat.le_add_right _ _, ?_⟩, fun x fits => ?_⟩
  · simpa using inside
  · obtain ⟨c, mc, low, high⟩ := t.exists_block filled fits.free
    simp only [FreeList.take, Option.map_eq_some_iff, Prod.exists, Prod.mk.injEq] at found
    obtain ⟨start, left, found, rfl, _⟩ := found
    have whole := Nat.add_sub_of_le fits.low
    have := cut_least t.sorted found c mc low high (whole.symm ▸ fits.aligned)
    show p.base + start ≤ x
    omega

theorem not_fits_of_take (t : Tidy p.free) (filled : 0 < r.size) (taken : p.take r = none) :
    ¬ p.Fits r x := by
  intro fits
  obtain ⟨c, mc, low, high⟩ := t.exists_block filled fits.free
  have found : cut p.base r.size r.align p.free = none := by
    simpa only [ArenaPage.take, FreeList.take, Option.map_eq_none_iff] using taken
  exact cut_none found c mc low high ((Nat.add_sub_of_le fits.low).symm ▸ fits.aligned)

/-- On a page without blocks, whatever lies on the page fits. -/
theorem fits_iff_of_isEmpty (whole : p.free = [⟨0, p.size⟩]) (filled : 0 < r.size) :
    p.Fits r x ↔ x % r.align = 0 ∧ p.base ≤ x ∧ x + r.size ≤ p.base + p.size := by
  have covers (o : Nat) : Covers p.free o ↔ o < p.size := whole ▸ covers_whole p.size o
  constructor
  · rintro ⟨aligned, low, free⟩
    have last := (covers _).mp (free (x - p.base + r.size - 1) (by omega) (by omega))
    exact ⟨aligned, low, by omega⟩
  · rintro ⟨aligned, low, high⟩
    exact ⟨aligned, low, fun o _ below => (covers o).mpr (by omega)⟩

end ArenaPage

/-! ## Pages of an arena -/

namespace Arena

variable {σ : Type} [PageSource σ] {a a' : Arena σ} {live : Set Block} {r : BlockRequest}
  {w : Window} {b : Block} {p : ArenaPage}

omit [PageSource σ] in
/-- A page has a block for the window if one fits. -/
theorem takeWithin_isSome (t : FreeList.Tidy p.free) (align : 0 < r.align) (filled : 0 < r.size) :
    (a.takeWithin p w r).1.isSome ↔ p.Offers w r := by
  unfold takeWithin
  split
  · rename_i unsuited
    refine ⟨fun never => (by cases never), fun ⟨kind, low, x, fits, high⟩ => ?_⟩
    have := fits.low
    rcases unsuited with other | below | above
    · exact (other kind).elim
    · omega
    · omega
  · rename_i suited
    rcases taken : p.take r with _ | ⟨b, p'⟩
    · refine ⟨fun never => (by cases never), fun ⟨_, _, x, fits, _⟩ => ?_⟩
      exact (ArenaPage.not_fits_of_take t filled taken fits).elim
    · obtain ⟨fits, least⟩ := ArenaPage.fits_take t align filled taken
      dsimp only
      split
      · rename_i outside
        refine ⟨fun never => (by cases never), fun ⟨_, low, x, fits', high⟩ => ?_⟩
        have := fits.low
        have := least x fits'
        omega
      · rename_i inside
        refine ⟨fun _ => ⟨?_, ?_, b.base, fits, ?_⟩, fun _ => rfl⟩
        · by_contra other
          exact suited (Or.inl other)
        · omega
        · omega

/-- If no page of a list has a block for the window, none of them has room for one. -/
theorem takeFirstWithin_none_iff (k : Keeps a live) (align : 0 < r.align) (filled : 0 < r.size)
    {pages : List ArenaPage} (sub : ∀ p ∈ pages, p ∈ a.pages) :
    (a.takeFirstWithin w r pages).1 = none ↔ ∀ p ∈ pages, ¬ p.Offers w r := by
  induction pages with
  | nil => simp [takeFirstWithin]
  | cons p rest ih =>
    have tidy := k.tidy p (sub p List.mem_cons_self)
    have here := takeWithin_isSome (a := a) (w := w) tidy align filled
    unfold takeFirstWithin
    rcases tried : a.takeWithin p w r with ⟨_ | b, a₁⟩ <;> rw [tried] at here
    · obtain rfl := takeWithin_none k (sub p List.mem_cons_self) filled tried
      rw [List.forall_mem_cons, ← ih fun q mq => sub q (List.mem_cons_of_mem _ mq), ← here]
      simp
    · have offers := here.mp rfl
      simp [offers]

/-- A page that has room for the window is among the pages that are asked. -/
theorem mem_nearestPages (filled : 0 < a.pageSize) (mp : p ∈ a.pages)
    (aligned : p.base % a.pageSize = 0) (offers : p.Offers w r) : p ∈ a.nearestPages w := by
  obtain ⟨_, low, x, fits, high⟩ := offers
  have := fits.low
  refine List.mem_mergeSort.mpr (List.mem_filter.mpr ⟨mp, ?_⟩)
  simp only [Bool.and_eq_true, decide_eq_true_eq]
  exact ⟨lowPage_le filled aligned low, (le_highPage_iff aligned).mpr (by omega)⟩

/-- The pages that are asked have no block for the window if no page has room. -/
theorem nearest_none_iff (k : Keeps a live) (align : 0 < r.align) (filled : 0 < r.size)
    (size : 0 < a.pageSize) (even : ∀ p ∈ a.pages, p.base % a.pageSize = 0) :
    (a.takeFirstWithin w r (a.nearestPages w)).1 = none ↔ ∀ p ∈ a.pages, ¬ p.Offers w r := by
  rw [takeFirstWithin_none_iff k align filled fun p => mem_of_mem_nearest]
  refine ⟨fun h p mp offers => ?_, fun h p mp => h p (mem_of_mem_nearest mp)⟩
  exact h p (mem_nearestPages size mp (even p mp) offers) offers

end Arena

end Detouring
