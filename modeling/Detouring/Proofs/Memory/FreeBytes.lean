-- The free bytes of a page, as a set. Taking a block removes its bytes from the set and giving
-- it back adds them, and a tidy free list is the only one of its set.
import Detouring.Memory.FreeList
import Detouring.Proofs.Keyed
import Mathlib.Tactic.ByContra

namespace Detouring

namespace FreeList

/-- The byte at this offset is free. -/
def Covers (l : FreeList) (o : Nat) : Prop := ∃ b ∈ l, b.offset ≤ o ∧ o < b.stop

/-- Each block ends before the next one begins. -/
def Sorted (l : FreeList) : Prop := l.Pairwise fun b c => b.stop ≤ c.offset

/-- No block is empty, and between two blocks something is taken. -/
structure Tidy (l : FreeList) : Prop where
  apart : l.Pairwise fun b c => b.stop < c.offset
  filled : ∀ b ∈ l, 0 < b.size

@[simp] theorem covers_nil (o : Nat) : ¬ Covers [] o := by
  rintro ⟨_, m, _⟩
  cases m

@[simp] theorem covers_cons (b : FreeBlock) (l : FreeList) (o : Nat) :
    Covers (b :: l) o ↔ (b.offset ≤ o ∧ o < b.stop) ∨ Covers l o := by
  simp [Covers]

@[simp] theorem covers_append (l l' : FreeList) (o : Nat) :
    Covers (l ++ l') o ↔ Covers l o ∨ Covers l' o := by
  simp [Covers, or_and_right, exists_or]

theorem Tidy.sorted {l : FreeList} (t : Tidy l) : Sorted l :=
  t.apart.imp fun h => Nat.le_of_lt h

/-- What is free is not below the first free block. -/
theorem le_of_covers {k o : Nat} {l : FreeList} (low : ∀ c ∈ l, k ≤ c.offset)
    (free : Covers l o) : k ≤ o := by
  obtain ⟨x, mx, le, _⟩ := free
  exact Nat.le_trans (low x mx) le

theorem tidy_cons {b : FreeBlock} {l : FreeList} :
    Tidy (b :: l) ↔ 0 < b.size ∧ (∀ c ∈ l, b.stop < c.offset) ∧ Tidy l := by
  constructor
  · rintro ⟨apart, filled⟩
    obtain ⟨first, apart⟩ := List.pairwise_cons.mp apart
    exact ⟨filled b List.mem_cons_self, first, apart,
      fun c m => filled c (List.mem_cons_of_mem _ m)⟩
  · rintro ⟨size, first, apart, filled⟩
    refine ⟨List.pairwise_cons.mpr ⟨first, apart⟩, fun c m => ?_⟩
    rcases List.mem_cons.mp m with rfl | m
    · exact size
    · exact filled c m

theorem tidy_whole {size : Nat} (filled : 0 < size) : Tidy [⟨0, size⟩] :=
  tidy_cons.mpr ⟨filled, by simp, List.Pairwise.nil, by simp⟩

theorem covers_whole (size o : Nat) : Covers [⟨0, size⟩] o ↔ o < size := by
  simp [FreeBlock.stop]

/-! ## Making a list tidy -/

theorem covers_join (b : FreeBlock) (l : FreeList) (o : Nat) :
    Covers (join b l) o ↔ (b.offset ≤ o ∧ o < b.stop) ∨ Covers l o := by
  cases l with
  | nil => simp [join]
  | cons next rest =>
    simp only [join]
    split
    · rename_i touch
      simp only [covers_cons, FreeBlock.stop] at touch ⊢
      have merged : (b.offset ≤ o ∧ o < b.offset + (b.size + next.size)) ↔
          (b.offset ≤ o ∧ o < b.offset + b.size) ∨
            (next.offset ≤ o ∧ o < next.offset + next.size) := by omega
      rw [merged, or_assoc]
    · simp

theorem covers_normalize (l : FreeList) (o : Nat) : Covers (normalize l) o ↔ Covers l o := by
  unfold normalize
  induction l with
  | nil => simp
  | cons b rest ih =>
    by_cases size : 0 < b.size
    · simp only [List.filter_cons, size, decide_true, if_true, List.foldr_cons, covers_join, ih,
        covers_cons]
    · have empty : ¬ (b.offset ≤ o ∧ o < b.stop) := by
        simp only [FreeBlock.stop]
        omega
      simp only [List.filter_cons, size, decide_false, Bool.false_eq_true, if_false, ih,
        covers_cons, empty, false_or]

theorem tidy_join {b : FreeBlock} {l : FreeList} (size : 0 < b.size) (t : Tidy l)
    (first : ∀ c ∈ l, b.stop ≤ c.offset) : Tidy (join b l) := by
  cases l with
  | nil => exact tidy_cons.mpr ⟨size, by simp, t⟩
  | cons next rest =>
    obtain ⟨nextSize, nextFirst, t'⟩ := tidy_cons.mp t
    simp only [join]
    split
    · rename_i touch
      refine tidy_cons.mpr ⟨by show 0 < b.size + next.size; omega, fun c m => ?_, t'⟩
      have := nextFirst c m
      simp only [FreeBlock.stop] at touch this ⊢
      omega
    · rename_i gap
      refine tidy_cons.mpr ⟨size, fun c m => ?_, t⟩
      have le := first next List.mem_cons_self
      rcases List.mem_cons.mp m with rfl | m
      · omega
      · have := nextFirst c m
        simp only [FreeBlock.stop] at this le gap ⊢
        omega

theorem le_offset_join {k : Nat} {b : FreeBlock} {l : FreeList} (hb : k ≤ b.offset)
    (hl : ∀ c ∈ l, k ≤ c.offset) : ∀ c ∈ join b l, k ≤ c.offset := by
  intro c m
  cases l with
  | nil => rw [join, List.mem_singleton] at m; exact m ▸ hb
  | cons next rest =>
    simp only [join] at m
    split at m
    · rcases List.mem_cons.mp m with rfl | m
      · exact hb
      · exact hl c (List.mem_cons_of_mem _ m)
    · rcases List.mem_cons.mp m with rfl | m
      · exact hb
      · exact hl c m

theorem tidy_normalize {l : FreeList} (s : Sorted l) : Tidy (normalize l) := by
  suffices both : Tidy (normalize l) ∧
      ∀ k, (∀ c ∈ l, k ≤ c.offset) → ∀ c ∈ normalize l, k ≤ c.offset from both.1
  unfold normalize
  induction l with
  | nil => exact ⟨⟨List.Pairwise.nil, by simp⟩, by simp⟩
  | cons b rest ih =>
    obtain ⟨first, s⟩ := List.pairwise_cons.mp s
    obtain ⟨t, low⟩ := ih s
    by_cases size : 0 < b.size
    · simp only [List.filter_cons, size, decide_true, if_true, List.foldr_cons]
      refine ⟨tidy_join size t (low b.stop first), fun k h => ?_⟩
      exact le_offset_join (h b List.mem_cons_self)
        (low k fun c m => h c (List.mem_cons_of_mem _ m))
    · simp only [List.filter_cons, size, decide_false, Bool.false_eq_true, if_false]
      exact ⟨t, fun k h => low k fun c m => h c (List.mem_cons_of_mem _ m)⟩

section FirstBlock

variable {b c : FreeBlock} {l l' : FreeList}

/-- What is free in the other blocks lies behind the first one, with a gap. -/
theorem Tidy.lt_of_covers (t : Tidy (b :: l)) {o : Nat} (free : Covers l o) : b.stop < o :=
  le_of_covers (tidy_cons.mp t).2.1 free

/-- Up to the end of the first block, and at its end, only that block counts. -/
theorem Tidy.covers_first (t : Tidy (b :: l)) {o : Nat} (le : o ≤ b.stop) :
    Covers (b :: l) o ↔ b.offset ≤ o ∧ o < b.stop := by
  rw [covers_cons]
  refine or_iff_left fun free => ?_
  have := t.lt_of_covers free
  omega

theorem Tidy.covers_tail (t : Tidy (b :: l)) (o : Nat) :
    Covers l o ↔ Covers (b :: l) o ∧ ¬ (b.offset ≤ o ∧ o < b.stop) := by
  rw [covers_cons]
  refine ⟨fun free => ⟨Or.inr free, ?_⟩, fun ⟨free, out⟩ => free.resolve_left out⟩
  have := t.lt_of_covers free
  omega

/-- The lowest free byte is the start of the first block. -/
theorem Tidy.offset_le (t : Tidy (b :: l)) (t' : Tidy (c :: l'))
    (sub : ∀ o, Covers (b :: l) o → Covers (c :: l') o) : c.offset ≤ b.offset := by
  have size := t.filled b List.mem_cons_self
  have free := sub b.offset ((covers_cons ..).mpr (Or.inl (by simp only [FreeBlock.stop]; omega)))
  by_contra lower
  exact lower ((t'.covers_first (by simp only [FreeBlock.stop]; omega)).mp free).1

/-- The first byte that is taken behind it is the end of the first block. -/
theorem Tidy.stop_le (t' : Tidy (c :: l')) (offset : b.offset = c.offset)
    (sub : ∀ o, Covers (b :: l) o → Covers (c :: l') o) : b.stop ≤ c.stop := by
  by_contra longer
  have free := sub c.stop ((covers_cons ..).mpr (Or.inl ⟨by simp only [FreeBlock.stop]; omega,
    by omega⟩))
  exact Nat.lt_irrefl _ ((t'.covers_first (Nat.le_refl _)).mp free).2

theorem Tidy.not_covers_nil (t : Tidy (b :: l)) (same : ∀ o, Covers (b :: l) o ↔ Covers [] o) :
    False := by
  have size := t.filled b List.mem_cons_self
  exact covers_nil b.offset ((same b.offset).mp ((covers_cons ..).mpr (Or.inl
    (by simp only [FreeBlock.stop]; omega))))

end FirstBlock

/-- Two tidy lists of the same free bytes are equal. -/
theorem Tidy.eq_of_covers {l l' : FreeList} (t : Tidy l) (t' : Tidy l')
    (same : ∀ o, Covers l o ↔ Covers l' o) : l = l' := by
  induction l generalizing l' with
  | nil =>
    cases l' with
    | nil => rfl
    | cons c rest => exact (t'.not_covers_nil fun o => (same o).symm).elim
  | cons b rest ih =>
    cases l' with
    | nil => exact (t.not_covers_nil same).elim
    | cons c rest' =>
      have sub (o : Nat) := (same o).mp
      have sub' (o : Nat) := (same o).mpr
      have offsets : b.offset = c.offset :=
        Nat.le_antisymm (t'.offset_le t sub') (t.offset_le t' sub)
      have stops : b.stop = c.stop :=
        Nat.le_antisymm (t'.stop_le offsets sub) (t.stop_le offsets.symm sub')
      have blocks : b = c := by
        cases b
        cases c
        simp only [FreeBlock.stop] at offsets stops
        simp only [FreeBlock.mk.injEq]
        omega
      subst blocks
      rw [ih (tidy_cons.mp t).2.2 (tidy_cons.mp t').2.2 fun o => by
        rw [t.covers_tail, t'.covers_tail, same o]]

/-! ## Taking and giving back -/

theorem cut_spec {base size align start : Nat} {l rest : FreeList} (s : Sorted l)
    (h : cut base size align l = some (start, rest)) :
    Sorted rest ∧ (∀ o, start ≤ o → o < start + size → Covers l o) ∧
      (∀ o, Covers rest o ↔ Covers l o ∧ ¬ (start ≤ o ∧ o < start + size)) ∧
      ∀ k, (∀ c ∈ l, k ≤ c.offset) → ∀ c ∈ rest, k ≤ c.offset := by
  induction l generalizing rest with
  | nil => cases h
  | cons b l ih =>
    obtain ⟨first, s'⟩ := List.pairwise_cons.mp s
    simp only [FreeBlock.stop] at first
    simp only [cut] at h
    split at h
    · rename_i room
      cases h
      generalize padding (base + b.offset) align = pad at room
      refine ⟨?_, fun o low high => ?_, fun o => ?_, fun k h c m => ?_⟩
      · refine List.pairwise_cons.mpr ⟨fun c m => ?_, List.pairwise_cons.mpr ⟨fun c m => ?_, s'⟩⟩
        · rcases List.mem_cons.mp m with rfl | m
          · simp only [FreeBlock.stop]; omega
          · have := first c m
            simp only [FreeBlock.stop]; omega
        · have := first c m
          simp only [FreeBlock.stop]; omega
      · refine (covers_cons ..).mpr (Or.inl ?_)
        simp only [FreeBlock.stop]; omega
      · simp only [covers_cons, FreeBlock.stop]
        by_cases inRest : Covers l o
        · have := le_of_covers first inRest
          simp only [inRest, or_true, true_and, true_iff]
          omega
        · simp only [inRest, or_false]
          omega
      · have := h b List.mem_cons_self
        simp only [List.mem_cons] at m
        rcases m with rfl | rfl | m
        · exact this
        · simp only; omega
        · exact h c (List.mem_cons_of_mem _ m)
    · simp only [Option.map_eq_some_iff, Prod.exists, Prod.mk.injEq] at h
      obtain ⟨begin', tail, found, rfl, rfl⟩ := h
      obtain ⟨sorted, inside, covers, low⟩ := ih s' found
      refine ⟨List.pairwise_cons.mpr ⟨low _ first, sorted⟩, fun o h1 h2 => ?_, fun o => ?_,
        fun k h c m => ?_⟩
      · exact (covers_cons ..).mpr (Or.inr (inside o h1 h2))
      · simp only [covers_cons, covers, FreeBlock.stop]
        by_cases inFirst : b.offset ≤ o ∧ o < b.offset + b.size
        · have outside : ¬ (begin' ≤ o ∧ o < begin' + size) := fun taken => by
            have := le_of_covers first (inside o taken.1 taken.2)
            omega
          simp only [inFirst, and_self, true_or, outside, not_false_eq_true]
        · simp [inFirst]
      · rcases List.mem_cons.mp m with rfl | m
        · exact h _ List.mem_cons_self
        · exact low k (fun c m => h c (List.mem_cons_of_mem _ m)) c m

theorem padding_aligns (address : Nat) {align : Nat} (h : 0 < align) :
    (address + padding address align) % align = 0 := by
  unfold padding
  split
  · assumption
  · have below := Nat.mod_lt address h
    have split := Nat.div_add_mod address align
    rw [show address + (align - address % align) = align * (address / align) + align by omega]
    simp

/-- What is cut out of a page begins at a multiple of the alignment. -/
theorem cut_aligned {base size align start : Nat} {l rest : FreeList} (h : 0 < align)
    (found : cut base size align l = some (start, rest)) : (base + start) % align = 0 := by
  induction l generalizing rest with
  | nil => cases found
  | cons b l ih =>
    simp only [cut] at found
    split at found
    · cases found
      rw [← Nat.add_assoc]
      exact padding_aligns _ h
    · simp only [Option.map_eq_some_iff, Prod.exists, Prod.mk.injEq] at found
      obtain ⟨_, tail, found, rfl, rfl⟩ := found
      exact ih found

theorem take_spec {base size align start : Nat} {l rest : FreeList} (t : Tidy l)
    (h : take base size align l = some (start, rest)) :
    Tidy rest ∧ (∀ o, start ≤ o → o < start + size → Covers l o) ∧
      ∀ o, Covers rest o ↔ Covers l o ∧ ¬ (start ≤ o ∧ o < start + size) := by
  unfold take at h
  simp only [Option.map_eq_some_iff, Prod.exists, Prod.mk.injEq] at h
  obtain ⟨_, left, found, rfl, rfl⟩ := h
  obtain ⟨sorted, inside, covers, _⟩ := cut_spec t.sorted found
  exact ⟨tidy_normalize sorted, inside, fun o => (covers_normalize left o).trans (covers o)⟩

theorem giveBack_spec {offset size : Nat} {l : FreeList} (t : Tidy l) (filled : 0 < size)
    (taken : ∀ o, offset ≤ o → o < offset + size → ¬ Covers l o) :
    Tidy (giveBack offset size l) ∧
      ∀ o, Covers (giveBack offset size l) o ↔ Covers l o ∨ (offset ≤ o ∧ o < offset + size) := by
  have parts := List.takeWhile_append_dropWhile (p := fun b => decide (b.offset < offset)) (l := l)
  unfold giveBack
  refine ⟨tidy_normalize ?_, fun o => ?_⟩
  · -- The blocks in front end before the bytes, and those behind begin after them.
    have front : ∀ b ∈ l.takeWhile (fun b => decide (b.offset < offset)), b.stop ≤ offset := by
      intro b m
      have low : b.offset < offset := Keyed.lt_of_mem_takeWhile m
      have there := (List.takeWhile_sublist _).subset m
      by_contra beyond
      exact taken offset (Nat.le_refl _) (by omega) ⟨b, there, Nat.le_of_lt low, by omega⟩
    have back : ∀ b ∈ l.dropWhile (fun b => decide (b.offset < offset)),
        offset + size ≤ b.offset := by
      intro b m
      have there := (List.dropWhile_sublist _).subset m
      have size := t.filled b there
      have := Keyed.le_of_mem_dropWhile (t.apart.imp fun h => by
        simp only [FreeBlock.stop] at h; omega) m
      by_contra beyond
      refine taken b.offset this (by omega) ⟨b, there, Nat.le_refl _, ?_⟩
      simp only [FreeBlock.stop]
      omega
    have sorted := t.sorted
    rw [← parts] at sorted
    obtain ⟨sortedFront, sortedBack, across⟩ := List.pairwise_append.mp sorted
    refine List.pairwise_append.mpr
      ⟨sortedFront, List.pairwise_cons.mpr ⟨back, sortedBack⟩, fun b m c m' => ?_⟩
    rcases List.mem_cons.mp m' with rfl | m'
    · exact front b m
    · exact across b m c m'
  · rw [covers_normalize, covers_append, covers_cons]
    conv => rhs; rw [← parts]
    rw [covers_append]
    simp only [FreeBlock.stop]
    grind

end FreeList

end Detouring
