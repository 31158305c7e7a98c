-- The books of an arena. Every byte of a page that it holds is free or belongs to one block that
-- was handed out, and no two blocks share a byte; taking and giving back keep it so.
import Detouring.Memory.Arena
import Detouring.Proofs.Keyed
import Detouring.Proofs.Memory.FreeBytes
import Mathlib.Data.Set.Insert

namespace Detouring

/-- The byte at this address belongs to the block. -/
def Block.Has (b : Block) (x : Nat) : Prop := b.base ≤ x ∧ x < b.base + b.size

namespace Arena

open FreeList

variable {σ : Type} [PageSource σ] {a : Arena σ} {live live' : Set Block} {p : ArenaPage}

/-- The arena holds the byte at this address and could hand it out. -/
def IsFree (a : Arena σ) (x : Nat) : Prop :=
  ∃ p ∈ a.pages, p.base ≤ x ∧ Covers p.free (x - p.base)

/-- The books of an arena that has handed out the blocks `live`. -/
structure Keeps (a : Arena σ) (live : Set Block) : Prop where
  numbers : (a.pages.map ArenaPage.number).Nodup
  below : ∀ p ∈ a.pages, p.number < a.nextNumber
  size : ∀ p ∈ a.pages, p.size = a.pageSize
  pagesApart : ∀ p ∈ a.pages, ∀ q ∈ a.pages, p.number ≠ q.number →
    p.base + p.size ≤ q.base ∨ q.base + q.size ≤ p.base
  tidy : ∀ p ∈ a.pages, Tidy p.free
  free_iff : ∀ p ∈ a.pages, ∀ o, Covers p.free o ↔
    o < p.size ∧ ∀ b ∈ live, b.page = p.number → ¬ b.Has (p.base + o)
  home : ∀ b ∈ live, ∃ p ∈ a.pages, p.number = b.page ∧ p.base ≤ b.base ∧
    b.base + b.size ≤ p.base + p.size ∧ p.executable = b.executable ∧ 0 < b.size
  apart : ∀ b ∈ live, ∀ c ∈ live, b ≠ c → b.base + b.size ≤ c.base ∨ c.base + c.size ≤ b.base

omit [PageSource σ] in
theorem mem_setPage (mp : p ∈ a.pages) {p' : ArenaPage} (same : p'.number = p.number)
    (q : ArenaPage) : q ∈ (a.setPage p').pages ↔ q = p' ∨ q ∈ a.pages ∧ q.number ≠ p.number := by
  simp only [setPage, List.mem_map]
  constructor
  · rintro ⟨x, mx, rfl⟩
    by_cases it : x.number = p'.number
    · exact Or.inl (if_pos it)
    · rw [if_neg it]
      exact Or.inr ⟨mx, same ▸ it⟩
  · rintro (rfl | ⟨mq, other⟩)
    · exact ⟨p, mp, if_pos same.symm⟩
    · exact ⟨q, mq, if_neg (same ▸ other)⟩

omit [PageSource σ] in
theorem setPage_numbers (a : Arena σ) {p' : ArenaPage} :
    (a.setPage p').pages.map ArenaPage.number = a.pages.map ArenaPage.number := by
  simp only [setPage, List.map_map]
  refine List.map_congr_left fun q _ => ?_
  by_cases it : q.number = p'.number <;> simp [it]

theorem perm_addPage (a : Arena σ) (base : Nat) (executable : Bool) :
    (a.addPage base executable).2.pages.Perm ((a.addPage base executable).1 :: a.pages) := by
  refine List.perm_middle.trans (List.Perm.cons _ ?_)
  rw [List.takeWhile_append_dropWhile]

theorem mem_addPage (a : Arena σ) (base : Nat) (executable : Bool) (q : ArenaPage) :
    q ∈ (a.addPage base executable).2.pages ↔
      q = (a.addPage base executable).1 ∨ q ∈ a.pages :=
  (a.perm_addPage base executable).mem_iff.trans List.mem_cons

namespace Keeps

theorem same_page (k : Keeps a live) {q : ArenaPage} (mp : p ∈ a.pages) (mq : q ∈ a.pages)
    (h : p.number = q.number) : p = q :=
  List.inj_on_of_nodup_map k.numbers mp mq h

/-- A byte of a block is not free. -/
theorem not_isFree (k : Keeps a live) {b : Block} (m : b ∈ live) {x : Nat} (h : b.Has x) :
    ¬ a.IsFree x := by
  rintro ⟨q, mq, low, covers⟩
  obtain ⟨p, mp, number, inside, inside', _⟩ := k.home b m
  obtain ⟨high, none⟩ := (k.free_iff q mq _).mp covers
  obtain ⟨h1, h2⟩ := h
  by_cases same : p.number = q.number
  · have := k.same_page mp mq same
    subst this
    refine none b m number.symm ⟨?_, ?_⟩ <;> omega
  · have := k.pagesApart p mp q mq same
    omega

/-! ## Changing one page -/

/-- A page gets another free list, and the blocks on it change along. -/
theorem setFree (k : Keeps a live) (mp : p ∈ a.pages) {free : FreeList} (tidy : Tidy free)
    (here : ∀ o, Covers free o ↔
      o < p.size ∧ ∀ b ∈ live', b.page = p.number → ¬ b.Has (p.base + o))
    (elsewhere : ∀ b, b.page ≠ p.number → (b ∈ live' ↔ b ∈ live))
    (inside : ∀ b ∈ live', b.page = p.number → p.base ≤ b.base ∧
      b.base + b.size ≤ p.base + p.size ∧ p.executable = b.executable ∧ 0 < b.size)
    (apart : ∀ b ∈ live', ∀ c ∈ live', b.page = p.number → c.page = p.number → b ≠ c →
      b.base + b.size ≤ c.base ∨ c.base + c.size ≤ b.base) :
    Keeps (a.setPage { p with free }) live' := by
  have mem := @mem_setPage _ a p mp { p with free } rfl
  have home : ∀ b ∈ live', ∃ q ∈ (a.setPage { p with free }).pages, q.number = b.page ∧
      q.base ≤ b.base ∧ b.base + b.size ≤ q.base + q.size ∧ q.executable = b.executable ∧
        0 < b.size := by
    intro b m
    by_cases it : b.page = p.number
    · exact ⟨_, (mem _).mpr (Or.inl rfl), it.symm, inside b m it⟩
    · obtain ⟨q, mq, number, rest⟩ := k.home b ((elsewhere b it).mp m)
      exact ⟨q, (mem q).mpr (Or.inr ⟨mq, number ▸ it⟩), number, rest⟩
  have pagesApart : ∀ q ∈ (a.setPage { p with free }).pages,
      ∀ q' ∈ (a.setPage { p with free }).pages, q.number ≠ q'.number →
        q.base + q.size ≤ q'.base ∨ q'.base + q'.size ≤ q.base := by
    intro q mq q' mq' other
    rcases (mem q).mp mq with rfl | ⟨mq, _⟩ <;> rcases (mem q').mp mq' with rfl | ⟨mq', _⟩
    · exact absurd rfl other
    · exact k.pagesApart p mp q' mq' other
    · exact k.pagesApart q mq p mp other
    · exact k.pagesApart q mq q' mq' other
  refine ⟨a.setPage_numbers ▸ k.numbers, fun q mq => ?_, fun q mq => ?_, pagesApart, fun q mq => ?_,
    fun q mq o => ?_, home, ?_⟩
  · rcases (mem q).mp mq with rfl | ⟨mq, _⟩
    · exact k.below p mp
    · exact k.below q mq
  · rcases (mem q).mp mq with rfl | ⟨mq, _⟩
    · exact k.size p mp
    · exact k.size q mq
  · rcases (mem q).mp mq with rfl | ⟨mq, _⟩
    · exact tidy
    · exact k.tidy q mq
  · rcases (mem q).mp mq with rfl | ⟨mq, other⟩
    · exact here o
    · rw [k.free_iff q mq o]
      refine and_congr_right fun _ => forall_congr' fun b => ?_
      constructor
      · exact fun h m number => h ((elsewhere b (number ▸ other)).mp m) number
      · exact fun h m number => h ((elsewhere b (number ▸ other)).mpr m) number
  · intro b mb c mc other
    by_cases same : b.page = c.page
    · by_cases it : b.page = p.number
      · exact apart b mb c mc it (same ▸ it) other
      · exact k.apart b ((elsewhere b it).mp mb) c ((elsewhere c (same ▸ it)).mp mc) other
    · obtain ⟨q, mq, number, low, high, _⟩ := home b mb
      obtain ⟨q', mq', number', low', high', _⟩ := home c mc
      have := pagesApart q mq q' mq' (by omega)
      omega

/-! ## Taking a block -/

theorem take_spec {r : BlockRequest} {b : Block} {p' : ArenaPage}
    (h : p.take r = some (b, p')) :
    ∃ offset free, p.free.take p.base r.size r.align = some (offset, free) ∧
      b = ⟨p.base + offset, r.size, p.executable, p.number⟩ ∧ p' = { p with free } := by
  simp only [ArenaPage.take, Option.map_eq_some_iff, Prod.exists, Prod.mk.injEq] at h
  obtain ⟨offset, free, found, rfl, rfl⟩ := h
  exact ⟨offset, free, found, rfl, rfl⟩

/-- A stretch of a page whose bytes are free is apart from every block of the page. -/
theorem apart_of_free (k : Keeps a live) (mp : p ∈ a.pages) {offset size : Nat} (filled : 0 < size)
    (free : ∀ o, offset ≤ o → o < offset + size → Covers p.free o) {c : Block} (mc : c ∈ live)
    (number : c.page = p.number) :
    p.base + offset + size ≤ c.base ∨ c.base + c.size ≤ p.base + offset := by
  obtain ⟨q, mq, number', low, high, _, filled'⟩ := k.home c mc
  have same := k.same_page mq mp (number'.trans number)
  subst same
  have unused (o : Nat) (h1 : offset ≤ o) (h2 : o < offset + size) : ¬ c.Has (q.base + o) :=
    ((k.free_iff q mq o).mp (free o h1 h2)).2 c mc number
  by_contra overlap
  -- The later of the two starts is a byte of both.
  by_cases order : c.base ≤ q.base + offset
  · exact unused offset (by omega) (by omega) ⟨order, by omega⟩
  · refine unused (c.base - q.base) (by omega) (by omega) ⟨?_, ?_⟩ <;> omega

/-- A block that is taken was free, so it is new and shares no byte with another. -/
theorem take (k : Keeps a live) (mp : p ∈ a.pages) {r : BlockRequest} (filled : 0 < r.size)
    {b : Block} {p' : ArenaPage} (h : p.take r = some (b, p')) :
    Keeps (a.setPage p') (insert b live) ∧ b ∉ live ∧ b.size = r.size ∧
      p.base ≤ b.base ∧ b.base + b.size ≤ p.base + p.size ∧ ∀ x, b.Has x → a.IsFree x := by
  obtain ⟨offset, free, found, rfl, rfl⟩ := take_spec h
  obtain ⟨tidy, inside, covers⟩ := FreeList.take_spec (k.tidy p mp) found
  have last := ((k.free_iff p mp _).mp (inside (offset + r.size - 1) (by omega) (by omega))).1
  have isFree : ∀ x, Block.Has ⟨p.base + offset, r.size, p.executable, p.number⟩ x →
      a.IsFree x := by
    rintro x ⟨h1, h2⟩
    exact ⟨p, mp, by dsimp only at h1; omega,
      inside _ (by dsimp only at h1; omega) (by dsimp only at h1 h2; omega)⟩
  have separate (c : Block) (mc : c ∈ live) (number : c.page = p.number) :
      p.base + offset + r.size ≤ c.base ∨ c.base + c.size ≤ p.base + offset :=
    k.apart_of_free mp filled inside mc number
  refine ⟨k.setFree mp tidy (fun o => ?_) (fun c other => ?_) (fun c mc number => ?_) ?_, ?_, rfl,
    by dsimp only; omega, by dsimp only; omega, isFree⟩
  · rw [covers, k.free_iff p mp]
    constructor
    · rintro ⟨⟨high, none⟩, outside⟩
      refine ⟨high, fun c mc number => ?_⟩
      rcases Set.mem_insert_iff.mp mc with rfl | mc
      · rintro ⟨h1, h2⟩
        dsimp only at h1 h2
        omega
      · exact none c mc number
    · rintro ⟨high, none⟩
      refine ⟨⟨high, fun c mc => none c (Set.mem_insert_of_mem _ mc)⟩, fun within => ?_⟩
      refine none _ (Set.mem_insert _ _) rfl ⟨?_, ?_⟩ <;> dsimp only <;> omega
  · rw [Set.mem_insert_iff]
    exact or_iff_right fun same => other (by rw [same])
  · rcases Set.mem_insert_iff.mp mc with rfl | mc
    · refine ⟨?_, ?_, rfl, filled⟩ <;> dsimp only <;> omega
    · obtain ⟨q, mq, number', rest⟩ := k.home c mc
      have same := k.same_page mq mp (number'.trans number)
      exact same ▸ rest
  · intro c mc d md number number' other
    rcases Set.mem_insert_iff.mp mc with rfl | mc <;>
      rcases Set.mem_insert_iff.mp md with rfl | md
    · exact absurd rfl other
    · exact separate d md number'
    · exact (separate c mc number).symm
    · exact k.apart c mc d md other
  · intro there
    have := separate _ there rfl
    dsimp only at this
    omega

/-! ## Giving a block back -/

/-- The bytes of a block that is given back are free, and no others change. -/
theorem covers_giveBack (k : Keeps a live) {b : Block} (mb : b ∈ live) (mp : p ∈ a.pages)
    (number : p.number = b.page) :
    Tidy (p.giveBack b).free ∧
      ∀ o, Covers (p.giveBack b).free o ↔ Covers p.free o ∨ b.Has (p.base + o) := by
  obtain ⟨q, mq, number', low, high, _, filled⟩ := k.home b mb
  have same := k.same_page mq mp (number'.trans number.symm)
  subst same
  have taken : ∀ o, b.base - q.base ≤ o → o < b.base - q.base + b.size → ¬ Covers q.free o :=
    fun o h1 h2 there => ((k.free_iff q mq o).mp there).2 b mb number'.symm
      ⟨by omega, by omega⟩
  obtain ⟨tidy, covers⟩ := FreeList.giveBack_spec (k.tidy q mq) filled taken
  refine ⟨tidy, fun o => (covers o).trans (or_congr_right ?_)⟩
  simp only [Block.Has]
  omega

/-- A block that is given back is gone from the books. -/
theorem giveBack (k : Keeps a live) {b : Block} (mb : b ∈ live) (mp : p ∈ a.pages)
    (number : p.number = b.page) : Keeps (a.setPage (p.giveBack b)) (live \ {b}) := by
  obtain ⟨tidy, covers⟩ := k.covers_giveBack mb mp number
  have inside : ∀ c ∈ live \ {b}, c.page = p.number → p.base ≤ c.base ∧
      c.base + c.size ≤ p.base + p.size ∧ p.executable = c.executable ∧ 0 < c.size := by
    intro c mc number'
    obtain ⟨q, mq, number'', rest⟩ := k.home c mc.1
    exact k.same_page mq mp (number''.trans number') ▸ rest
  refine k.setFree mp tidy (fun o => ?_) (fun c other => ?_) inside
    fun c mc d md _ _ => k.apart c mc.1 d md.1
  · refine (covers o).trans ?_
    rw [k.free_iff p mp]
    constructor
    · rintro (⟨high, none⟩ | has)
      · exact ⟨high, fun c mc => none c mc.1⟩
      · obtain ⟨q, mq, number', _, high', _⟩ := k.home b mb
        have same := k.same_page mq mp (number'.trans number.symm)
        subst same
        refine ⟨by have := has.2; omega, fun c mc _ has' => ?_⟩
        have := k.apart b mb c mc.1 (Ne.symm mc.2)
        have := has.1; have := has.2; have := has'.1; have := has'.2
        omega
    · rintro ⟨high, none⟩
      by_cases has : b.Has (p.base + o)
      · exact Or.inr has
      · refine Or.inl ⟨high, fun c mc number' => ?_⟩
        by_cases same : c = b
        · exact same ▸ has
        · exact none c ⟨mc, same⟩ number'
  · exact ⟨And.left, fun mc => ⟨mc, fun same => other (number ▸ congrArg Block.page same)⟩⟩

/-- Giving back at once what was taken leaves the page as it was. -/
theorem giveBack_take (k : Keeps a live) (mp : p ∈ a.pages) {r : BlockRequest}
    (filled : 0 < r.size) {b : Block} {p' : ArenaPage} (h : p.take r = some (b, p')) :
    p'.giveBack b = p := by
  obtain ⟨k', -, -, -, -, -⟩ := k.take mp filled h
  obtain ⟨offset, free, found, rfl, rfl⟩ := take_spec h
  obtain ⟨_, inside, covers⟩ := FreeList.take_spec (k.tidy p mp) found
  have mp' := (@mem_setPage _ a p mp { p with free } rfl _).mpr (Or.inl rfl)
  obtain ⟨tidy, covers'⟩ := k'.covers_giveBack (Set.mem_insert _ _) mp' rfl
  have free_eq := tidy.eq_of_covers (k.tidy p mp) fun o => by
    rw [covers' o, covers]
    simp only [Block.Has]
    constructor
    · rintro (⟨there, _⟩ | within)
      · exact there
      · exact inside o (by omega) (by omega)
    · intro there
      by_cases within : offset ≤ o ∧ o < offset + r.size
      · exact Or.inr (by omega)
      · exact Or.inl ⟨there, within⟩
  simpa only [ArenaPage.giveBack] using congrArg (fun f => { p with free := f }) free_eq

theorem setPage_self (k : Keeps a live) (mp : p ∈ a.pages) : a.setPage p = a := by
  have same : a.pages.map (fun q => if q.number = p.number then p else q) = a.pages := by
    refine (List.map_congr_left fun q mq => ?_).trans a.pages.map_id
    split
    · rename_i number
      exact (k.same_page mq mp number).symm
    · rfl
  simp only [setPage, same]

/-! ## Holding and releasing pages -/

/-- A page is empty if no block lies on it. -/
theorem isEmpty_iff (k : Keeps a live) (mp : p ∈ a.pages) (size : 0 < p.size) :
    p.isEmpty = true ↔ ∀ b ∈ live, b.page ≠ p.number := by
  rw [ArenaPage.isEmpty, beq_iff_eq]
  constructor
  · intro empty b mb number
    obtain ⟨q, mq, number', low, high, _, filled⟩ := k.home b mb
    have same := k.same_page mq mp (number'.trans number)
    subst same
    have covered : Covers q.free (b.base - q.base) := by
      rw [empty, covers_whole]
      omega
    refine ((k.free_iff q mq _).mp covered).2 b mb number ⟨?_, ?_⟩ <;> omega
  · intro none
    refine (k.tidy p mp).eq_of_covers (tidy_whole size) fun o => ?_
    rw [k.free_iff p mp, covers_whole]
    exact and_iff_left fun b mb number => absurd number (none b mb)

/-- A page that is not in the way of another one may be held. -/
theorem addPage (k : Keeps a live) {base : Nat} {executable : Bool} (size : 0 < a.pageSize)
    (clear : ∀ p ∈ a.pages, base + a.pageSize ≤ p.base ∨ p.base + p.size ≤ base) :
    Keeps (a.addPage base executable).2 live := by
  have mem := a.mem_addPage base executable
  have below : ∀ q ∈ a.pages, q.number ≠ (a.addPage base executable).1.number := fun q mq =>
    Nat.ne_of_lt (k.below q mq)
  have numbers : ((a.addPage base executable).2.pages.map ArenaPage.number).Nodup := by
    have fresh : a.nextNumber ∉ a.pages.map ArenaPage.number := fun there => by
      obtain ⟨q, mq, number⟩ := List.mem_map.mp there
      exact below q mq number
    exact ((a.perm_addPage base executable).map _).nodup_iff.mpr
      (List.nodup_cons.mpr ⟨fresh, k.numbers⟩)
  refine ⟨numbers, fun q mq => ?_, fun q mq => ?_, fun q mq q' mq' other => ?_,
    fun q mq => ?_, fun q mq o => ?_, fun b mb => ?_, k.apart⟩
  · rcases (mem q).mp mq with rfl | mq
    · exact Nat.lt_succ_self _
    · exact Nat.lt_succ_of_lt (k.below q mq)
  · rcases (mem q).mp mq with rfl | mq
    · rfl
    · exact k.size q mq
  · rcases (mem q).mp mq with rfl | mq <;> rcases (mem q').mp mq' with rfl | mq'
    · exact absurd rfl other
    · exact clear q' mq'
    · exact (clear q mq).symm
    · exact k.pagesApart q mq q' mq' other
  · rcases (mem q).mp mq with rfl | mq
    · exact tidy_whole size
    · exact k.tidy q mq
  · rcases (mem q).mp mq with rfl | mq
    · refine (covers_whole _ _).trans (and_iff_left fun b mb number => ?_).symm
      obtain ⟨q, mq, number', _⟩ := k.home b mb
      exact absurd (number'.trans number) (below q mq)
    · exact k.free_iff q mq o
  · obtain ⟨q, mq, rest⟩ := k.home b mb
    exact ⟨q, (mem q).mpr (Or.inr mq), rest⟩

theorem source (k : Keeps a live) {source : σ}
    (same : PageSource.pageSize source = a.pageSize) : Keeps { a with source } live :=
  ⟨k.numbers, k.below, fun p mp => (k.size p mp).trans same.symm, k.pagesApart, k.tidy,
    k.free_iff, k.home, k.apart⟩

/-- A page without blocks may go. -/
theorem release (k : Keeps a live) {number : Nat} (none : ∀ b ∈ live, b.page ≠ number) :
    Keeps { a with pages := a.pages.filter (·.number != number) } live := by
  have sub : ∀ {q}, q ∈ a.pages.filter (·.number != number) → q ∈ a.pages := fun m =>
    List.mem_of_mem_filter m
  refine ⟨(List.filter_sublist.map _).nodup k.numbers, fun q mq => k.below q (sub mq),
    fun q mq => k.size q (sub mq), fun q mq q' mq' => k.pagesApart q (sub mq) q' (sub mq'),
    fun q mq => k.tidy q (sub mq), fun q mq => k.free_iff q (sub mq), fun b mb => ?_, k.apart⟩
  obtain ⟨q, mq, number', rest⟩ := k.home b mb
  have other : q.number ≠ number := number' ▸ none b mb
  exact ⟨q, List.mem_filter.mpr ⟨mq, by simpa using other⟩, number', rest⟩

end Keeps

end Arena

end Detouring
