-- What the moves of an arena do to its books. A block that is handed out is taken from a page
-- that is held or from a fresh one; a refusal takes nothing; a block that comes back is gone.
import Detouring.Proofs.Memory.ArenaBlocks

namespace Detouring

/-- Mapping and unmapping leave the size of the pages alone. -/
class SteadyPages (σ : Type) [PageSource σ] : Prop where
  mapPage (s : σ) (executable : Bool) :
    PageSource.pageSize (PageSource.mapPage s executable).2 = PageSource.pageSize s
  mapPageAt (s : σ) (address : Nat) (executable : Bool) :
    PageSource.pageSize (PageSource.mapPageAt s address executable).2 = PageSource.pageSize s
  unmapPage (s : σ) (address : Nat) :
    PageSource.pageSize (PageSource.unmapPage s address).2 = PageSource.pageSize s

namespace Arena

variable {σ : Type} [PageSource σ] {a a' : Arena σ} {live : Set Block} {r : BlockRequest}
  {w : Window} {b : Block}

/-- The arena with a page that its source has just mapped. -/
def grown (a : Arena σ) (source : σ) (base : Nat) (executable : Bool) : Arena σ :=
  ({ a with source }.addPage base executable).2

/-- A way to map a page for a request: anywhere, or at the free page nearest to a window. -/
def Maps (a : Arena σ) (w : Option Window) (executable : Bool) (e : Except Fault Nat)
    (source : σ) : Prop :=
  match w with
  | none => PageSource.mapPage a.source executable = (e, source)
  | some w => ∃ page, a.freePage w = some page ∧
      PageSource.mapPageAt a.source page executable = (e, source)

/-- The arena as it stands when a block is taken: as it was, or grown by a fresh page. -/
def Opened (a : Arena σ) (w : Option Window) (executable : Bool) (a₁ : Arena σ) : Prop :=
  a₁ = a ∨ ∃ base source, a.Maps w executable (.ok base) source ∧
    a₁ = a.grown source base executable

/-- How a block is taken. -/
def Taken (a : Arena σ) (w : Option Window) (r : BlockRequest) (b : Block) (a' : Arena σ) :
    Prop :=
  a.validate r = .ok () ∧ ∃ a₁, a.Opened w r.executable a₁ ∧ ∃ p ∈ a₁.pages, ∃ p',
    p.executable = r.executable ∧ p.take r = some (b, p') ∧ a' = a₁.setPage p'

/-- What a refusal may leave behind: no more than a page without blocks. -/
inductive Refused (a : Arena σ) (w : Option Window) (r : BlockRequest) : Arena σ → Prop where
  | asItWas : Refused a w r a
  | unmapped {e : Fault} {source : σ} (valid : a.validate r = .ok ())
      (maps : a.Maps w r.executable (.error e) source) : Refused a w r { a with source }
  | kept {base : Nat} {source : σ} (anywhere : w = none) (valid : a.validate r = .ok ())
      (maps : a.Maps w r.executable (.ok base) source) :
      Refused a w r (a.grown source base r.executable)
  | released {base : Nat} {source : σ} (valid : a.validate r = .ok ())
      (maps : a.Maps w r.executable (.ok base) source) :
      Refused a w r { a with
        source := (PageSource.unmapPage source base).2, nextNumber := a.nextNumber + 1 }

/-- A page that is mapped for a request lies beside the pages that are held. -/
def Clear (a : Arena σ) (w : Option Window) (executable : Bool) : Prop :=
  ∀ base source, a.Maps w executable (.ok base) source → ∀ p ∈ a.pages,
    base + a.pageSize ≤ p.base ∨ p.base + p.size ≤ base

/-! ## Inversion -/

theorem validate_ok (h : a.validate r = .ok ()) :
    0 < r.size ∧ r.align.isPowerOfTwo ∧ r.size ≤ a.pageSize := by
  unfold validate at h
  split at h
  · cases h
  · split at h
    · cases h
    · split at h
      · cases h
      · rename_i size align fits
        exact ⟨Nat.pos_of_ne_zero size, not_not.mp align, Nat.le_of_not_lt fits⟩

omit [PageSource σ] in
/-- A block starts at a multiple of its alignment. -/
theorem aligned_take {p p' : ArenaPage} (h : 0 < r.align) (taken : p.take r = some (b, p')) :
    b.base % r.align = 0 := by
  obtain ⟨offset, free, found, rfl, _⟩ := Keeps.take_spec taken
  unfold FreeList.take at found
  simp only [Option.map_eq_some_iff, Prod.exists, Prod.mk.injEq] at found
  obtain ⟨_, left, cut, rfl, _⟩ := found
  exact FreeList.cut_aligned h cut

theorem Taken.aligned {o : Option Window} (t : a.Taken o r b a') : b.base % r.align = 0 := by
  obtain ⟨valid, _, _, _, _, _, _, taken, _⟩ := t
  obtain ⟨_, ⟨k, power⟩, _⟩ := validate_ok valid
  exact aligned_take (power ▸ Nat.two_pow_pos k) taken

omit [PageSource σ] in
/-- A block from a page that is there already. -/
theorem takeAnywhere_eq_some (h : a.takeAnywhere r = some (b, a')) :
    ∃ p ∈ a.pages, ∃ p', p.executable = r.executable ∧ p.take r = some (b, p') ∧
      a' = a.setPage p' := by
  unfold takeAnywhere at h
  simp only [Option.map_eq_some_iff, Prod.exists, Prod.mk.injEq] at h
  obtain ⟨_, p', found, rfl, rfl⟩ := h
  obtain ⟨p, mp, taken⟩ := List.exists_of_findSome?_eq_some found
  split at taken
  · rename_i executable
    exact ⟨p, mp, p', executable, taken, rfl⟩
  · cases taken

/-- A block that was handed out was taken from a page. -/
theorem allocate_ok (h : a.allocate r = (.ok b, a')) : a.Taken none r b a' := by
  unfold allocate at h
  split at h
  · cases h
  · rename_i valid
    refine ⟨valid, ?_⟩
    split at h
    · rename_i found
      cases h
      exact ⟨a, Or.inl rfl, takeAnywhere_eq_some found⟩
    · split at h
      · cases h
      · rename_i base source mapped
        dsimp only at h
        split at h
        · rename_i _ p' taken
          cases h
          exact ⟨_, Or.inr ⟨base, source, mapped, rfl⟩, _, (mem_addPage _ _ _ _).mpr (Or.inl rfl),
            p', rfl, taken, rfl⟩
        · cases h

theorem allocate_error {e : Fault} (h : a.allocate r = (.error e, a')) :
    a.Refused none r a' := by
  unfold allocate at h
  split at h
  · cases h
    exact .asItWas
  · rename_i valid
    split at h
    · cases h
    · split at h
      · rename_i e' source mapped
        cases h
        exact .unmapped valid mapped
      · rename_i base source mapped
        dsimp only at h
        split at h
        · cases h
        · cases h
          exact .kept rfl valid mapped

/-- A page that has no block within the window stays as it was. -/
theorem takeWithin_none (k : Keeps a live) {p : ArenaPage} (mp : p ∈ a.pages)
    (filled : 0 < r.size) (h : a.takeWithin p w r = (none, a')) : a' = a := by
  unfold takeWithin at h
  split at h
  · cases h
    rfl
  · split at h
    · cases h
      rfl
    · rename_i b p' taken
      split at h
      · cases h
        rw [k.giveBack_take mp filled taken, k.setPage_self mp]
      · cases h

omit [PageSource σ] in
theorem takeWithin_some {p : ArenaPage} (h : a.takeWithin p w r = (some b, a')) :
    ∃ p', p.executable = r.executable ∧ p.take r = some (b, p') ∧ a' = a.setPage p' ∧
      w.low ≤ b.base ∧ b.base + r.size ≤ w.high := by
  unfold takeWithin at h
  split at h
  · cases h
  · rename_i suits
    split at h
    · cases h
    · rename_i b' p' taken
      split at h
      · cases h
      · rename_i inside
        cases h
        exact ⟨p', by tauto, taken, rfl, by omega, by omega⟩

theorem takeFirstWithin_none (k : Keeps a live) (filled : 0 < r.size) {pages : List ArenaPage}
    (sub : ∀ p ∈ pages, p ∈ a.pages) (h : a.takeFirstWithin w r pages = (none, a')) :
    a' = a := by
  induction pages with
  | nil =>
    cases h
    rfl
  | cons p rest ih =>
    unfold takeFirstWithin at h
    split at h
    · cases h
    · rename_i a₁ tried
      obtain rfl := takeWithin_none k (sub p List.mem_cons_self) filled tried
      exact ih (fun q mq => sub q (List.mem_cons_of_mem _ mq)) h

theorem takeFirstWithin_some (k : Keeps a live) (filled : 0 < r.size) {pages : List ArenaPage}
    (sub : ∀ p ∈ pages, p ∈ a.pages) (h : a.takeFirstWithin w r pages = (some b, a')) :
    ∃ p ∈ a.pages, a.takeWithin p w r = (some b, a') := by
  induction pages with
  | nil => cases h
  | cons p rest ih =>
    unfold takeFirstWithin at h
    split at h
    · rename_i b' a₁ taken
      cases h
      exact ⟨p, sub p List.mem_cons_self, taken⟩
    · rename_i a₁ tried
      obtain rfl := takeWithin_none k (sub p List.mem_cons_self) filled tried
      exact ih (fun q mq => sub q (List.mem_cons_of_mem _ mq)) h

theorem mem_of_mem_nearest {p : ArenaPage} (h : p ∈ a.nearestPages w) :
    p ∈ a.pages := by
  unfold nearestPages at h
  exact List.mem_of_mem_filter ((List.mem_mergeSort).mp h)

theorem Maps.pageSize [SteadyPages σ] {o : Option Window} {executable : Bool}
    {e : Except Fault Nat} {source : σ} (h : a.Maps o executable e source) :
    PageSource.pageSize source = a.pageSize := by
  cases o with
  | none =>
    have := SteadyPages.mapPage a.source executable
    rwa [show PageSource.mapPage a.source executable = (e, source) from h] at this
  | some w =>
    obtain ⟨page, _, mapped⟩ := h
    have := SteadyPages.mapPageAt a.source page executable
    rwa [mapped] at this

theorem Keeps.grown [SteadyPages σ] (k : Keeps a live) {o : Option Window} {executable : Bool}
    (clear : a.Clear o executable) (size : 0 < a.pageSize) {base : Nat} {source : σ}
    (maps : a.Maps o executable (.ok base) source) :
    Keeps (a.grown source base executable) live := by
  have same := maps.pageSize
  refine (k.source same).addPage (same ▸ size : 0 < PageSource.pageSize source) fun p mp => ?_
  have := clear base source maps p mp
  simpa only [Arena.pageSize, same] using this

theorem fst_releasePage (p : ArenaPage) : (a.releasePage p).1 = { a with
    pages := a.pages.filter (·.number != p.number)
    source := (PageSource.unmapPage a.source p.base).2 } := by
  unfold releasePage
  dsimp only
  split <;> rename_i unmapped <;> simp only [unmapped]

/-- Releasing a page that was just added leaves the others. -/
theorem releasePage_addPage (below : ∀ p ∈ a.pages, p.number < a.nextNumber) (base : Nat)
    (executable : Bool) :
    ((a.addPage base executable).2.releasePage (a.addPage base executable).1).1 = { a with
      source := (PageSource.unmapPage a.source base).2, nextNumber := a.nextNumber + 1 } := by
  have others : ∀ l : List ArenaPage, (∀ p ∈ l, p ∈ a.pages) →
      l.filter (·.number != a.nextNumber) = l := fun l sub =>
    List.filter_eq_self.mpr fun p mp => by simpa using Nat.ne_of_lt (below p (sub p mp))
  rw [fst_releasePage]
  simp only [addPage, List.filter_append, List.filter_cons, bne_self_eq_false,
    Bool.false_eq_true, if_false,
    others _ fun p mp => (List.takeWhile_sublist _).subset mp,
    others _ fun p mp => (List.dropWhile_sublist _).subset mp, List.takeWhile_append_dropWhile]

theorem allocateNear_ok [SteadyPages σ] (k : Keeps a live)
    (clear : a.Clear (some w) r.executable) {reports : List Report}
    (h : a.allocateNear w r = (.ok b, a', reports)) :
    a.Taken (some w) r b a' ∧ w.low ≤ b.base ∧ b.base + r.size ≤ w.high := by
  unfold allocateNear at h
  split at h
  · cases h
  · split at h
    · cases h
    · rename_i valid
      have filled := (validate_ok valid).1
      split at h
      · rename_i found
        cases h
        obtain ⟨p, mp, taken⟩ := takeFirstWithin_some k filled (fun p => mem_of_mem_nearest) found
        obtain ⟨p', executable, block, rfl, inside⟩ := takeWithin_some taken
        exact ⟨⟨valid, a, Or.inl rfl, p, mp, p', executable, block, rfl⟩, inside⟩
      · rename_i a₁ tried
        obtain rfl := takeFirstWithin_none k filled (fun p => mem_of_mem_nearest) tried
        split at h
        · cases h
        · rename_i page near
          split at h
          · cases h
          · rename_i base source mapped
            dsimp only at h
            split at h
            · rename_i taken
              cases h
              obtain ⟨p', executable, block, rfl, inside⟩ := takeWithin_some taken
              exact ⟨⟨valid, _, Or.inr ⟨base, source, ⟨page, near, mapped⟩, rfl⟩, _,
                (mem_addPage _ _ _ _).mpr (Or.inl rfl), p', executable, block, rfl⟩, inside⟩
            · cases h

theorem allocateNear_error [SteadyPages σ] (k : Keeps a live)
    (clear : a.Clear (some w) r.executable) {e : Fault} {reports : List Report}
    (h : a.allocateNear w r = (.error e, a', reports)) : a.Refused (some w) r a' := by
  unfold allocateNear at h
  split at h
  · cases h
    exact .asItWas
  · split at h
    · cases h
      exact .asItWas
    · rename_i valid
      obtain ⟨filled, _, fits⟩ := validate_ok valid
      split at h
      · cases h
      · rename_i a₁ tried
        obtain rfl := takeFirstWithin_none k filled (fun p => mem_of_mem_nearest) tried
        split at h
        · cases h
          exact .asItWas
        · rename_i page near
          split at h
          · rename_i mapped
            cases h
            exact .unmapped valid ⟨page, near, mapped⟩
          · rename_i base source mapped
            dsimp only at h
            split at h
            · cases h
            · rename_i a₂ tried
              have maps : a₁.Maps (some w) r.executable (.ok base) source := ⟨page, near, mapped⟩
              have k' := k.grown clear (by omega) maps
              obtain rfl := takeWithin_none k' ((mem_addPage _ _ _ _).mpr (Or.inl rfl)) filled tried
              cases h
              have same := @releasePage_addPage _ _ { a₁ with source } k.below base r.executable
              exact same ▸ .released valid maps

/-! ## The books after a move -/

omit [PageSource σ] in
theorem home_setPage {p p' q : ArenaPage} (mp : p ∈ a.pages) (number : p'.number = p.number)
    (base : p'.base = p.base) (mq : q ∈ (a.setPage p').pages) :
    ∃ p ∈ a.pages, p.number = q.number ∧ p.base = q.base := by
  rcases (mem_setPage mp number q).mp mq with rfl | ⟨mq, _⟩
  · exact ⟨p, mp, number.symm, base.symm⟩
  · exact ⟨q, mq, rfl, rfl⟩

omit [PageSource σ] in
theorem filter_setPage {p p' : ArenaPage} (number : p'.number = p.number) :
    (a.setPage p').pages.filter (·.number != p.number) =
      a.pages.filter (·.number != p.number) := by
  simp only [setPage, number]
  induction a.pages with
  | nil => rfl
  | cons q rest ih =>
    simp only [List.map_cons, List.filter_cons, ih]
    by_cases it : q.number = p.number <;> simp [it, number]

/-- A block that is handed out is new, and its bytes were free or are those of a fresh page. -/
theorem Keeps.taken [SteadyPages σ] (k : Keeps a live) {o : Option Window}
    (clear : a.Clear o r.executable) (t : a.Taken o r b a') :
    Keeps a' (insert b live) ∧ b ∉ live ∧ b.size = r.size ∧ b.executable = r.executable ∧
      ∃ a₁, a.Opened o r.executable a₁ ∧ Keeps a₁ live ∧ a'.source = a₁.source ∧
        (∀ q ∈ a'.pages, ∃ p ∈ a₁.pages, p.number = q.number ∧ p.base = q.base) ∧
        ∀ x, b.Has x → a₁.IsFree x := by
  obtain ⟨valid, a₁, opened, p, mp, p', executable, block, rfl⟩ := t
  obtain ⟨filled, _, fits⟩ := validate_ok valid
  have k₁ : Keeps a₁ live := by
    rcases opened with rfl | ⟨base, source, maps, rfl⟩
    · exact k
    · exact k.grown clear (by omega) maps
  obtain ⟨k', new, size, _, _, free⟩ := k₁.take mp filled block
  obtain ⟨_, _, _, rfl, rfl⟩ := take_spec block
  exact ⟨k', new, size, executable, a₁, opened, k₁, rfl,
    fun q mq => home_setPage mp (by rfl) (by rfl) mq, free⟩

theorem Keeps.refused [SteadyPages σ] (k : Keeps a live) {o : Option Window}
    (clear : a.Clear o r.executable) (t : a.Refused o r a') : Keeps a' live := by
  cases t with
  | asItWas => exact k
  | unmapped _ maps => exact k.source maps.pageSize
  | kept _ valid maps => exact k.grown clear (by have := validate_ok valid; omega) maps
  | @released base source valid maps =>
    have k' := k.source ((SteadyPages.unmapPage source base).trans maps.pageSize)
    exact { k' with below := fun p mp => Nat.lt_succ_of_lt (k.below p mp) }

/-- A block that comes back leaves its page behind, or takes it along as the last one. -/
theorem Keeps.free_cases (k : Keeps a live) (mb : b ∈ live) :
    ∃ p ∈ a.pages, p.number = b.page ∧
      ((∃ c ∈ live \ {b}, c.page = b.page) ∧ (a.free b).1 = a.setPage (p.giveBack b) ∨
        (∀ c ∈ live \ {b}, c.page ≠ b.page) ∧ (a.free b).1 = { a with
          pages := a.pages.filter (·.number != p.number)
          source := (PageSource.unmapPage a.source p.base).2 }) := by
  obtain ⟨p, mp, number, _, high, _, filled⟩ := k.home b mb
  refine ⟨p, mp, number, ?_⟩
  have found : a.pages.find? (·.number == b.page) = some p :=
    (Keyed.find?_eq_some_iff k.numbers).mpr ⟨mp, number⟩
  have k' := k.giveBack mb mp number
  have mp' := (@mem_setPage _ a p mp (p.giveBack b) rfl _).mpr (Or.inl rfl)
  have empty := k'.isEmpty_iff mp' (by show 0 < p.size; omega)
  unfold free
  simp only [found]
  split
  · rename_i isEmpty
    refine Or.inr ⟨fun c mc => number ▸ empty.mp isEmpty c mc, ?_⟩
    rw [fst_releasePage, filter_setPage rfl]
    rfl
  · rename_i filled
    refine Or.inl ⟨?_, rfl⟩
    by_contra none
    exact filled (empty.mpr fun c mc same => none ⟨c, mc, same.trans number⟩)

theorem Keeps.free [SteadyPages σ] (k : Keeps a live) (mb : b ∈ live) :
    Keeps (a.free b).1 (live \ {b}) := by
  obtain ⟨p, mp, number, ⟨_, same⟩ | ⟨none, same⟩⟩ := k.free_cases mb
  · exact same ▸ k.giveBack mb mp number
  · have k' := (k.giveBack mb mp number).release fun c mc => number ▸ none c mc
    rw [@filter_setPage _ a p (p.giveBack b) rfl] at k'
    exact same ▸ k'.source (SteadyPages.unmapPage a.source p.base)

end Arena

end Detouring
