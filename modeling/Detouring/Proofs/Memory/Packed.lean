-- No page is kept without blocks. A page that is mapped for a block is the one that the block comes
-- from, and the last block that comes back takes its page along. So memory that was mapped before
-- the arena was used stays mapped, whatever is taken and given back meanwhile.
import Detouring.Proofs.Memory.Holdings

namespace Detouring

namespace Arena

variable {σ : Type} [PageSource σ] {a a' : Arena σ} {live : Set Block} {b : Block}
  {r : BlockRequest} {w : Window} {p p' : ArenaPage}

omit [PageSource σ] in
/-- Each page has a block. -/
def Packed (a : Arena σ) : Prop := ∀ p ∈ a.pages, p.isEmpty = false

/-! ## Taking -/

/-- The page that a block is taken from has a block. -/
theorem Keeps.packed_take (k : Keeps a live) (size : 0 < p.size) (mp : p ∈ a.pages)
    (filled : 0 < r.size) (taken : p.take r = some (b, p'))
    (others : ∀ q ∈ a.pages, q.number ≠ p.number → q.isEmpty = false) :
    (a.setPage p').Packed := by
  obtain ⟨k', _⟩ := k.take mp filled taken
  obtain ⟨_, _, _, rfl, rfl⟩ := take_spec taken
  intro q mq
  rcases (mem_setPage mp (by rfl) q).mp mq with rfl | ⟨there, other⟩
  · by_contra empty
    exact (k'.isEmpty_iff mq size).mp (by simpa using empty) _ (Set.mem_insert _ _) rfl
  · exact others q there other

/-- A fresh page has room for every block that is aligned like the page. -/
theorem exists_take_fresh (a : Arena σ) (base : Nat) (executable : Bool)
    (fits : r.size ≤ a.pageSize) (aligned : base % r.align = 0) :
    ∃ b p', (a.addPage base executable).1.take r = some (b, p') := by
  simp [ArenaPage.take, FreeList.take, FreeList.cut, FreeList.padding, addPage, aligned, fits]

/-- A block from a fresh page leaves no page empty. -/
theorem Keeps.packed_fresh (packed : a.Packed) {base : Nat} {executable : Bool}
    (grown : Keeps (a.addPage base executable).2 live) (size : 0 < a.pageSize)
    (filled : 0 < r.size) (taken : (a.addPage base executable).1.take r = some (b, p')) :
    ((a.addPage base executable).2.setPage p').Packed := by
  refine grown.packed_take size ((mem_addPage _ _ _ _).mpr (Or.inl rfl)) filled taken ?_
  intro q mq other
  rcases (mem_addPage _ _ _ _).mp mq with rfl | mq
  · exact (other rfl).elim
  · exact packed q mq

theorem Keeps.packed_allocate [SteadyPages σ] (k : Keeps a live) (packed : a.Packed)
    (clear : a.Clear none r.executable)
    (aligned : ∀ base source, a.Maps none r.executable (.ok base) source → base % r.align = 0)
    {result : Except Fault Block} (h : a.allocate r = (result, a')) : a'.Packed := by
  unfold allocate at h
  split at h
  · cases h
    exact packed
  · rename_i valid
    obtain ⟨filled, _, fits⟩ := validate_ok valid
    split at h
    · rename_i found
      cases h
      obtain ⟨p, mp, p', _, taken, rfl⟩ := takeAnywhere_eq_some found
      have size : 0 < p.size := by
        rw [k.size p mp]
        omega
      exact k.packed_take size mp filled taken fun q mq _ => packed q mq
    · split at h
      · cases h
        exact packed
      · rename_i base source mapped
        have grown := k.grown clear (by omega) mapped
        have same := Maps.pageSize (o := none) mapped
        have size : PageSource.pageSize source = a.pageSize := same
        obtain ⟨b, p', taken⟩ := exists_take_fresh (r := r) { a with source }
          base r.executable (fits.trans_eq size.symm) (aligned base source mapped)
        dsimp only at h
        rw [taken] at h
        cases h
        exact Keeps.packed_fresh (a := { a with source }) packed grown
          (by show 0 < PageSource.pageSize source; omega) filled taken

theorem Keeps.packed_allocateNear [SteadyPages σ] (k : Keeps a live) (packed : a.Packed)
    (clear : a.Clear (some w) r.executable) {result : Except Fault Block} {reports : List Report}
    (h : a.allocateNear w r = (result, a', reports)) : a'.Packed := by
  unfold allocateNear at h
  split at h
  · cases h
    exact packed
  · split at h
    · cases h
      exact packed
    · rename_i valid
      obtain ⟨filled, _, fits⟩ := validate_ok valid
      split at h
      · rename_i found
        cases h
        obtain ⟨p, mp, taken⟩ := takeFirstWithin_some k filled (fun p => mem_of_mem_nearest) found
        obtain ⟨p', _, block, rfl, _⟩ := takeWithin_some taken
        have size : 0 < p.size := by
          rw [k.size p mp]
          omega
        exact k.packed_take size mp filled block fun q mq _ => packed q mq
      · rename_i a₁ tried
        obtain rfl := takeFirstWithin_none k filled (fun p => mem_of_mem_nearest) tried
        split at h
        · cases h
          exact packed
        · rename_i page near
          split at h
          · cases h
            exact packed
          · rename_i base source mapped
            have maps : a₁.Maps (some w) r.executable (.ok base) source := ⟨page, near, mapped⟩
            have grown := k.grown clear (by omega) maps
            dsimp only at h
            split at h
            · rename_i taken
              cases h
              obtain ⟨p', _, block, rfl, _⟩ := takeWithin_some taken
              have size : PageSource.pageSize source = a₁.pageSize := maps.pageSize
              exact Keeps.packed_fresh (a := { a₁ with source }) packed grown
                (by show 0 < PageSource.pageSize source; omega) filled block
            · rename_i a₂ tried
              obtain rfl :=
                takeWithin_none grown ((mem_addPage _ _ _ _).mpr (Or.inl rfl)) filled tried
              cases h
              have same := @releasePage_addPage _ _ { a₁ with source } k.below base r.executable
              exact same ▸ packed

/-! ## Giving back -/

/-- A page without blocks goes back. -/
theorem Packed.free (packed : a.Packed) (b : Block) : (a.free b).1.Packed := by
  unfold Arena.free
  split
  · exact packed
  · rename_i p found
    have mp := List.mem_of_find?_eq_some found
    have mem := @mem_setPage _ a p mp (p.giveBack b) rfl
    dsimp only
    split
    · rw [fst_releasePage]
      intro q mq
      obtain ⟨mq, other⟩ := List.mem_filter.mp mq
      rcases (mem q).mp mq with rfl | ⟨mq, _⟩
      · simp at other
      · exact packed q mq
    · rename_i filled
      intro q mq
      rcases (mem q).mp mq with rfl | ⟨mq, _⟩
      · simpa using filled
      · exact packed q mq

end Arena

/-! ## Machines -/

namespace Machine

open Arena

variable {m m' : Machine} {K : List Block} {live : Set Block} {b : Block} {r : BlockRequest}

/-- Each page of the arena has a block. -/
def Packed (m : Machine) : Prop := m.arena.Packed

namespace Packed

theorem of_pages (packed : m.Packed) (same : m'.arena.pages = m.arena.pages) : m'.Packed :=
  fun p mp => packed p (same ▸ mp)

theorem of_arena (packed : m.Packed) (same : m'.arena = m.arena) : m'.Packed :=
  packed.of_pages (congrArg Arena.pages same)

theorem free (packed : m.Packed) (b : Block) : (m.free b).Packed := Arena.Packed.free packed b

theorem freeAll (packed : m.Packed) (blocks : List Block) : (m.freeAll blocks).Packed := by
  induction blocks generalizing m with
  | nil => exact packed
  | cons b rest ih => exact ih (packed.free b)

/-- The page of a block that is to be handed out is aligned like the block. -/
theorem allocate (packed : m.Packed) (h : m.Holds K) (aligned : r.align ∣ pageSize) :
    (Machine.allocate r).Ends m (fun _ m' => m'.Packed) Packed := by
  obtain ⟨live, s, _⟩ := h.sound
  refine .of_left (s.books.packed_allocate packed (s.clear none r.executable) ?_ rfl)
  intro base source maps
  obtain ⟨_, ⟨_, same, _⟩ | ⟨_, same, multiple, _⟩⟩ := s.maps_cases maps
  · cases same
  · cases same
    exact Nat.mod_eq_zero_of_dvd (Nat.dvd_trans aligned (Nat.dvd_of_mod_eq_zero multiple))

theorem allocateNear (packed : m.Packed) (h : m.Holds K) (w : Window) (r : BlockRequest) :
    (Machine.allocateNear w r).Ends m (fun _ m' => m'.Packed) Packed := by
  obtain ⟨live, s, _⟩ := h.sound
  exact .of_left (s.books.packed_allocateNear packed (s.clear (some w) r.executable) rfl)

end Packed

/-! ## What stays mapped -/

/-- A block that was taken and is given back does not take memory along that was mapped before. -/
theorem Sound.mapped_free (s : m.Sound live) (packed : m.Packed) (s' : m'.Sound (insert b live))
    (new : b ∉ live) (stays : ∀ x, m.Foreign x → m'.Foreign x) {x : Nat}
    (before : m.memory.isMapped x = true) (mapped : m'.memory.isMapped x = true) :
    (m'.free b).memory.isMapped x = true := by
  obtain ⟨p, mp, number, ⟨_, freed⟩ | ⟨alone, freed⟩⟩ := s'.books.free_cases (Set.mem_insert b live)
  · have memory : (m'.free b).memory = m'.memory := by
      unfold Machine.memory
      rw [show (m'.free b).arena = (m'.arena.free b).1 from rfl, freed]
      rfl
    exact memory ▸ mapped
  · have memory : (m'.free b).memory = m'.memory.unmap p.base := by
      unfold Machine.memory
      rw [show (m'.free b).arena = (m'.arena.free b).1 from rfl, freed]
      rfl
    rw [memory]
    refine Memory.isMapped_iff.mpr (Memory.mem_places_unmap.mpr ⟨Memory.isMapped_iff.mp mapped, ?_⟩)
    -- Otherwise the byte lay on a page of the arena before, and the block of that page is there.
    intro page
    have held : ∃ q ∈ m.arena.pages, q.base = pageOf x := by
      by_contra none
      have foreign : m.Foreign x := ⟨before, fun q mq same => none ⟨q, mq, same⟩⟩
      exact (stays x foreign).2 p mp page.symm
    obtain ⟨q, mq, same⟩ := held
    have size : 0 < q.size := by
      rw [s.size mq]
      decide
    have some : ¬ ∀ c ∈ live, c.page ≠ q.number := fun none => by
      have empty := (s.books.isEmpty_iff mq size).mpr none
      cases empty.symm.trans (packed q mq)
    push Not at some
    obtain ⟨c, mc, there⟩ := some
    refine alone c ⟨Set.mem_insert_of_mem b mc, fun it => new (it ▸ mc)⟩ ?_
    obtain ⟨q', mq', number', low, high, _, filled⟩ := s.books.home c mc
    obtain rfl := s.books.same_page mq' mq (number'.trans there)
    obtain ⟨p', mp', number'', low', high', _⟩ := s'.books.home c (Set.mem_insert_of_mem b mc)
    have base : p'.base = p.base :=
      calc p'.base = pageOf c.base := s'.base_eq mp' low' (by omega)
        _ = q'.base := (s.base_eq mq low (by omega)).symm
        _ = p.base := same.trans page
    have one : p'.number = p.number := by
      by_contra other
      have := s'.books.pagesApart p' mp' p mp other
      rw [s'.size mp', s'.size mp, base] at this
      unfold pageSize at this
      omega
    exact number''.symm.trans (one.trans number)

end Machine

end Detouring
