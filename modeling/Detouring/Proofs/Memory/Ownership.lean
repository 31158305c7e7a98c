-- Who owns the bytes of a process. A byte is owned if it is mapped and the arena could not hand
-- it out. Allocating changes no mapped byte and takes none that is owned; freeing a block gives
-- up its own bytes and no others.
import Detouring.Machine
import Detouring.Proofs.Memory.Allocation
import Detouring.Proofs.Memory.Restoring
import Detouring.Proofs.Memory.Searching

namespace Detouring

instance : SteadyPages PageSupply where
  mapPage _ _ := rfl
  mapPageAt _ _ _ := rfl
  unmapPage _ _ := rfl

namespace Machine

open Arena

variable {m m' : Machine} {live : Set Block} {b : Block} {r : BlockRequest}

/-- The byte is mapped, and the arena does not have it to give. -/
def Owned (m : Machine) (x : Nat) : Prop := m.memory.isMapped x = true ∧ ¬ m.arena.IsFree x

/-- The byte is mapped, and not on a page of the arena. -/
def Foreign (m : Machine) (x : Nat) : Prop :=
  m.memory.isMapped x = true ∧ ∀ p ∈ m.arena.pages, p.base ≠ pageOf x

/-- The bytes of a page that is mapped, and not one of the arena. -/
theorem foreign_of_page {page x : Nat} (aligned : page % pageSize = 0)
    (mapped : page ∈ m.memory.places) (others : ∀ p ∈ m.arena.pages, p.base ≠ page)
    (low : page ≤ x) (high : x < page + pageSize) : m.Foreign x := by
  have here : pageOf x = page := pageOf_eq aligned low high
  exact ⟨Memory.isMapped_iff.mpr (here ▸ mapped), here ▸ others⟩

/-- The arena and the memory agree, and these are the blocks that were handed out. -/
structure Sound (m : Machine) (live : Set Block) : Prop where
  books : m.arena.Keeps live
  regular : m.memory.Regular
  held : ∀ p ∈ m.arena.pages, p.base ∈ m.memory.places
  next : m.arena.source.next % pageSize = 0

/-- What was mapped is as it was, and what was owned is owned. No page of others becomes one of
the arena. -/
structure Extends (m m' : Machine) : Prop where
  mapped : ∀ x, m.memory.isMapped x = true → m'.memory.isMapped x = true
  bytes : ∀ x, m.memory.isMapped x = true → m'.memory.bytes x = m.memory.bytes x
  guards : ∀ x, m.memory.isMapped x = true →
    m'.memory.protectionAt? x = m.memory.protectionAt? x
  owned : ∀ x, m.Owned x → m'.Owned x
  foreign : ∀ x, m.Foreign x → m'.Foreign x

/-- The log does not matter. -/
theorem Extends.of_arena (same : m'.arena = m.arena) : m.Extends m' := by
  obtain ⟨a, log⟩ := m
  obtain ⟨a', log'⟩ := m'
  cases same
  exact ⟨fun _ h => h, fun _ _ => rfl, fun _ _ => rfl, fun _ h => h, fun _ h => h⟩

theorem Extends.of_pages (pages : m'.arena.pages = m.arena.pages)
    (mapped : ∀ x, m.memory.isMapped x = true → m'.memory.isMapped x = true)
    (bytes : ∀ x, m.memory.isMapped x = true → m'.memory.bytes x = m.memory.bytes x)
    (guards : ∀ x, m.memory.isMapped x = true →
      m'.memory.protectionAt? x = m.memory.protectionAt? x) :
    m.Extends m' := by
  refine ⟨mapped, bytes, guards, fun x h => ⟨mapped x h.1, ?_⟩, fun x h => ⟨mapped x h.1, ?_⟩⟩
  · unfold IsFree
    exact pages ▸ h.2
  · exact pages ▸ h.2

theorem Extends.trans {m'' : Machine} (e : m.Extends m') (e' : m'.Extends m'') :
    m.Extends m'' :=
  ⟨fun x h => e'.mapped x (e.mapped x h),
    fun x h => (e'.bytes x (e.mapped x h)).trans (e.bytes x h),
    fun x h => (e'.guards x (e.mapped x h)).trans (e.guards x h),
    fun x h => e'.owned x (e.owned x h), fun x h => e'.foreign x (e.foreign x h)⟩

namespace Sound

theorem of_arena (s : m.Sound live) (same : m'.arena = m.arena) : m'.Sound live := by
  obtain ⟨a, log⟩ := m
  obtain ⟨a', log'⟩ := m'
  cases same
  exact ⟨s.books, s.regular, s.held, s.next⟩

/-- An arena that holds no pages agrees with every memory. -/
theorem fresh (none : m.arena.pages = []) (regular : m.memory.Regular)
    (next : m.arena.source.next % pageSize = 0) : m.Sound ∅ := by
  refine ⟨⟨?_, ?_, ?_, ?_, ?_, ?_, fun b mb => absurd mb (Set.notMem_empty b),
    fun b mb => absurd mb (Set.notMem_empty b)⟩, regular, ?_, next⟩ <;> simp [none]

theorem size (s : m.Sound live) {p : ArenaPage} (mp : p ∈ m.arena.pages) : p.size = pageSize :=
  s.books.size p mp

/-- The bytes of a live block are owned. -/
theorem owned (s : m.Sound live) (mb : b ∈ live) {x : Nat} (h : b.Has x) : m.Owned x := by
  obtain ⟨p, mp, _, low, high, _⟩ := s.books.home b mb
  obtain ⟨h1, h2⟩ := h
  rw [s.size mp] at high
  exact ⟨s.regular.isMapped_of_mem (s.held p mp) (by omega) (by omega),
    s.books.not_isFree mb ⟨h1, h2⟩⟩

/-- The page of a byte, if the arena holds it. -/
theorem base_eq (s : m.Sound live) {p : ArenaPage} (mp : p ∈ m.arena.pages) {x : Nat}
    (low : p.base ≤ x) (high : x < p.base + p.size) : p.base = pageOf x :=
  (pageOf_eq (s.regular.aligned _ (s.held p mp)) low (s.size mp ▸ high)).symm

/-- An owned byte on a page of the arena belongs to a block. -/
theorem exists_block (s : m.Sound live) {x : Nat} (h : m.Owned x) {p : ArenaPage}
    (mp : p ∈ m.arena.pages) (page : p.base = pageOf x) :
    ∃ c ∈ live, c.page = p.number ∧ c.Has x := by
  obtain ⟨_, low, high⟩ := pageOf_spec x
  have inside : x - p.base < p.size := by rw [s.size mp]; omega
  by_contra none
  refine h.2 ⟨p, mp, by omega, (s.books.free_iff p mp _).mpr ⟨inside, fun c mc number has => ?_⟩⟩
  rw [Nat.add_sub_of_le (by omega)] at has
  exact none ⟨c, mc, number, has⟩

/-! ## Writing -/

theorem withMemory (s : m.Sound live) {memory : Memory}
    (same : memory.places = m.memory.places) : (m.withMemory memory).Sound live :=
  ⟨⟨s.books.numbers, s.books.below, s.books.size, s.books.pagesApart, s.books.tidy,
    s.books.free_iff, s.books.home, s.books.apart⟩, s.regular.of_places same,
    fun p mp => (same ▸ s.held p mp : p.base ∈ memory.places), s.next⟩

end Sound

theorem foreign_withMemory {memory : Memory} (same : memory.places = m.memory.places) (x : Nat) :
    (m.withMemory memory).Foreign x ↔ m.Foreign x := by
  unfold Foreign
  rw [memory_withMemory, Memory.isMapped_congr same]
  rfl

/-- A byte of a live block is on a page of the arena. -/
theorem Sound.not_foreign (s : m.Sound live) (mb : b ∈ live) {x : Nat} (h : b.Has x) :
    ¬ m.Foreign x := by
  obtain ⟨p, mp, _, low, high, _⟩ := s.books.home b mb
  obtain ⟨h1, h2⟩ := h
  exact fun foreign => foreign.2 p mp (s.base_eq mp (by omega) (by omega))

theorem owned_withMemory {memory : Memory} (same : memory.places = m.memory.places) (x : Nat) :
    (m.withMemory memory).Owned x ↔ m.Owned x := by
  unfold Owned
  rw [memory_withMemory, Memory.isMapped_congr same]
  rfl

/-! ## Mapping pages -/

theorem mapPageAt_cases {supply supply' : PageSupply} {page : Nat} {executable : Bool}
    {e : Except Fault Nat} (h : supply.mapPageAt page executable = (e, supply')) :
    supply'.next = supply.next ∧
      ((∃ fault, e = .error fault ∧ supply'.memory = supply.memory) ∨
        e = .ok page ∧ supply.memory.isMapped page = false ∧
          supply'.memory = supply.memory.map page (PageSupply.protectionFor executable) none) := by
  unfold PageSupply.mapPageAt at h
  split at h
  · cases h
    exact ⟨rfl, Or.inl ⟨_, rfl, rfl⟩⟩
  · unfold PageSupply.place at h
    split at h
    · cases h
      exact ⟨rfl, Or.inl ⟨_, rfl, rfl⟩⟩
    · rename_i unmapped
      cases h
      exact ⟨rfl, Or.inr ⟨rfl, by simpa using unmapped, rfl⟩⟩

/-- A page is mapped at a multiple of its size where nothing was mapped, and otherwise nothing
changes. -/
theorem Sound.maps_cases (s : m.Sound live) {o : Option Window} {executable : Bool}
    {e : Except Fault Nat} {source : PageSupply} (h : m.arena.Maps o executable e source) :
    source.next % pageSize = 0 ∧
      ((∃ fault, e = .error fault ∧ source.memory = m.memory) ∨
        ∃ base, e = .ok base ∧ base % pageSize = 0 ∧ base ∉ m.memory.places ∧
          source.memory = m.memory.map base (PageSupply.protectionFor executable) none) := by
  have mapped : ∃ (supply : PageSupply) (page : Nat), supply.memory = m.memory ∧ supply.next % pageSize = 0 ∧
      page % pageSize = 0 ∧ supply.mapPageAt page executable = (e, source) := by
    cases o with
    | none =>
      have := s.next
      exact ⟨{ m.arena.source with next := m.arena.source.next + pageSize },
        m.arena.source.next, rfl, by simpa using this, this, h⟩
    | some w =>
      obtain ⟨page, near, mapped⟩ := h
      have size : 0 < m.arena.pageSize := (by decide : 0 < pageSize)
      exact ⟨_, page, rfl, s.next, (freePage_eq_some size near).2.1, mapped⟩
  obtain ⟨supply, page, memory, next, aligned, mapped⟩ := mapped
  obtain ⟨next', same | ⟨rfl, free, grown⟩⟩ := mapPageAt_cases mapped
  · exact ⟨next'.symm ▸ next, Or.inl (memory ▸ same)⟩
  · refine ⟨next'.symm ▸ next, Or.inr ⟨page, rfl, aligned, ?_, memory ▸ grown⟩⟩
    intro there
    rw [memory] at free
    rw [Memory.isMapped_iff.mpr ((pageOf_self aligned).symm ▸ there)] at free
    cases free

theorem Sound.clear (s : m.Sound live) (o : Option Window) (executable : Bool) :
    m.arena.Clear o executable := by
  intro base source maps p mp
  obtain ⟨_, ⟨_, same, _⟩ | ⟨base', same, aligned, new, _⟩⟩ := s.maps_cases maps
  · cases same
  · cases same
    have there := s.held p mp
    have aligned' := s.regular.aligned _ there
    have other : p.base ≠ base := fun same => new (same ▸ there)
    show base + pageSize ≤ p.base ∨ p.base + p.size ≤ base
    rw [s.size mp]
    unfold pageSize at *
    omega

/-! ## Allocating -/

/-- A machine whose arena was grown by a fresh page, or not. -/
theorem Sound.opened (s : m.Sound live) {o : Option Window} {executable : Bool}
    (h : m.arena.Opened o executable m'.arena) (k : m'.arena.Keeps live) :
    m'.Sound live ∧ m.Extends m' := by
  obtain ⟨a₁, log⟩ := m'
  rcases h with same | ⟨base, source, maps, rfl⟩
  · exact ⟨s.of_arena same, Extends.of_arena same⟩
  · obtain ⟨next, ⟨_, same, _⟩ | ⟨base', same, aligned, new, memory⟩⟩ := s.maps_cases maps
    · cases same
    cases same
    have mem := mem_addPage { m.arena with source } base executable
    have places (x : Nat) : x ∈ source.memory.places ↔ x = base ∨ x ∈ m.memory.places :=
      memory ▸ Memory.mem_places_map
    have other (x : Nat) (h : m.memory.isMapped x = true) : pageOf x ≠ base := fun same =>
      new (same ▸ Memory.isMapped_iff.mp h)
    have mapped (x : Nat) (h : m.memory.isMapped x = true) : source.memory.isMapped x = true :=
      Memory.isMapped_iff.mpr ((places _).mpr (Or.inr (Memory.isMapped_iff.mp h)))
    have bytes (x : Nat) (h : m.memory.isMapped x = true) :
        source.memory.bytes x = m.memory.bytes x := by
      rw [memory]
      refine Memory.bytes_map ?_
      have := other x h
      by_contra inside
      exact this (pageOf_eq aligned (by omega) (by omega))
    have guards (x : Nat) (h : m.memory.isMapped x = true) :
        source.memory.protectionAt? x = m.memory.protectionAt? x := by
      rw [memory]
      exact Memory.protectionAt?_map (other x h)
    have regular : source.memory.Regular := memory ▸ s.regular.map aligned new _ _
    refine ⟨⟨k, regular, fun p mp => ?_, next⟩,
      mapped, bytes, guards, fun x h => ⟨mapped x h.1, ?_⟩, fun x h => ⟨mapped x h.1, fun p mp => ?_⟩⟩
    · rcases (mem p).mp mp with rfl | mp
      · exact (places _).mpr (Or.inl rfl)
      · exact (places _).mpr (Or.inr (s.held p mp))
    · rintro ⟨p, mp, low, covers⟩
      rcases (mem p).mp mp with rfl | mp
      · have high := (FreeList.covers_whole pageSize _).mp covers
        exact other x h.1 (pageOf_eq aligned low (by dsimp only [addPage] at low high; omega))
      · exact h.2 ⟨p, mp, low, covers⟩
    · rcases (mem p).mp mp with rfl | mp
      · exact (other x h.1).symm
      · exact h.2 p mp

/-- A block that was handed out is new, and nothing that was owned is part of it. -/
structure Hands (m : Machine) (live : Set Block) (r : BlockRequest) (b : Block) (m' : Machine) :
    Prop where
  sound : m'.Sound (insert b live)
  keeps : m.Extends m'
  new : b ∉ live
  size : b.size = r.size
  executable : b.executable = r.executable
  apart : ∀ x, m.Owned x → ¬ b.Has x

theorem Sound.taken (s : m.Sound live) {o : Option Window}
    {a' : Arena PageSupply} (t : m.arena.Taken o r b a') (same : m'.arena = a') :
    m.Hands live r b m' := by
  subst same
  obtain ⟨k', new, size, executable, a₁, opened, k₁, source, home, free⟩ :=
    s.books.taken (s.clear o r.executable) t
  have opening := @Sound.opened _ ⟨a₁, []⟩ _ s o r.executable opened k₁
  obtain ⟨s₁, e₁⟩ := opening
  have memory : m'.memory = a₁.source.memory := congrArg PageSupply.memory source
  have s' : m'.Sound (insert b live) := by
    refine ⟨k', memory ▸ s₁.regular, fun q mq => ?_, source ▸ s₁.next⟩
    obtain ⟨p, mp, _, base⟩ := home q mq
    exact memory ▸ base ▸ s₁.held p mp
  have apart (x : Nat) (h : m.Owned x) : ¬ b.Has x := fun has => (e₁.owned x h).2 (free x has)
  refine ⟨s', ⟨fun x h => memory ▸ e₁.mapped x h, fun x h => memory ▸ e₁.bytes x h,
    fun x h => memory ▸ e₁.guards x h,
    fun x h => ⟨memory ▸ e₁.mapped x h.1, ?_⟩, fun x h => ⟨memory ▸ e₁.mapped x h.1,
      fun q mq => ?_⟩⟩, new, size, executable, apart⟩
  · rintro ⟨q, mq, low, covers⟩
    obtain ⟨p, mp, number, base⟩ := home q mq
    obtain ⟨high, none⟩ := (k'.free_iff q mq _).mp covers
    rw [s'.size mq, ← s₁.size mp] at high
    rw [← base] at low high none
    exact (e₁.owned x h).2 ⟨p, mp, low, (k₁.free_iff p mp _).mpr ⟨high, fun c mc number' =>
      none c (Set.mem_insert_of_mem _ mc) (number'.trans number)⟩⟩
  · obtain ⟨p, mp, _, base⟩ := home q mq
    exact base ▸ (e₁.foreign x h).2 p mp

theorem Sound.refused (s : m.Sound live) {o : Option Window}
    {a' : Arena PageSupply} (t : m.arena.Refused o r a') (same : m'.arena = a') :
    m'.Sound live ∧ m.Extends m' ∧
      (o ≠ none → ∀ x, m'.memory.isMapped x = m.memory.isMapped x) := by
  have k' := s.books.refused (s.clear o r.executable) t
  obtain ⟨_, log⟩ := m'
  subst same
  cases t with
  | asItWas => exact ⟨s.of_arena rfl, Extends.of_arena rfl, fun _ _ => rfl⟩
  | @unmapped e source _ maps =>
    obtain ⟨next, ⟨_, _, memory⟩ | ⟨_, same, _⟩⟩ := s.maps_cases maps
    · have regular : source.memory.Regular := memory ▸ s.regular
      have held : ∀ p ∈ m.arena.pages, p.base ∈ source.memory.places := memory ▸ s.held
      have mapped : ∀ x, m.memory.isMapped x = true → source.memory.isMapped x = true :=
        fun x h => memory ▸ h
      exact ⟨⟨k', regular, held, next⟩, Extends.of_pages rfl mapped
        (fun x _ => congrArg (fun memory : Memory => memory.bytes x) memory)
        fun x _ => congrArg (fun memory : Memory => memory.protectionAt? x) memory,
        fun _ x => congrArg (fun memory : Memory => memory.isMapped x) memory⟩
    · cases same
  | kept anywhere _ maps =>
    obtain ⟨s', e⟩ := s.opened (Or.inr ⟨_, _, maps, rfl⟩) k'
    exact ⟨s', e, fun near => absurd anywhere near⟩
  | @released base source _ maps =>
    obtain ⟨next, ⟨_, same, _⟩ | ⟨base', same, aligned, new, memory⟩⟩ := s.maps_cases maps
    · cases same
    · cases same
      have places (x : Nat) : x ∈ (source.memory.unmap base).places ↔ x ∈ m.memory.places := by
        rw [Memory.mem_places_unmap, memory, Memory.mem_places_map]
        constructor
        · rintro ⟨rfl | there, other⟩
          · exact absurd rfl other
          · exact there
        · exact fun there => ⟨Or.inr there, fun same => new (same ▸ there)⟩
      have regular : (source.memory.unmap base).Regular :=
        Memory.Regular.unmap (memory ▸ s.regular.map aligned new _ _) base
      have bytes (x : Nat) (h : m.memory.isMapped x = true) :
          (source.memory.unmap base).bytes x = m.memory.bytes x := by
        show source.memory.bytes x = m.memory.bytes x
        rw [memory]
        refine Memory.bytes_map ?_
        by_contra inside
        refine new ?_
        rw [← pageOf_eq aligned (by omega : base ≤ x) (by omega)]
        exact Memory.isMapped_iff.mp h
      have mapped (x : Nat) :
          (source.memory.unmap base).isMapped x = m.memory.isMapped x := by
        rw [Bool.eq_iff_iff, Memory.isMapped_iff, Memory.isMapped_iff, places]
      have guards (x : Nat) (h : m.memory.isMapped x = true) :
          (source.memory.unmap base).protectionAt? x = m.memory.protectionAt? x := by
        have other : pageOf x ≠ base := fun same => new (same ▸ Memory.isMapped_iff.mp h)
        rw [Memory.protectionAt?_unmap other, memory, Memory.protectionAt?_map other]
      exact ⟨⟨k', regular, fun p mp => (places _).mpr (s.held p mp), next⟩,
        Extends.of_pages rfl (fun x h => (mapped x).trans h) bytes guards, fun _ => mapped⟩

theorem Sound.allocate (s : m.Sound live) {result : Except Fault Block}
    (h : (Machine.allocate r).on m = (result, m')) :
    (∃ e, result = .error e ∧ m'.Sound live ∧ m.Extends m') ∨
      ∃ b, result = .ok b ∧ m.Hands live r b m' := by
  simp only [Machine.allocate, Op.on_of] at h
  rcases tried : m.arena.allocate r with ⟨e | b, a'⟩ <;> rw [tried] at h <;> cases h
  · have refused := Arena.allocate_error tried
    exact Or.inl ⟨e, rfl, (s.refused refused rfl).1, (s.refused refused rfl).2.1⟩
  · exact Or.inr ⟨b, rfl, s.taken (Arena.allocate_ok tried) rfl⟩

theorem Sound.allocateNear (s : m.Sound live) {w : Window} {result : Except Fault Block}
    (h : (Machine.allocateNear w r).on m = (result, m')) :
    (∃ e, result = .error e ∧ m'.Sound live ∧ m.Extends m' ∧
        ∀ x, m'.memory.isMapped x = m.memory.isMapped x) ∨
      ∃ b, result = .ok b ∧ m.Hands live r b m' ∧ w.low ≤ b.base ∧ b.base + r.size ≤ w.high := by
  simp only [Machine.allocateNear, Op.on_of] at h
  have clear := s.clear (some w) r.executable
  rcases tried : m.arena.allocateNear w r with ⟨e | b, a', reports⟩ <;> rw [tried] at h <;> cases h
  · have refused := Arena.allocateNear_error s.books clear tried
    exact Or.inl ⟨e, rfl, (s.refused refused rfl).1, (s.refused refused rfl).2.1,
      (s.refused refused rfl).2.2 (by simp)⟩
  · obtain ⟨taken, inside⟩ := Arena.allocateNear_ok s.books clear tried
    exact Or.inr ⟨b, rfl, s.taken taken rfl, inside⟩

/-! ## Freeing -/

/-- A block was freed. It took its own bytes along and no others. -/
structure Freed (m : Machine) (live : Set Block) (b : Block) (m' : Machine) : Prop where
  sound : m'.Sound (live \ {b})
  bytes : m'.memory.bytes = m.memory.bytes
  owned : ∀ x, m.Owned x → ¬ b.Has x → m'.Owned x
  foreign : ∀ x, m.Foreign x → m'.Foreign x ∧
    m'.memory.protectionAt? x = m.memory.protectionAt? x

section Freeing

variable {p : ArenaPage}

/-- The page of the block stays, so nothing is unmapped. -/
theorem Sound.freed_of_giveBack (s : m.Sound live) (mb : b ∈ live) (mp : p ∈ m.arena.pages)
    (number : p.number = b.page) (k : m'.arena.Keeps (live \ {b}))
    (freed : m'.arena = m.arena.setPage (p.giveBack b)) : m.Freed live b m' := by
  have memory : m'.memory = m.memory := by
    unfold Machine.memory
    rw [freed]
    rfl
  have home (q : ArenaPage) (mq : q ∈ m'.arena.pages) :=
    home_setPage mp (by rfl) (by rfl) (freed ▸ mq : q ∈ (m.arena.setPage (p.giveBack b)).pages)
  have isFree (x : Nat) (h : m'.arena.IsFree x) : m.arena.IsFree x ∨ b.Has x := by
    obtain ⟨q, mq, low, covers⟩ := h
    rw [freed] at mq
    rcases (mem_setPage mp (by rfl) q).mp mq with rfl | ⟨mq, _⟩
    · rcases ((s.books.covers_giveBack mb mp number).2 _).mp covers with there | has
      · exact Or.inl ⟨p, mp, low, there⟩
      · have whole : p.base + (x - p.base) = x := Nat.add_sub_of_le low
        exact Or.inr (whole ▸ has)
    · exact Or.inl ⟨q, mq, low, covers⟩
  refine ⟨⟨k, memory ▸ s.regular, fun q mq => ?_, ?_⟩, memory ▸ rfl,
    fun x h out => ⟨memory ▸ h.1, fun there => (isFree x there).elim h.2 out⟩,
    fun x h => ⟨⟨memory ▸ h.1, fun q mq => ?_⟩, memory ▸ rfl⟩⟩
  · obtain ⟨q', mq', _, base⟩ := home q mq
    exact memory ▸ base ▸ s.held q' mq'
  · rw [freed]
    exact s.next
  · obtain ⟨q', mq', _, base⟩ := home q mq
    exact base ▸ h.2 q' mq'

/-- The page of the block goes, and no other block was on it. -/
theorem Sound.freed_of_unmap (s : m.Sound live) (mp : p ∈ m.arena.pages)
    (number : p.number = b.page) (last : ∀ c ∈ live \ {b}, c.page ≠ b.page)
    (k : m'.arena.Keeps (live \ {b}))
    (freed : m'.arena = { m.arena with
      pages := m.arena.pages.filter (·.number != p.number)
      source := (PageSource.unmapPage m.arena.source p.base).2 }) : m.Freed live b m' := by
  have memory : m'.memory = m.memory.unmap p.base := by
    unfold Machine.memory
    rw [freed]
    rfl
  have sub (q : ArenaPage) (mq : q ∈ m'.arena.pages) : q ∈ m.arena.pages ∧ q ≠ p := by
    rw [freed] at mq
    obtain ⟨mq, other⟩ := List.mem_filter.mp mq
    exact ⟨mq, fun same => by simp [same] at other⟩
  have mapped (x : Nat) (h : m.memory.isMapped x = true) (other : pageOf x ≠ p.base) :
      m'.memory.isMapped x = true := by
    rw [memory]
    exact Memory.isMapped_iff.mpr (Memory.mem_places_unmap.mpr ⟨Memory.isMapped_iff.mp h, other⟩)
  refine ⟨⟨k, memory ▸ s.regular.unmap _, fun q mq => ?_, ?_⟩, memory ▸ rfl,
    fun x h out => ⟨mapped x h.1 fun page => ?_, ?_⟩,
    fun x h => ⟨⟨mapped x h.1 (h.2 p mp).symm, fun q mq => h.2 q (sub q mq).1⟩, ?_⟩⟩
  · obtain ⟨mq, other⟩ := sub q mq
    rw [memory]
    refine Memory.mem_places_unmap.mpr ⟨s.held q mq, fun same => ?_⟩
    have := s.books.pagesApart q mq p mp fun number => other (s.books.same_page mq mp number)
    rw [s.size mq, s.size mp, same] at this
    unfold pageSize at this
    omega
  · rw [freed]
    exact s.next
  · obtain ⟨c, mc, page', has⟩ := s.exists_block h mp page.symm
    refine last c ⟨mc, fun same => out ?_⟩ (page'.trans number)
    exact Set.mem_singleton_iff.mp same ▸ has
  · rintro ⟨q, mq, rest⟩
    exact h.2 ⟨q, (sub q mq).1, rest⟩
  · rw [memory]
    exact Memory.protectionAt?_unmap (h.2 p mp).symm

end Freeing

/-- A block that is freed takes its own bytes along and no others. -/
theorem Sound.free (s : m.Sound live) (mb : b ∈ live) : m.Freed live b (m.free b) := by
  have k := s.books.free mb
  have arena : (m.free b).arena = (m.arena.free b).1 := rfl
  obtain ⟨p, mp, number, ⟨_, freed⟩ | ⟨last, freed⟩⟩ := s.books.free_cases mb
  · exact s.freed_of_giveBack mb mp number k (arena.trans freed)
  · exact s.freed_of_unmap mp number last k (arena.trans freed)

end Machine

end Detouring
