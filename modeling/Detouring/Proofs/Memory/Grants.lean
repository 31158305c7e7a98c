-- What an arena has granted, after any requests, refusals and blocks that came back: each block
-- is as it was asked for, and the free bytes of a page and the blocks on it fill the page.
import Detouring.Proofs.Memory.Allocation

namespace Detouring

/-- A block with the request and the window that it was handed out for. -/
structure Grant where
  block : Block
  request : BlockRequest
  window : Option Window := none
deriving DecidableEq

/-- The block is as it was asked for. -/
structure Grant.Meets (g : Grant) : Prop where
  size : g.block.size = g.request.size
  executable : g.block.executable = g.request.executable
  aligned : g.block.base % g.request.align = 0
  inWindow : ∀ w, g.window = some w → w.low ≤ g.block.base ∧ g.block.base + g.block.size ≤ w.high

/-- What an answer adds to the grants. -/
def Grant.ofAnswer (r : BlockRequest) (w : Option Window) : Except Fault Block → List Grant
  | .ok b => [⟨b, r, w⟩]
  | .error _ => []

namespace Arena

variable {σ : Type} [PageSource σ]

/-! ## Runs -/

/-- An arena that started without pages, and what it has granted and not got back. The source
maps each page beside the pages that are held, and whatever else happens to it leaves the size of
its pages alone. -/
inductive Run : Arena σ → List Grant → Prop
  | start (source : σ) : Run { source } []
  | allocate {a : Arena σ} {live : List Grant} (run : Run a live) (r : BlockRequest)
      (clear : a.Clear none r.executable) :
      Run (a.allocate r).2 (live ++ Grant.ofAnswer r none (a.allocate r).1)
  | allocateNear {a : Arena σ} {live : List Grant} (run : Run a live) (w : Window)
      (r : BlockRequest) (clear : a.Clear (some w) r.executable) :
      Run (a.allocateNear w r).2.1 (live ++ Grant.ofAnswer r (some w) (a.allocateNear w r).1)
  | free {a : Arena σ} {live : List Grant} (run : Run a live) {g : Grant} (held : g ∈ live) :
      Run (a.free g.block).1 (live.erase g)
  | others {a : Arena σ} {live : List Grant} (run : Run a live) {source : σ}
      (same : PageSource.pageSize source = a.pageSize) : Run { a with source } live

variable {a a' : Arena σ} {live : List Grant}

/-! ## The books of the grants -/

/-- The blocks that were granted. -/
def granted (live : List Grant) : Set Block := {b | b ∈ live.map Grant.block}

/-- The grants are in the books, each as it was asked for, and no block was granted twice. -/
structure Good (a : Arena σ) (live : List Grant) : Prop where
  keeps : a.Keeps (granted live)
  meets : ∀ g ∈ live, g.Meets
  distinct : (live.map Grant.block).Nodup

theorem good_start (source : σ) : Good ({ source } : Arena σ) [] := by
  refine ⟨⟨List.nodup_nil, ?_, ?_, ?_, ?_, ?_, ?_, ?_⟩, by simp, List.nodup_nil⟩ <;>
    simp [granted]

namespace Good

variable [SteadyPages σ]

theorem take (good : Good a live) {r : BlockRequest} {o : Option Window} {b : Block}
    (clear : a.Clear o r.executable) (t : a.Taken o r b a')
    (inWindow : ∀ w, o = some w → w.low ≤ b.base ∧ b.base + r.size ≤ w.high) :
    Good a' (live ++ [⟨b, r, o⟩]) := by
  obtain ⟨k, new, size, executable, _⟩ := good.keeps.taken clear t
  have more : granted (live ++ [⟨b, r, o⟩]) = insert b (granted live) := by
    ext c
    simp only [granted, List.map_append, List.mem_append, Set.mem_ofPred_eq, Set.mem_insert_iff]
    simp [or_comm]
  refine ⟨more ▸ k, fun g m => ?_, ?_⟩
  · rcases List.mem_append.mp m with m | m
    · exact good.meets g m
    · obtain rfl := List.mem_singleton.mp m
      exact ⟨size, executable, t.aligned, size.symm ▸ inWindow⟩
  · rw [List.map_append, List.nodup_append]
    refine ⟨good.distinct, by simp, fun c mc d md same => new ?_⟩
    simp only [List.map_cons, List.map_nil, List.mem_singleton] at md
    exact md ▸ same ▸ mc

theorem refuse (good : Good a live) {r : BlockRequest} {o : Option Window}
    (clear : a.Clear o r.executable) (t : a.Refused o r a') : Good a' live :=
  ⟨good.keeps.refused clear t, good.meets, good.distinct⟩

theorem allocate (good : Good a live) (r : BlockRequest) (clear : a.Clear none r.executable) :
    Good (a.allocate r).2 (live ++ Grant.ofAnswer r none (a.allocate r).1) := by
  rcases answer : a.allocate r with ⟨e | b, a'⟩
  · simpa only [Grant.ofAnswer, List.append_nil] using good.refuse clear (allocate_error answer)
  · exact good.take clear (allocate_ok answer) fun w none => by cases none

theorem allocateNear (good : Good a live) (w : Window) (r : BlockRequest)
    (clear : a.Clear (some w) r.executable) :
    Good (a.allocateNear w r).2.1
      (live ++ Grant.ofAnswer r (some w) (a.allocateNear w r).1) := by
  rcases answer : a.allocateNear w r with ⟨e | b, a', reports⟩
  · simpa only [Grant.ofAnswer, List.append_nil] using
      good.refuse clear (allocateNear_error good.keeps clear answer)
  · obtain ⟨t, inside⟩ := allocateNear_ok good.keeps clear answer
    exact good.take clear t fun v same => by cases same; exact inside

theorem free (good : Good a live) {g : Grant} (held : g ∈ live) :
    Good (a.free g.block).1 (live.erase g) := by
  have rest : ∀ h, h ∈ live.erase g ↔ h ≠ g ∧ h ∈ live := fun h =>
    good.distinct.of_map.mem_erase_iff
  have less : granted (live.erase g) = granted live \ {g.block} := by
    ext b
    simp only [granted, Set.mem_sdiff, Set.mem_singleton_iff, Set.mem_ofPred_eq, List.mem_map, rest]
    constructor
    · rintro ⟨h, ⟨other, m⟩, rfl⟩
      exact ⟨⟨h, m, rfl⟩, fun same => other (List.inj_on_of_nodup_map good.distinct m held same)⟩
    · rintro ⟨⟨h, m, rfl⟩, other⟩
      exact ⟨h, ⟨fun same => other (same ▸ rfl), m⟩, rfl⟩
  refine ⟨less ▸ good.keeps.free (List.mem_map_of_mem held), fun h m => ?_, ?_⟩
  · exact good.meets h ((rest h).mp m).2
  · exact (List.erase_sublist.map Grant.block).nodup good.distinct

end Good

theorem Run.good [SteadyPages σ] (run : Run a live) : Good a live := by
  induction run with
  | start source => exact good_start source
  | allocate _ r clear good => exact good.allocate r clear
  | allocateNear _ w r clear good => exact good.allocateNear w r clear
  | free _ held good => exact good.free held
  | others _ same good => exact ⟨good.keeps.source same, good.meets, good.distinct⟩

/-! ## The law -/

/-- The pieces, each from its start to its stop, fill the bytes from `low` to `high`, and no two
of them share one. -/
structure Tiles (pieces : List (Nat × Nat)) (low high : Nat) : Prop where
  inside : ∀ s ∈ pieces, low ≤ s.1 ∧ s.1 < s.2 ∧ s.2 ≤ high
  apart : pieces.Pairwise fun s t => s.2 ≤ t.1 ∨ t.2 ≤ s.1
  whole : ∀ x, low ≤ x → x < high → ∃ s ∈ pieces, s.1 ≤ x ∧ x < s.2

/-- The free blocks of a page and the blocks that were granted on it. -/
def pieces (p : ArenaPage) (live : List Grant) : List (Nat × Nat) :=
  p.free.map (fun f => (p.base + f.offset, p.base + f.stop))
    ++ (live.filter (·.block.page == p.number)).map
      fun g => (g.block.base, g.block.base + g.block.size)

section Pieces

variable {p : ArenaPage} {f : FreeBlock} {g : Grant}

/-- A block on this page. -/
theorem Good.on_page (good : Good a live) (mp : p ∈ a.pages)
    (mg : g ∈ live.filter (·.block.page == p.number)) :
    g.block ∈ granted live ∧ g.block.page = p.number ∧ p.base ≤ g.block.base ∧
      g.block.base + g.block.size ≤ p.base + p.size ∧ 0 < g.block.size := by
  have k := good.keeps
  obtain ⟨m, here⟩ := List.mem_filter.mp mg
  have there : g.block ∈ granted live := List.mem_map_of_mem m
  obtain ⟨q, mq, number, low, high, _, filled⟩ := k.home _ there
  obtain rfl := k.same_page mq mp (number.trans (by simpa using here))
  exact ⟨there, number.symm, low, high, filled⟩

/-- A free byte lies on the page, and in no block. -/
theorem Good.free_byte (good : Good a live) (mp : p ∈ a.pages) (mf : f ∈ p.free) {o : Nat}
    (low : f.offset ≤ o) (high : o < f.stop) :
    o < p.size ∧ ∀ b ∈ granted live, b.page = p.number → ¬ b.Has (p.base + o) :=
  (good.keeps.free_iff p mp o).mp ⟨f, mf, low, high⟩

/-- A free piece and a block of the page do not overlap: the later of the two starts would be a byte
of both. -/
theorem Good.free_apart (good : Good a live) (mp : p ∈ a.pages) (mf : f ∈ p.free)
    (mg : g ∈ live.filter (·.block.page == p.number)) :
    p.base + f.stop ≤ g.block.base ∨ g.block.base + g.block.size ≤ p.base + f.offset := by
  obtain ⟨there, number, low, high, filled⟩ := good.on_page mp mg
  have filled' := (good.keeps.tidy p mp).filled f mf
  have free {o : Nat} := good.free_byte mp mf (o := o)
  simp only [FreeBlock.stop] at free ⊢
  by_contra overlap
  by_cases order : g.block.base ≤ p.base + f.offset
  · exact (free (Nat.le_refl f.offset) (by omega)).2 _ there number ⟨order, by omega⟩
  · exact (free (o := g.block.base - p.base) (by omega) (by omega)).2 _ there number
      ⟨by omega, by omega⟩

end Pieces

theorem Good.tiles (good : Good a live) {p : ArenaPage} (mp : p ∈ a.pages) :
    Tiles (pieces p live) p.base (p.base + p.size) := by
  have k := good.keeps
  refine ⟨fun s m => ?_, ?_, fun x low high => ?_⟩
  · rcases List.mem_append.mp m with m | m
    · obtain ⟨f, mf, rfl⟩ := List.mem_map.mp m
      have filled := (k.tidy p mp).filled f mf
      have last := (good.free_byte mp mf (o := f.offset + f.size - 1) (by omega)
        (by simp only [FreeBlock.stop]; omega)).1
      refine ⟨?_, ?_, ?_⟩ <;> simp only [FreeBlock.stop] <;> omega
    · obtain ⟨g, mg, rfl⟩ := List.mem_map.mp m
      obtain ⟨_, _, low, high, filled⟩ := good.on_page mp mg
      exact ⟨low, by omega, high⟩
  · refine List.pairwise_append.mpr ⟨?_, ?_, fun s ms t mt => ?_⟩
    · refine List.pairwise_map.mpr ((k.tidy p mp).apart.imp fun {f f'} before => Or.inl ?_)
      omega
    · have distinct := good.distinct.of_map.filter (·.block.page == p.number)
      refine List.pairwise_map.mpr (List.Pairwise.imp_of_mem (fun {g h} mg mh other => ?_) distinct)
      exact k.apart _ (good.on_page mp mg).1 _ (good.on_page mp mh).1 fun same => other
        (List.inj_on_of_nodup_map good.distinct (List.mem_filter.mp mg).1
          (List.mem_filter.mp mh).1 same)
    · obtain ⟨f, mf, rfl⟩ := List.mem_map.mp ms
      obtain ⟨g, mg, rfl⟩ := List.mem_map.mp mt
      exact good.free_apart mp mf mg
  · by_cases covered : FreeList.Covers p.free (x - p.base)
    · obtain ⟨f, mf, h1, h2⟩ := covered
      refine ⟨_, List.mem_append_left _ (List.mem_map_of_mem mf), ?_, ?_⟩
      · show p.base + f.offset ≤ x
        omega
      · show x < p.base + f.stop
        omega
    · rw [k.free_iff p mp, not_and] at covered
      have taken := covered (by omega)
      push Not at taken
      obtain ⟨b, there, number, h1, h2⟩ := taken
      obtain ⟨g, mg, rfl⟩ := List.mem_map.mp there
      refine ⟨_, List.mem_append_right _ (List.mem_map_of_mem
        (List.mem_filter.mpr ⟨mg, by simpa using number⟩)), ?_, ?_⟩
      · show g.block.base ≤ x
        omega
      · show x < g.block.base + g.block.size
        omega

instance : SteadyPages PageLedger where
  mapPage s executable := by
    simp only [PageSource.mapPage, PageSource.pageSize, PageLedger.mapPage]
    split <;> rfl
  mapPageAt s address executable := by
    simp only [PageSource.mapPageAt, PageSource.pageSize, PageLedger.mapPageAt]
    split
    · rfl
    · split <;> rfl
  unmapPage s address := by
    simp only [PageSource.unmapPage, PageSource.pageSize, PageLedger.unmapPage]
    split <;> rfl

/-- An arena over a ledger of which no page is mapped. -/
def freshArena : Arena PageLedger where
  source :=
    { pageSize := 0x1000, mapped := [], next := 0x10000, denied := [], limit := none
      keepsPages := false }

end Arena

end Detouring
