-- Requests near an address. A page that is held answers if it has room. Otherwise the nearest free
-- page is mapped, and no other one is tried, so a request can be refused although a page would do.
import Detouring.Proofs.Memory.Fitting
import Detouring.Proofs.Memory.Grants

namespace Detouring

namespace Arena

variable {σ : Type} [PageSource σ] {a a' : Arena σ} {live : List Grant} {r : BlockRequest}
  {w : Window} {b : Block} {p : ArenaPage} {q x : Nat}

/-! ## Fresh pages -/

/-- A page at `q` has room for the request in the window. -/
structure Suits (w : Window) (r : BlockRequest) (q : Nat) : Prop where
  low : w.low ≤ q
  aligned : q % r.align = 0
  high : q + r.size ≤ w.high

theorem dvd_of_powers {m n : Nat} (hm : m.isPowerOfTwo) (hn : n.isPowerOfTwo) (h : m ≤ n) :
    m ∣ n := by
  obtain ⟨i, rfl⟩ := hm
  obtain ⟨j, rfl⟩ := hn
  exact Nat.pow_dvd_pow 2 ((Nat.pow_le_pow_iff_right (by decide : 1 < 2)).mp h)

/-- A page on which an aligned place lies starts at an aligned place. -/
theorem start_aligned {pageSize align : Nat} (page : pageSize.isPowerOfTwo)
    (power : align.isPowerOfTwo) (even : q % pageSize = 0) (aligned : x % align = 0) (low : q ≤ x)
    (high : x < q + pageSize) : q % align = 0 := by
  have start := Nat.dvd_of_mod_eq_zero even
  have place := Nat.dvd_of_mod_eq_zero aligned
  rcases Nat.le_total align pageSize with small | large
  · exact Nat.mod_eq_zero_of_dvd ((dvd_of_powers power page small).trans start)
  · -- The start of the page is the only multiple on it.
    have apart := Nat.dvd_sub ((dvd_of_powers page power large).trans place) start
    have := Nat.eq_zero_of_dvd_of_lt apart (by omega)
    rwa [show q = x by omega]

/-- A page without blocks has room if a block can lie at its start. -/
theorem offers_iff_suits (valid : a.validate r = .ok ()) (page : a.pageSize.isPowerOfTwo)
    (whole : p.free = [⟨0, p.size⟩]) (size : p.size = a.pageSize)
    (even : p.base % a.pageSize = 0) (kind : p.executable = r.executable) :
    p.Offers w r ↔ Suits w r p.base := by
  obtain ⟨filled, power, fits⟩ := validate_ok valid
  have room {x : Nat} := p.fits_iff_of_isEmpty (x := x) whole filled
  constructor
  · rintro ⟨_, low, x, there, high⟩
    obtain ⟨aligned, above, stop⟩ := room.mp there
    exact ⟨low, start_aligned page power even aligned above (by omega), by omega⟩
  · rintro ⟨low, aligned, high⟩
    exact ⟨kind, low, p.base, room.mpr ⟨aligned, Nat.le_refl _, by omega⟩, high⟩

/-! ## Held pages first -/

/-- The page by which an arena has grown. -/
def fresh (a : Arena σ) (source : σ) (base : Nat) (executable : Bool) : ArenaPage :=
  ({ a with source }.addPage base executable).1

/-- What a request near an address does if no page that is held has room. -/
def mapNear (a : Arena σ) (w : Window) (r : BlockRequest) :
    Except Fault Block × Arena σ × List Report :=
  match a.freePage w with
  | none => (.error (.allocation (.noFreePage w.low w.high)), a, [])
  | some page =>
    match PageSource.mapPageAt a.source page r.executable with
    | (.error e, source) => (.error e, { a with source }, [])
    | (.ok base, source) =>
      let p := a.fresh source base r.executable
      match (a.grown source base r.executable).takeWithin p w r with
      | (some b, a) => (.ok b, a, [])
      | (none, a) =>
        (.error (.allocation (.pageOutOfRange base w.low w.high)), (a.releasePage p).1,
          (a.releasePage p).2)

/-- A page that is held answers if one has room, and else a page is mapped. -/
theorem allocateNear_cases (k : Keeps a (granted live)) (valid : a.validate r = .ok ())
    (inside : w.low ≤ w.target ∧ w.target ≤ w.high)
    (even : ∀ p ∈ a.pages, p.base % a.pageSize = 0) :
    (∃ p ∈ a.pages, p.Offers w r) ∧
        (∃ p ∈ a.pages, ∃ b, b.page = p.number ∧ (a.allocateNear w r).1 = .ok b) ∨
      (∀ p ∈ a.pages, ¬ p.Offers w r) ∧ a.allocateNear w r = a.mapNear w r := by
  obtain ⟨filled, ⟨i, power⟩, fits⟩ := validate_ok valid
  have none_iff := nearest_none_iff (w := w) k (power ▸ Nat.two_pow_pos i) filled (by omega) even
  unfold allocateNear
  rw [if_neg (by omega), valid]
  dsimp only
  rcases tried : a.takeFirstWithin w r (a.nearestPages w) with ⟨_ | b, a₁⟩ <;>
    rw [tried] at none_iff
  · obtain rfl := takeFirstWithin_none k filled (fun p => mem_of_mem_nearest) tried
    exact Or.inr ⟨none_iff.mp rfl, rfl⟩
  · left
    constructor
    · by_contra nowhere
      push Not at nowhere
      cases none_iff.mpr nowhere
    · obtain ⟨p, mp, taken⟩ := takeFirstWithin_some k filled (fun p => mem_of_mem_nearest) tried
      obtain ⟨p', _, block, _⟩ := takeWithin_some taken
      obtain ⟨_, _, _, rfl, _⟩ := Keeps.take_spec block
      exact ⟨p, mp, _, rfl, rfl⟩

/-! ## The nearest page is the only one that is tried -/

/-- The source maps every page that is asked for and is not mapped. -/
def Accepts (a : Arena σ) (executable : Bool) : Prop :=
  ∀ q, PageSource.isMapped a.source q = false → q % a.pageSize = 0 →
    ∃ source, PageSource.mapPageAt a.source q executable = (.ok q, source)

/-- A ledger without limits maps every page that is not mapped. -/
theorem accepts_of_unlimited {a : Arena PageLedger} (limit : a.source.limit = none)
    (denied : a.source.denied = []) (executable : Bool) : a.Accepts executable := by
  intro q unmapped _
  have new : q ∉ a.source.mapped := fun there =>
    absurd (List.contains_iff_mem.mpr there) (Bool.not_eq_true _ ▸ unmapped)
  simp [PageSource.mapPageAt, PageLedger.mapPageAt, PageLedger.spend, limit, denied, new]

theorem mapNear_refuses_iff [SteadyPages σ] (page : a.pageSize.isPowerOfTwo)
    (valid : a.validate r = .ok ()) (accepts : a.Accepts r.executable) :
    (∃ e, (a.mapNear w r).1 = .error e) ↔ ∀ q, a.freePage w = some q → ¬ Suits w r q := by
  obtain ⟨filled, ⟨i, power⟩, fits⟩ := validate_ok valid
  unfold mapNear
  rcases near : a.freePage w with _ | q
  · simp
  · obtain ⟨unmapped, even, _⟩ := freePage_eq_some (by omega) near
    obtain ⟨source, mapped⟩ := accepts q unmapped even
    have size : PageSource.pageSize source = a.pageSize :=
      Maps.pageSize (o := some w) ⟨q, near, mapped⟩
    have offers : (a.fresh source q r.executable).Offers w r ↔ Suits w r q :=
      offers_iff_suits valid page rfl size even rfl
    have answers := takeWithin_isSome (a := a.grown source q r.executable) (w := w)
      (p := a.fresh source q r.executable)
      (FreeList.tidy_whole (by show 0 < PageSource.pageSize source; omega))
      (power ▸ Nat.two_pow_pos i) filled
    simp only [mapped, Option.some.injEq, forall_eq', ← offers, ← answers]
    rcases (a.grown source q r.executable).takeWithin (a.fresh source q r.executable) w r with
      ⟨_ | b, a₁⟩ <;> simp

theorem allocateNear_refuses_iff [SteadyPages σ] (k : Keeps a (granted live))
    (page : a.pageSize.isPowerOfTwo) (even : ∀ p ∈ a.pages, p.base % a.pageSize = 0)
    (accepts : a.Accepts r.executable) (valid : a.validate r = .ok ())
    (inside : w.low ≤ w.target ∧ w.target ≤ w.high) :
    (∃ e, (a.allocateNear w r).1 = .error e) ↔
      (∀ p ∈ a.pages, ¬ p.Offers w r) ∧ ∀ q, a.freePage w = some q → ¬ Suits w r q := by
  rcases allocateNear_cases k valid inside even with
    ⟨⟨p, mp, offers⟩, _, _, b, _, answer⟩ | ⟨nowhere, same⟩
  · rw [answer]
    exact ⟨fun ⟨_, refused⟩ => (by cases refused), fun ⟨nowhere, _⟩ => (nowhere p mp offers).elim⟩
  · rw [same, mapNear_refuses_iff page valid accepts]
    exact (and_iff_right nowhere).symm

/-- The page that was tried does not suit, because it lies at an edge of the window: it is the page
of the target and begins below the window, or it is the last page, and the block would end behind
the window. Otherwise the alignment is wider than a page, and the page starts between two multiples. -/
inductive Unsuited (a : Arena σ) (w : Window) (r : BlockRequest) (q : Nat) : Prop
  | low (start : q = a.roundToPage w.target) (below : q < w.low)
  | high (last : q = a.highPage w) (behind : w.high < q + r.size)
  | aligned (wide : a.pageSize < r.align) (odd : q % r.align ≠ 0)

theorem unsuited (page : a.pageSize.isPowerOfTwo) (valid : a.validate r = .ok ())
    (inside : w.low ≤ w.target ∧ w.target ≤ w.high) (word : w.high ≤ maxWord)
    (near : a.freePage w = some q) (suits : ¬ Suits w r q) : a.Unsuited w r q := by
  obtain ⟨filled, power, fits⟩ := validate_ok valid
  obtain ⟨_, even, _⟩ := freePage_eq_some (by omega) near
  obtain ⟨reach, place⟩ := freePage_place (by omega) inside word near
  by_cases below : q < w.low
  · exact .low (place.resolve_left (Nat.not_le_of_lt below)) below
  · by_cases behind : w.high < q + r.size
    · exact .high (Nat.le_antisymm reach (roundDown_le_of_lt even (by omega))) behind
    · have odd : q % r.align ≠ 0 := fun aligned => suits ⟨by omega, aligned, by omega⟩
      refine .aligned (Nat.lt_of_not_le fun narrow => odd ?_) odd
      exact Nat.mod_eq_zero_of_dvd
        ((dvd_of_powers power page narrow).trans (Nat.dvd_of_mod_eq_zero even))

/-- A request that is refused passes over a free page only if a block on it would end with the
window, or if a nearer page was tried instead. -/
theorem passed_over (page : a.pageSize.isPowerOfTwo) (valid : a.validate r = .ok ())
    (inside : w.low ≤ w.target ∧ w.target ≤ w.high) (word : w.high ≤ maxWord)
    (tried : ∀ q, a.freePage w = some q → ¬ Suits w r q)
    (unmapped : PageSource.isMapped a.source x = false) (even : x % a.pageSize = 0)
    (low : w.low ≤ x) (high : x + r.size - 1 ≤ w.high) (aligned : x % r.align = 0) :
    x + r.size - 1 = w.high ∨ ∃ q, a.freePage w = some q ∧ q ≠ x ∧
      Nearer (a.roundToPage w.target) q x ∧ a.Unsuited w r q := by
  obtain ⟨size, _, fits⟩ := validate_ok valid
  rcases near : a.freePage w with _ | q
  · cases unmapped.symm.trans (freePage_eq_none (by omega) near even low (by omega))
  · by_cases same : q = x
    · subst same
      left
      by_contra inner
      exact tried q near ⟨low, aligned, by omega⟩
    · refine Or.inr ⟨q, rfl, same, ?_, unsuited page valid inside word near (tried q near)⟩
      exact (freePage_eq_some (by omega) near).2.2 x unmapped even low (by omega) (Ne.symm same)

/-- No page is tried but the nearest one. So a request within a window is refused if and only if no
page that is held has room and the nearest free page does not suit. It passes over a free page with
room only if a block there would end with the window, or if the nearest page lies at an edge of the
window or at an odd place for the alignment. In a window that begins no later than the page of the
target and has room for the block on its last page, no free page is passed over, unless the alignment
is wider than a page. -/
theorem a_refused_window_is_full_or_its_nearest_page_does_not_suit [SteadyPages σ]
    (run : Run a live) (page : a.pageSize.isPowerOfTwo)
    (even : ∀ p ∈ a.pages, p.base % a.pageSize = 0)
    (accepts : a.Accepts r.executable) (valid : a.validate r = .ok ())
    (inside : w.low ≤ w.target ∧ w.target ≤ w.high) (word : w.high ≤ maxWord) :
    ((∃ e, (a.allocateNear w r).1 = .error e) ↔
      (∀ p ∈ a.pages, ¬ p.Offers w r) ∧ ∀ q, a.freePage w = some q → ¬ Suits w r q) ∧
    ∀ e, (a.allocateNear w r).1 = .error e → ∀ x, PageSource.isMapped a.source x = false →
      x % a.pageSize = 0 → w.low ≤ x → x + r.size - 1 ≤ w.high → x % r.align = 0 →
      (x + r.size - 1 = w.high ∨ ∃ q, a.freePage w = some q ∧ q ≠ x ∧
        Nearer (a.roundToPage w.target) q x ∧ a.Unsuited w r q) ∧
      ¬ (w.low ≤ a.roundToPage w.target ∧ a.highPage w + r.size ≤ w.high ∧
        r.align ≤ a.pageSize) := by
  have refuses := allocateNear_refuses_iff run.good.keeps page even accepts valid inside
  refine ⟨refuses, fun e refused x unmapped even' low high aligned => ?_⟩
  obtain ⟨_, tried⟩ := refuses.mp ⟨e, refused⟩
  have passed := passed_over page valid inside word tried unmapped even' low high aligned
  refine ⟨passed, fun ⟨start, last, narrow⟩ => ?_⟩
  obtain ⟨size, _⟩ := validate_ok valid
  have := (le_highPage_iff even').mpr (show x ≤ w.high by omega)
  rcases passed with edge | ⟨q, _, _, _, unsuited⟩
  · omega
  · cases unsuited <;> omega

/-- The nearest page stands at an odd multiple of the size of a page, and no other one is tried. -/
theorem a_window_with_an_odd_page_is_refused :
    (freshArena.allocateNear ⟨0x10001000, 0x10000000, 0x1000ffff⟩ ⟨8, 0x2000, false⟩).1
        = .error (.allocation (.pageOutOfRange 0x10001000 0x10000000 0x1000ffff)) ∧
      PageSource.isMapped freshArena.source 0x10002000 = false ∧
      (0x10002000 + 8 - 1 = 0x1000ffff ∨ ∃ q,
        freshArena.freePage ⟨0x10001000, 0x10000000, 0x1000ffff⟩ = some q ∧ q ≠ 0x10002000 ∧
          Nearer (freshArena.roundToPage 0x10001000) q 0x10002000 ∧
          freshArena.Unsuited ⟨0x10001000, 0x10000000, 0x1000ffff⟩ ⟨8, 0x2000, false⟩ q) := by
  have refused : (freshArena.allocateNear ⟨0x10001000, 0x10000000, 0x1000ffff⟩ ⟨8, 0x2000, false⟩).1
      = .error (.allocation (.pageOutOfRange 0x10001000 0x10000000 0x1000ffff)) := by
    decide +kernel
  refine ⟨refused, by decide +kernel, ?_⟩
  exact ((a_refused_window_is_full_or_its_nearest_page_does_not_suit
    (w := ⟨0x10001000, 0x10000000, 0x1000ffff⟩) (r := ⟨8, 0x2000, false⟩)
    (Run.start freshArena.source) ⟨12, by decide⟩ (fun _ m => by cases m)
    (accepts_of_unlimited rfl rfl false) (by decide +kernel) (by decide) (by decide)).2 _ refused
    0x10002000 (by decide +kernel) (by decide) (by decide) (by decide) (by decide)).1

/-- A block that fills the last page of a window is refused: nothing is held, the page is not mapped
and the source would map it, and the block on it would end with the window. -/
theorem the_last_byte_of_a_window_is_not_reached :
    Run freshArena [] ∧ freshArena.Accepts false ∧
      freshArena.validate ⟨0x1000, 8, false⟩ = .ok () ∧
      PageSource.isMapped freshArena.source 0x10000000 = false ∧
      0x10000000 % freshArena.pageSize = 0 ∧ 0x10000000 + 0x1000 - 1 ≤ 0x10000fff ∧
      (freshArena.allocateNear ⟨0x10000000, 0x10000000, 0x10000fff⟩ ⟨0x1000, 8, false⟩).1
        = .error (.allocation (.pageOutOfRange 0x10000000 0x10000000 0x10000fff)) :=
  ⟨Run.start _, accepts_of_unlimited rfl rfl false, by decide +kernel, by decide +kernel,
    by decide +kernel, by decide, by decide +kernel⟩

/-! ## The page that is mapped is the nearest -/

theorem allocateNear_valid (h : (a.allocateNear w r).1 = .ok b) :
    (w.low ≤ w.target ∧ w.target ≤ w.high) ∧ a.validate r = .ok () := by
  unfold allocateNear at h
  split at h
  · cases h
  · split at h
    · cases h
    · rename_i inside _ valid
      exact ⟨by omega, valid⟩

/-- A block that does not come from a page that is held comes from the nearest free page. -/
theorem mapNear_ok {reports : List Report} (h : a.mapNear w r = (.ok b, a', reports)) :
    ∃ q base source, a.freePage w = some q ∧
      PageSource.mapPageAt a.source q r.executable = (.ok base, source) ∧
      ∃ p ∈ a'.pages, p.number = b.page ∧ p.base = base := by
  unfold mapNear at h
  split at h
  · cases h
  · rename_i q near
    split at h
    · cases h
    · rename_i base source mapped
      dsimp only at h
      split at h
      · rename_i taken
        cases h
        obtain ⟨p', _, block, rfl, _⟩ := takeWithin_some taken
        obtain ⟨_, _, _, rfl, rfl⟩ := Keeps.take_spec block
        have held : a.fresh source base r.executable ∈ (a.grown source base r.executable).pages :=
          (mem_addPage _ _ _ _).mpr (Or.inl rfl)
        exact ⟨q, base, source, near, mapped, _,
          (mem_setPage held (by rfl) _).mpr (Or.inl rfl), rfl, rfl⟩
      · cases h

/-- The search for a free page ends, wherever the window lies among the addresses. A request that is
met by a page that was not held before finds no room in the window on the pages that are held, and
the page that it gets is nearer to the page of the target than every other free page of the window,
or as near and below it. -/
theorem a_page_is_mapped_only_if_none_has_room_and_is_the_nearest [SteadyPages σ] (run : Run a live)
    (size : 0 < a.pageSize) (even : ∀ p ∈ a.pages, p.base % a.pageSize = 0)
    (exact : ∀ q base source, PageSource.mapPageAt a.source q r.executable = (.ok base, source) →
      base = q) :
    (∀ w : Window, w.high ≤ maxWord →
      Front.Ends (PageSource.isMapped a.source) a.pageSize (a.lowPage w) (a.highPage w)
        (Front.start a.pageSize (a.roundToPage w.target)) (a.freePage w)) ∧
    ∀ w b a' reports, a.allocateNear w r = (.ok b, a', reports) →
      (∀ p ∈ a.pages, p.number ≠ b.page) →
      (∀ p ∈ a.pages, ¬ p.Offers w r) ∧
      ∃ p ∈ a'.pages, p.number = b.page ∧ p.base % a.pageSize = 0 ∧
        PageSource.isMapped a.source p.base = false ∧
        ∀ q, PageSource.isMapped a.source q = false → q % a.pageSize = 0 → w.low ≤ q →
          q ≤ w.high → q ≠ p.base → Nearer (a.roundToPage w.target) p.base q := by
  refine ⟨fun w word => freePage_ends size word, fun w b a' reports met fresh => ?_⟩
  obtain ⟨inside, valid⟩ := allocateNear_valid (congrArg Prod.fst met)
  rcases allocateNear_cases run.good.keeps valid inside even with
    ⟨_, p, mp, c, home, answer⟩ | ⟨nowhere, same⟩
  · rw [met] at answer
    cases answer
    exact (fresh p mp home.symm).elim
  · obtain ⟨q, base, source, near, mapped, p, mp, home, rfl⟩ := mapNear_ok (same ▸ met)
    obtain rfl := exact _ _ _ mapped
    obtain ⟨unmapped, aligned, nearest⟩ := freePage_eq_some size near
    exact ⟨nowhere, p, mp, home, aligned, unmapped, nearest⟩

/-- An arena over a ledger of which somebody else has mapped a page. -/
def besideArena : Arena PageLedger where
  source :=
    { pageSize := 0x1000, mapped := [0x10000000], next := 0x20000000, denied := [], limit := none
      keepsPages := false }

/-- A window around the page that is mapped. -/
def around : Window := ⟨0x10000010, 0xff00000, 0x10100000⟩

/-- The first request takes the page below the one that is mapped, as the nearest, and fills it. So
the second one takes the page above. -/
theorem the_pages_on_both_sides_are_taken :
    ∃ (a a' : Arena PageLedger) (live : List Grant) (b : Block),
      Run a live ∧ a.pages.map ArenaPage.base = [0xffff000] ∧
      a.allocateNear around ⟨8, 8, false⟩ = (.ok b, a', []) ∧ b.base = 0x10001000 ∧
      (∀ p ∈ a.pages, ¬ p.Offers around ⟨8, 8, false⟩) ∧
      ∃ p ∈ a'.pages, p.number = b.page ∧ p.base % a.pageSize = 0 ∧
        PageSource.isMapped a.source p.base = false ∧
        ∀ q, PageSource.isMapped a.source q = false → q % a.pageSize = 0 → around.low ≤ q →
          q ≤ around.high → q ≠ p.base → Nearer (a.roundToPage around.target) p.base q := by
  have untouched : besideArena.Clear (some around) false := fun _ _ _ p m => by cases m
  have run := (Run.start besideArena.source).allocateNear around ⟨0x1000, 8, false⟩ untouched
  have pages : (besideArena.allocateNear around ⟨0x1000, 8, false⟩).2.1.pages
      = [⟨0, 0xffff000, 0x1000, false, []⟩] := by decide +kernel
  have met : (besideArena.allocateNear around ⟨0x1000, 8, false⟩).2.1.allocateNear around
      ⟨8, 8, false⟩ = (.ok ⟨0x10001000, 8, false, 1⟩, _, []) :=
    Prod.ext (by decide +kernel) (Prod.ext rfl (by decide +kernel))
  have law := a_page_is_mapped_only_if_none_has_room_and_is_the_nearest (r := ⟨8, 8, false⟩) run
    (by decide +kernel)
    (fun p mp => by
      rw [show p = _ from List.mem_singleton.mp (pages ▸ mp)]
      decide +kernel)
    (fun q base source mapped => by
      simp only [PageSource.mapPageAt, PageLedger.mapPageAt] at mapped
      split at mapped
      · cases mapped
      · split at mapped <;> cases mapped
        rfl)
  refine ⟨_, _, _, _, run, by decide +kernel, met, rfl, law.2 around _ _ _ met fun p mp => ?_⟩
  rw [show p = _ from List.mem_singleton.mp (pages ▸ mp)]
  decide

end Arena

end Detouring
