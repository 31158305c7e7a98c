-- What a refused request leaves behind. A request near an address gives the page back that it has
-- mapped in vain; a request for any place keeps it, with nothing on it.
import Detouring.Proofs.Memory.Fitting
import Detouring.Proofs.Memory.Grants

namespace Detouring

/-! ## Mapped pages -/

/-- The pages of a source that are mapped. -/
def mappedPages {σ : Type} [PageSource σ] (s : σ) : Set Nat :=
  {base | base % PageSource.pageSize s = 0 ∧ PageSource.isMapped s base = true}

namespace Arena

variable {σ : Type} [PageSource σ] {a a' : Arena σ} {live : List Grant} {r : BlockRequest}
  {o : Option Window} {w : Window}

/-- A request for a block anywhere or within a window. -/
def request (a : Arena σ) (r : BlockRequest) : Option Window → Except Fault Block × Arena σ
  | none => a.allocate r
  | some w => ((a.allocateNear w r).1, (a.allocateNear w r).2.1)

/-- The source does as it says: what it maps is a page that was not mapped, and it takes that page
back or refuses to; what it does not map, it leaves alone. -/
structure Faithful (a : Arena σ) (o : Option Window) (executable : Bool) : Prop where
  refused {e : Fault} {source : σ} (maps : a.Maps o executable (.error e) source) :
    mappedPages source = mappedPages a.source
  mapped {base : Nat} {source : σ} (maps : a.Maps o executable (.ok base) source) :
    base ∉ mappedPages a.source ∧ mappedPages source = insert base (mappedPages a.source)
  unmapped {base : Nat} {source source' : σ} (maps : a.Maps o executable (.ok base) source)
    (done : PageSource.unmapPage source base = (.ok (), source')) :
    mappedPages source' = mappedPages source \ {base}
  kept {base : Nat} {source source' : σ} {e : Fault} (maps : a.Maps o executable (.ok base) source)
    (refused : PageSource.unmapPage source base = (.error e, source')) :
    mappedPages source' = mappedPages source

/-! ## Refused requests -/

/-- The pages, their free bytes and the mapped pages are as they were, except for a page that was
mapped for the request and that the source did not take back. -/
def LeavesPages (a : Arena σ) (o : Option Window) (executable : Bool) (a' : Arena σ) : Prop :=
  a'.pages = a.pages ∧
    (mappedPages a'.source = mappedPages a.source ∨
      ∃ base source e, a.Maps o executable (.ok base) source ∧
        PageSource.unmapPage source base = (.error e, a'.source) ∧
        mappedPages a'.source = insert base (mappedPages a.source))

/-- The request has mapped a page on which no aligned block fits, and the page stays. -/
def KeepsPage (a : Arena σ) (r : BlockRequest) (a' : Arena σ) : Prop :=
  ∃ base source, PageSource.mapPage a.source r.executable = (.ok base, source) ∧
    (∀ x, x % r.align = 0 → base ≤ x → base + a.pageSize < x + r.size) ∧
    base ∉ mappedPages a.source ∧ a' = a.grown source base r.executable ∧
    mappedPages a'.source = insert base (mappedPages a.source)

theorem Refused.leavesPages (faithful : a.Faithful (some w) r.executable)
    (h : a.Refused (some w) r a') : a.LeavesPages (some w) r.executable a' := by
  cases h with
  | asItWas => exact ⟨rfl, Or.inl rfl⟩
  | unmapped _ maps => exact ⟨rfl, Or.inl (faithful.refused maps)⟩
  | kept anywhere => cases anywhere
  | @released base source _ maps =>
    refine ⟨rfl, ?_⟩
    obtain ⟨new, more⟩ := faithful.mapped maps
    rcases back : PageSource.unmapPage source base with ⟨e | _, source'⟩
    · exact Or.inr ⟨base, source, e, maps, back, (faithful.kept maps back).trans more⟩
    · left
      rw [faithful.unmapped maps back, more, Set.insert_sdiff_of_mem _ (Set.mem_singleton base),
        Set.sdiff_singleton_eq_self new]

theorem allocate_refused [SteadyPages σ] (faithful : a.Faithful none r.executable) {e : Fault}
    (h : a.allocate r = (.error e, a')) :
    a.LeavesPages none r.executable a' ∨ a.KeepsPage r a' := by
  unfold allocate at h
  split at h
  · cases h
    exact Or.inl ⟨rfl, Or.inl rfl⟩
  · rename_i valid
    obtain ⟨filled, _, fits⟩ := validate_ok valid
    split at h
    · cases h
    · split at h
      · rename_i mapped
        cases h
        exact Or.inl ⟨rfl, Or.inl (faithful.refused mapped)⟩
      · rename_i base source mapped
        dsimp only at h
        split at h
        · cases h
        · rename_i full
          cases h
          obtain ⟨new, more⟩ := faithful.mapped mapped
          have size : PageSource.pageSize source = a.pageSize := Maps.pageSize (o := none) mapped
          refine Or.inr ⟨base, source, mapped, fun x aligned low => ?_, new, rfl, more⟩
          by_contra high
          refine ArenaPage.not_fits_of_take (FreeList.tidy_whole ?_) filled full
            ((ArenaPage.fits_iff_of_isEmpty rfl filled).mpr ⟨aligned, low, ?_⟩)
          · show 0 < PageSource.pageSize source
            omega
          · show x + r.size ≤ base + PageSource.pageSize source
            omega

/-- A request that is refused leaves the pages, their free bytes and what is mapped as they were,
apart from a page that the source does not take back. Only a request for any place that gets a
page on which no aligned block fits keeps that page. -/
theorem a_refusal_keeps_no_page_but_one_without_room [SteadyPages σ] (run : Run a live)
    (clear : a.Clear o r.executable) (faithful : a.Faithful o r.executable) {e : Fault}
    (h : a.request r o = (.error e, a')) :
    a.LeavesPages o r.executable a' ∨ o = none ∧ a.KeepsPage r a' := by
  cases o with
  | none =>
    exact (allocate_refused faithful h).imp_right fun keeps => ⟨rfl, keeps⟩
  | some w =>
    rcases answer : a.allocateNear w r with ⟨result, a₁, reports⟩
    simp only [request, answer, Prod.mk.injEq] at h
    obtain ⟨rfl, rfl⟩ := h
    exact Or.inl ((allocateNear_error run.good.keeps clear answer).leavesPages faithful)

/-! ### Refusals on a ledger -/

section Ledger

variable {a : Arena PageLedger}

theorem mem_ledger_insert {x page : Nat} {pages : List Nat} :
    x ∈ PageLedger.insert page pages ↔ x = page ∨ x ∈ pages := by
  unfold PageLedger.insert
  split
  · rename_i there
    exact ⟨Or.inr, fun h => h.elim (fun same => same ▸ there) id⟩
  · conv_rhs => rw [← List.takeWhile_append_dropWhile (p := (· < page)) (l := pages)]
    simp only [List.mem_append, List.mem_cons]
    tauto

theorem mappedPages_insert {s s' : PageLedger} {page : Nat} (size : s'.pageSize = s.pageSize)
    (mapped : s'.mapped = PageLedger.insert page s.mapped) (aligned : page % s.pageSize = 0) :
    mappedPages s' = insert page (mappedPages s) := by
  ext x
  simp only [mappedPages, PageSource.pageSize, PageSource.isMapped, List.contains_iff_mem, size,
    mapped, mem_ledger_insert, Set.mem_ofPred_eq, Set.mem_insert_iff]
  constructor
  · rintro ⟨even, rfl | there⟩
    · exact Or.inl rfl
    · exact Or.inr ⟨even, there⟩
  · rintro (rfl | ⟨even, there⟩)
    · exact ⟨aligned, Or.inl rfl⟩
    · exact ⟨even, Or.inr there⟩

theorem mappedPages_unmapPage {s s' : PageLedger} {page : Nat}
    (done : PageSource.unmapPage s page = (.ok (), s')) :
    mappedPages s' = mappedPages s \ {page} := by
  simp only [PageSource.unmapPage, PageLedger.unmapPage] at done
  split at done
  · cases done
  · cases done
    ext x
    simp only [mappedPages, PageSource.pageSize, PageSource.isMapped, List.contains_iff_mem,
      List.mem_filter, bne_iff_ne, Set.mem_ofPred_eq, Set.mem_sdiff, Set.mem_singleton_iff]
    tauto

theorem mappedPages_of_kept {s s' : PageLedger} {page : Nat} {e : Fault}
    (refused : PageSource.unmapPage s page = (.error e, s')) : mappedPages s' = mappedPages s := by
  simp only [PageSource.unmapPage, PageLedger.unmapPage] at refused
  split at refused <;> cases refused
  rfl

/-- A ledger is faithful to a request for any place if its next page is not mapped yet. -/
theorem faithful_of_next (aligned : a.source.next % a.source.pageSize = 0)
    (new : a.source.next ∉ a.source.mapped) (executable : Bool) : a.Faithful none executable where
  refused {e source} maps := by
    simp only [Maps, PageSource.mapPage, PageLedger.mapPage] at maps
    split at maps <;> cases maps
    rfl
  mapped {base source} maps := by
    simp only [Maps, PageSource.mapPage, PageLedger.mapPage] at maps
    split at maps <;> cases maps
    refine ⟨fun there => new ?_, mappedPages_insert (by rfl) (by rfl) aligned⟩
    exact List.contains_iff_mem.mp there.2
  unmapped _ := mappedPages_unmapPage
  kept _ := mappedPages_of_kept

/-- A ledger is faithful to a request within a window. -/
theorem faithful_of_window (size : 0 < a.pageSize) (w : Window) (executable : Bool) :
    a.Faithful (some w) executable where
  refused {e source} maps := by
    obtain ⟨page, _, maps⟩ := maps
    simp only [PageSource.mapPageAt, PageLedger.mapPageAt] at maps
    split at maps
    · cases maps
      rfl
    · split at maps <;> cases maps
      rfl
  mapped {base source} maps := by
    obtain ⟨page, near, maps⟩ := maps
    obtain ⟨new, aligned, _⟩ := freePage_eq_some size near
    simp only [PageSource.mapPageAt, PageLedger.mapPageAt] at maps
    split at maps
    · cases maps
    · split at maps <;> cases maps
      refine ⟨fun there => ?_, mappedPages_insert (by rfl) (by rfl) aligned⟩
      cases new.symm.trans there.2
  unmapped _ := mappedPages_unmapPage
  kept _ := mappedPages_of_kept

end Ledger

/-- A window that ends with a page has no room for a block of the size of that page. -/
theorem a_page_at_the_edge_goes_back :
    ∃ a', freshArena.request ⟨0x1000, 8, true⟩ (some ⟨0x20000, 0x20000, 0x20fff⟩)
        = (.error (.allocation (.pageOutOfRange 0x20000 0x20000 0x20fff)), a') ∧
      a'.nextNumber = 1 ∧ a'.source.mapped = [] ∧
      (freshArena.LeavesPages (some ⟨0x20000, 0x20000, 0x20fff⟩) true a' ∨
        some (⟨0x20000, 0x20000, 0x20fff⟩ : Window) = none ∧
          freshArena.KeepsPage ⟨0x1000, 8, true⟩ a') := by
  have refused : freshArena.request ⟨0x1000, 8, true⟩ (some ⟨0x20000, 0x20000, 0x20fff⟩)
      = (.error (.allocation (.pageOutOfRange 0x20000 0x20000 0x20fff)), _) :=
    Prod.ext (by decide +kernel) rfl
  exact ⟨_, refused, by decide +kernel, by decide +kernel,
    a_refusal_keeps_no_page_but_one_without_room (Run.start freshArena.source)
      (fun _ _ _ p m => by cases m) (faithful_of_window (by decide) _ _) refused⟩

/-- An arena over a ledger whose next page stands at an odd multiple of the size of a page. -/
def oddArena : Arena PageLedger where
  source :=
    { pageSize := 0x1000, mapped := [], next := 0x10001000, denied := [], limit := none
      keepsPages := false }

/-- A block of eight bytes at a multiple of two pages is refused, and the page that was mapped for
it is held and stays mapped, although it has no block. -/
theorem a_page_without_room_is_kept :
    Run oddArena [] ∧ oddArena.Clear none false ∧ oddArena.Faithful none false ∧
      ∃ a', oddArena.request ⟨8, 0x2000, false⟩ none =
          (.error (.allocation (.freshPageTooSmall 8 0x2000)), a') ∧
        a'.pages = [⟨0, 0x10001000, 0x1000, false, [⟨0, 0x1000⟩]⟩] ∧
        a'.source.mapped = [0x10001000] ∧ ¬ oddArena.LeavesPages none false a' := by
  refine ⟨Run.start _, fun _ _ _ p m => (by cases m), faithful_of_next (by decide) (by decide) _,
    _, Prod.ext (by decide +kernel) rfl, by decide +kernel, by decide +kernel, fun ⟨pages, _⟩ => ?_⟩
  exact absurd pages (by decide +kernel)

end Arena

end Detouring
