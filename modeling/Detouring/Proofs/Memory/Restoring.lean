-- What a patch does to the protections of pages: in the end each page is as protected as it was. The
-- regions of the map tell how each page is protected, so where every part of a range gets the
-- protection back that its region had, every page does. With the bytes this is all that a patch does,
-- and it does it all or not at all.
import Detouring.Proofs.Memory.Patching

namespace Detouring.Memory

open Region

variable {m m' : Memory} {x : Nat}

/-! ## Protections of pages -/

theorem isSome_protectionAt? (m : Memory) (x : Nat) :
    (m.protectionAt? x).isSome = m.isMapped x := by
  unfold protectionAt? isMapped
  exact Option.isSome_map

theorem protectionAt?_setProtection (m : Memory) (base : Nat) (protection : Protection) (x : Nat) :
    (m.setProtection base protection).protectionAt? x =
      if pageOf x = base then (m.protectionAt? x).map fun _ => protection
      else m.protectionAt? x := by
  have there : ∀ p, m.pageAt? x = some p → p.base = pageOf x := fun p found => by
    simpa using List.find?_some found
  have page : (m.setProtection base protection).pageAt? x =
      (m.pageAt? x).map fun p => if p.base = base then { p with protection } else p := by
    unfold pageAt? setProtection
    rw [List.find?_map]
    congr 2
    funext p
    by_cases it : p.base = base <;> simp [it]
  unfold protectionAt?
  rw [page]
  rcases found : m.pageAt? x with _ | p
  · split <;> rfl
  · simp only [Option.map_some, there p found]
    split <;> rfl

/-- A page that was mapped keeps its protection when another is mapped. -/
theorem protectionAt?_map {base : Nat} {protection : Protection} {file : Option String}
    (other : pageOf x ≠ base) :
    (m.map base protection file).protectionAt? x = m.protectionAt? x := by
  have out : (base == pageOf x) = false := by simpa using Ne.symm other
  unfold protectionAt? pageAt? Memory.map insertPage
  dsimp only
  rw [List.find?_append, List.find?_cons, out, ← List.find?_append,
    List.takeWhile_append_dropWhile]

/-- A page keeps its protection when another is unmapped. -/
theorem protectionAt?_unmap {base : Nat} (other : pageOf x ≠ base) :
    (m.unmap base).protectionAt? x = m.protectionAt? x := by
  unfold protectionAt? pageAt? unmap
  dsimp only
  rw [List.find?_filter]
  congr 2
  funext p
  by_cases it : p.base = pageOf x
  · simp [it, other]
  · simp [it]

/-! ## Regions -/

/-- Each page lies in a region, and the regions tell how their pages are protected. -/
structure Describes (regions : List Region) (pages : List MappedPage) : Prop where
  cover : ∀ p ∈ pages, ∃ r ∈ regions, r.start ≤ p.base ∧ p.base + pageSize ≤ r.stop
  tell : ∀ r ∈ regions, ∀ p ∈ pages, r.start ≤ p.base → p.base < r.stop →
    r.protection = p.protection

section Joining

variable {p : MappedPage} {rest : List MappedPage} {next : Region} {later regions : List Region}

/-- Behind a page comes nothing that tells of it. -/
theorem Describes.tell_cons (t : Describes regions rest)
    (behind : ∀ r ∈ regions, p.base + pageSize ≤ r.start) {r : Region} (mr : r ∈ regions)
    {q : MappedPage} (mq : q ∈ p :: rest) (low : r.start ≤ q.base) (high : q.base < r.stop) :
    r.protection = q.protection := by
  have size : 0 < pageSize := by decide
  rcases List.mem_cons.mp mq with rfl | mq
  · have := behind r mr
    omega
  · exact t.tell r mr q mq low high

/-- No other page starts before the end of the first one. -/
theorem eq_of_lt_stop (first : ∀ q ∈ rest, p.base + pageSize ≤ q.base) {q : MappedPage}
    (mq : q ∈ p :: rest) (high : q.base < p.base + pageSize) : q = p := by
  rcases List.mem_cons.mp mq with rfl | mq
  · rfl
  · have := first q mq
    omega

/-- A page starts a region of its own. -/
theorem Describes.cons (t : Describes regions rest) (first : ∀ q ∈ rest, p.base + pageSize ≤ q.base)
    (behind : ∀ r ∈ regions, p.base + pageSize ≤ r.start) :
    Describes (ofPage p :: regions) (p :: rest) := by
  have stop : (ofPage p).stop = p.base + pageSize := rfl
  refine ⟨fun q mq => ?_, fun r mr q mq low high => ?_⟩
  · rcases List.mem_cons.mp mq with rfl | mq
    · exact ⟨ofPage q, List.mem_cons_self, Nat.le_refl _, Nat.le_refl _⟩
    · obtain ⟨r, mr, there⟩ := t.cover q mq
      exact ⟨r, List.mem_cons_of_mem _ mr, there⟩
  · rcases List.mem_cons.mp mr with rfl | mr
    · obtain rfl := eq_of_lt_stop first mq (stop ▸ high)
      rfl
    · exact t.tell_cons behind mr mq low high

/-- A page is joined to a region that is protected as it is. -/
theorem Describes.extend (t : Describes (next :: later) rest)
    (first : ∀ q ∈ rest, p.base + pageSize ≤ q.base)
    (behind : ∀ r ∈ next :: later, p.base + pageSize ≤ r.start) (order : next.start ≤ next.stop)
    (touch : (ofPage p).stop = next.start) (alike : (ofPage p).protection = next.protection) :
    Describes ({ ofPage p with stop := next.stop } :: later) (p :: rest) := by
  have start : (ofPage p).start = p.base := rfl
  have stop : (ofPage p).stop = p.base + pageSize := rfl
  refine ⟨fun q mq => ?_, fun r mr q mq low high => ?_⟩
  · rcases List.mem_cons.mp mq with rfl | mq
    · exact ⟨_, List.mem_cons_self, Nat.le_refl _, by dsimp only; omega⟩
    · obtain ⟨r, mr, low, high⟩ := t.cover q mq
      rcases List.mem_cons.mp mr with rfl | mr
      · exact ⟨_, List.mem_cons_self, by dsimp only; omega, high⟩
      · exact ⟨r, List.mem_cons_of_mem _ mr, low, high⟩
  · rcases List.mem_cons.mp mr with rfl | mr
    · by_cases near : q.base < p.base + pageSize
      · obtain rfl := eq_of_lt_stop first mq near
        rfl
      · exact alike.trans (t.tell_cons behind List.mem_cons_self mq (by omega) high)
    · exact t.tell_cons behind (List.mem_cons_of_mem next mr) mq low high

end Joining

theorem describes_regions {pages : List MappedPage}
    (sorted : pages.Pairwise fun p q => p.base + pageSize ≤ q.base) :
    Describes ((pages.map ofPage).foldr join []) pages := by
  induction pages with
  | nil => exact ⟨fun p mp => (by cases mp), fun r mr => (by cases mr)⟩
  | cons p rest ih =>
    obtain ⟨first, sorted⟩ := List.pairwise_cons.mp sorted
    have t := ih sorted
    have ordered := (sum_regions rest 0 0).2
    have behind {r : Region} (mr : r ∈ (rest.map ofPage).foldr join []) :
        p.base + pageSize ≤ r.start := by
      obtain ⟨q, mq, same⟩ := List.mem_map.mp (start_regions rest mr)
      exact same ▸ first q mq
    rw [List.map_cons, List.foldr_cons]
    generalize (rest.map ofPage).foldr join [] = regions at *
    cases regions with
    | nil => exact t.cons first fun _ mr => behind mr
    | cons next later =>
      simp only [join]
      split <;> rename_i alike
      · obtain ⟨touch, protection, _⟩ := alike
        exact t.extend first (fun _ mr => behind mr) (ordered next List.mem_cons_self) touch
          protection
      · exact t.cons first fun _ mr => behind mr

/-- The pages of a regular memory come one behind the other. -/
theorem Regular.behind (g : m.Regular) :
    m.pages.Pairwise fun p q => p.base + pageSize ≤ q.base := by
  have sorted : m.pages.Pairwise fun p q => p.base < q.base := List.pairwise_map.mp g.sorted
  refine sorted.imp_of_mem fun {p q} mp mq lower => ?_
  have := g.aligned _ (List.mem_map_of_mem mp)
  have := g.aligned _ (List.mem_map_of_mem mq)
  unfold pageSize at *
  omega

/-- The page of an address lies in a range of whole pages. -/
def Touches (start length x : Nat) : Prop := ∃ i < length / pageSize, pageOf x = start + i * pageSize

/-- The parts of a range tell how its pages are protected, and leave none of them out. -/
theorem parts_tell (g : m.Regular) {start : Nat} (aligned : start % pageSize = 0) (count x : Nat) :
    (∀ part ∈ protectionsOf m.mapRegions start (count * pageSize), Touches part.1 part.2.1 x →
      m.isMapped x = true → m.protectionAt? x = some part.2.2) ∧
    (Touches start (count * pageSize) x → m.isMapped x = true →
      ∃ part ∈ protectionsOf m.mapRegions start (count * pageSize), Touches part.1 part.2.1 x) := by
  obtain ⟨cover, tell⟩ := describes_regions g.behind
  have page (mapped : m.isMapped x = true) : ∃ p ∈ m.pages, p.base = pageOf x ∧
      m.protectionAt? x = some p.protection := by
    obtain ⟨p, found⟩ := Option.isSome_iff_exists.mp mapped
    refine ⟨p, List.mem_of_find?_eq_some found, by simpa using List.find?_some found, ?_⟩
    unfold protectionAt?
    rw [found]
    rfl
  have lined {r : Region} (mr : r ∈ m.regions) : r.start % pageSize = 0 :=
    g.aligned _ (start_regions m.pages mr)
  rw [mapRegions_eq]
  refine ⟨fun part there touches mapped => ?_, fun touches mapped => ?_⟩
  · obtain ⟨_, line, kept⟩ := List.mem_filterMap.mp there
    obtain ⟨r, mr, rfl⟩ := List.mem_map.mp line
    obtain ⟨p, mp, base, guard⟩ := page mapped
    obtain ⟨i, hi, here⟩ := touches
    have first := lined mr
    split at kept
    · cases kept
    · cases kept
      refine guard.trans (congrArg some (tell r mr p mp ?_ ?_).symm) <;>
        simp only [listed] at hi here <;> unfold pageSize at * <;> omega
  · obtain ⟨p, mp, base, _⟩ := page mapped
    obtain ⟨r, mr, low, high⟩ := cover p mp
    obtain ⟨i, hi, here⟩ := touches
    have first := lined mr
    refine ⟨_, List.mem_filterMap.mpr ⟨r.listed, List.mem_map_of_mem mr, if_neg ?_⟩,
      (pageOf x - max r.start start) / pageSize, ?_, ?_⟩ <;>
      simp only [listed] <;> unfold pageSize at * <;> omega

/-- The parts of a range add up to its length only if all of its pages are mapped. -/
theorem mapped_of_sum (g : m.Regular) {start : Nat} (aligned : start % pageSize = 0) (count : Nat) :
    sumOf (fun p => overlap start (start + count * pageSize) (ofPage p)) m.pages ≤
        count * pageSize ∧
      (sumOf (fun p => overlap start (start + count * pageSize) (ofPage p)) m.pages =
        count * pageSize → ∀ i < count, start + i * pageSize ∈ m.places) := by
  induction count with
  | zero =>
    refine ⟨Nat.le_of_eq ((sumOf_eq_zero _ fun p _ => ?_).trans (Nat.zero_mul _).symm),
      fun _ i hi => absurd hi (Nat.not_lt_zero i)⟩
    simp only [overlap]
    omega
  | succ n ih =>
    obtain ⟨most, all⟩ := ih
    have lined : ∀ p ∈ m.pages, p.base % pageSize = 0 := fun p mp =>
      g.aligned _ (List.mem_map_of_mem mp)
    simp only [overlap_succ]
    rw [sumOf_add]
    have size : 0 < pageSize := by decide
    by_cases mapped : start + n * pageSize ∈ m.places
    · rw [sum_page g.nodup lined mapped]
      refine ⟨by rw [Nat.succ_mul]; omega, fun sum i hi => ?_⟩
      rw [Nat.succ_mul] at sum
      rcases Nat.lt_succ_iff_lt_or_eq.mp hi with hi | rfl
      · exact all (by omega) i hi
      · exact mapped
    · have none : sumOf (fun p => overlap (start + n * pageSize) (start + n * pageSize + pageSize)
          (ofPage p)) m.pages = 0 := by
        refine sumOf_eq_zero _ fun p mp => overlap_other ?_ (lined p mp) fun same => mapped ?_
        · unfold pageSize at *
          omega
        · exact same ▸ List.mem_map_of_mem mp
      rw [none, Nat.succ_mul]
      exact ⟨by omega, fun sum => by omega⟩

/-! ## Protecting and restoring -/

theorem protectPages_protects (protection : Protection) (base count : Nat) (m : Memory)
    (done : (m.protectPages protection base count).1 = true) (x : Nat) :
    (m.protectPages protection base count).2.protectionAt? x =
      if ∃ i < count, pageOf x = base + i * pageSize then some protection
      else m.protectionAt? x := by
  induction count generalizing base m with
  | zero => simp [protectPages]
  | succ n ih =>
    simp only [protectPages] at done ⊢
    split at done
    · rename_i mapped
      rw [if_pos mapped, ih _ _ done, protectionAt?_setProtection]
      by_cases first : pageOf x = base
      · have there : (m.protectionAt? x).isSome := by
          rw [isSome_protectionAt?, isMapped_iff, first]
          have aligned := (pageOf_spec x).1
          rw [isMapped_iff, pageOf_self (first ▸ aligned)] at mapped
          exact mapped
        obtain ⟨old, there⟩ := Option.isSome_iff_exists.mp there
        have here : ∃ i < n + 1, pageOf x = base + i * pageSize :=
          ⟨0, Nat.succ_pos n, by omega⟩
        rw [if_pos here, if_pos first, there]
        split <;> rfl
      · rw [if_neg first]
        refine if_congr ⟨?_, ?_⟩ rfl rfl
        · rintro ⟨i, hi, here⟩
          exact ⟨i + 1, by omega, by rw [Nat.succ_mul]; omega⟩
        · rintro ⟨i, hi, here⟩
          obtain _ | i := i
          · exact (first (by omega)).elim
          · exact ⟨i, by omega, by rw [Nat.succ_mul] at here; omega⟩
    · cases done

theorem protect_protects {start length : Nat} {protection : Protection}
    (done : m.protect start length protection = (.ok (), m')) (x : Nat) :
    (Touches start length x → m'.protectionAt? x = some protection) ∧
      (¬ Touches start length x → m'.protectionAt? x = m.protectionAt? x) := by
  unfold protect at done
  rcases run : m.protectPages protection start (length / pageSize) with ⟨_ | _, m₁⟩ <;>
    rw [run] at done <;> cases done
  have spec := protectPages_protects protection start (length / pageSize) m (by rw [run]) x
  rw [run] at spec
  exact ⟨fun touches => spec.trans (if_pos touches), fun out => spec.trans (if_neg out)⟩

/-- A page that has its protection, or whose part gives it back, has it in the end. -/
theorem restore_protects {changed : Protection} {parts : List (Nat × Nat × Protection)}
    {guard : Option Protection}
    (told : ∀ part ∈ parts, Touches part.1 part.2.1 x → guard = some part.2.2)
    (done : m.restore changed parts = (.ok (), m'))
    (here : m.protectionAt? x = guard ∨
      ∃ part ∈ parts, part.2.2 ≠ changed ∧ Touches part.1 part.2.1 x) :
    m'.protectionAt? x = guard := by
  induction parts generalizing m with
  | nil =>
    cases done
    exact here.resolve_right fun ⟨part, mp, _⟩ => by cases mp
  | cons part rest ih =>
    obtain ⟨start, length, protection⟩ := part
    have later := fun part mp => told part (List.mem_cons_of_mem _ mp)
    simp only [restore] at done
    split at done <;> rename_i same
    · refine ih later done (here.imp_right ?_)
      rintro ⟨part, mp, changes, touches⟩
      rcases List.mem_cons.mp mp with rfl | mp
      · exact (changes same).elim
      · exact ⟨part, mp, changes, touches⟩
    · rcases run : m.protect start length protection with ⟨_ | _, m₁⟩ <;> rw [run] at done
      · cases done
      obtain ⟨inside, outside⟩ := protect_protects run x
      refine ih later done ?_
      by_cases touches : Touches start length x
      · refine Or.inl ((inside touches).trans ?_)
        exact (told _ List.mem_cons_self touches).symm
      · refine here.imp (fun here => (outside touches).trans here) ?_
        rintro ⟨part, mp, changes, there⟩
        rcases List.mem_cons.mp mp with rfl | mp
        · exact (touches there).elim
        · exact ⟨part, mp, changes, there⟩

/-! ## Patches -/

/-- Whatever comes of a patch, each page is as protected as it was. -/
theorem patch_protects (g : m.Regular) {kind : PatchKind} {target : Nat} {data : List UInt8}
    {backup : Nat} {result : Except Fault (List UInt8)}
    (h : m.patch kind target data backup = (result, m')) (x : Nat) :
    m'.protectionAt? x = m.protectionAt? x := by
  obtain ⟨count, range, _⟩ := pageRange_spec target data.length
  have aligned := (pageOf_spec target).1
  have stays := (patch_cases g h).1
  simp only [patch, range, sum_parts] at h
  split at h <;> rename_i sum
  · cases h
    rfl
  · have pages := (mapped_of_sum g aligned count).2 (of_not_not sum)
    have mapped : ∀ i < count, m.isMapped (pageOf target + i * pageSize) = true := fun i hi =>
      g.isMapped_of_mem (pages i hi) (Nat.le_refl _) (Nat.lt_add_of_pos_right (by decide))
    obtain ⟨places, _, done⟩ := protect_spec m (pageOf target) (count * pageSize) kind.writable
    rw [Nat.mul_div_cancel _ (by decide : 0 < pageSize)] at done
    have ok := done.mpr mapped
    rcases changing : m.protect (pageOf target) (count * pageSize) kind.writable with ⟨_ | _, m₁⟩
    · simp [changing] at ok
    simp only [changing] at h places
    obtain ⟨m₂, restored, _⟩ := restore_spec kind.writable _ (m₁.write target data)
      (parts_mapped g aligned mapped ((places_write target data).trans places))
    simp only [restored] at h
    cases h
    obtain ⟨told, cover⟩ := parts_tell g aligned count x
    obtain ⟨inside, outside⟩ := protect_protects changing x
    by_cases there : m.isMapped x = true
    · refine restore_protects (fun part mp touches => told part mp touches there) restored ?_
      by_cases touches : Touches (pageOf target) (count * pageSize) x
      · obtain ⟨part, mp, here⟩ := cover touches there
        by_cases same : part.2.2 = kind.writable
        · exact Or.inl ((inside touches).trans (same ▸ (told part mp here there).symm))
        · exact Or.inr ⟨part, mp, same, here⟩
      · exact Or.inl (outside touches)
    · have gone (m : Memory) (out : ¬ m.isMapped x = true) : m.protectionAt? x = none := by
        rwa [← isSome_protectionAt?, Option.not_isSome_iff_eq_none] at out
      exact (gone _ (isMapped_congr stays x ▸ there)).trans (gone m there).symm

/-- A range with a page that is not mapped is not patched at all. -/
theorem patch_unmapped (g : m.Regular) (kind : PatchKind) {target : Nat} {data : List UInt8}
    (backup : Nat) {j : Nat} (within : j < max data.length 1)
    (unmapped : m.isMapped (target + j) = false) :
    m.patch kind target data backup =
      (.error (.protection (pageRange target data.length).1 (pageRange target data.length).2
        .notFullyMapped), m) := by
  obtain ⟨count, range, _⟩ := pageRange_spec target data.length
  have short : sumOf (·.2.1) (protectionsOf m.mapRegions (pageOf target) (count * pageSize)) ≠
      count * pageSize := by
    intro sum
    rw [sum_parts] at sum
    obtain ⟨i, hi, page⟩ := mem_pageRange range within
    have there := (mapped_of_sum g (pageOf_spec target).1 count).2 sum i hi
    rw [← page, ← isMapped_iff, unmapped] at there
    cases there
  simp only [patch, range]
  rw [if_pos short]

/-- A patch whose pages are all mapped, however they are protected, puts its bytes in place of
those that it gives back and leaves all other bytes and every protection as they were. If one of
its pages is not mapped, it reports so and leaves everything as it was. -/
theorem a_patch_changes_its_bytes_or_nothing (g : m.Regular) (kind : PatchKind) (target : Nat)
    (data : List UInt8) (some : data ≠ []) (backup : Nat) :
    ((∀ j < data.length, m.isMapped (target + j) = true) →
      ∃ m', m.patch kind target data backup =
          (.ok (m.peek target (min backup data.length)), m') ∧
        m'.peek target data.length = data ∧
        (∀ x, x < target ∨ target + data.length ≤ x → m'.bytes x = m.bytes x) ∧
        ∀ x, m'.protectionAt? x = m.protectionAt? x) ∧
    ((∃ j < data.length, m.isMapped (target + j) = false) →
      m.patch kind target data backup =
        (.error (.protection (pageRange target data.length).1 (pageRange target data.length).2
          .notFullyMapped), m)) := by
  have length := List.length_pos_of_ne_nil some
  constructor
  · intro mapped
    obtain ⟨m', patched, _, bytes⟩ := patch_ok g kind target data backup fun j hj =>
      mapped j (by omega)
    have peek : m'.peek target = (m.write target data).peek target := by
      funext n
      simp only [Memory.peek, bytes]
    refine ⟨m', patched, ?_, fun x out => ?_, patch_protects g patched⟩
    · rw [peek, peek_write]
    · rw [bytes, bytes_write_outside m target x data out]
  · rintro ⟨j, hj, unmapped⟩
    exact patch_unmapped g kind backup (by omega) unmapped

/-- Two pages that are protected differently, and none behind them. -/
def twoPages : Memory where
  pages := [⟨0x10000, .readOnly, none⟩, ⟨0x11000, .readExecute, none⟩]
  bytes := fun _ => 0x90

/-- A patch across the border of the two pages, and one across the end of the second. -/
theorem a_patch_across_two_protections :
    (∃ m', twoPages.patch .executable 0x10fff [1, 2, 3] 2 = (.ok [0x90, 0x90], m') ∧
      m'.peek 0x10fff 3 = [1, 2, 3] ∧
      m'.protectionAt? 0x10fff = some .readOnly ∧ m'.protectionAt? 0x11000 = some .readExecute) ∧
    twoPages.patch .readOnly 0x11fff [1, 2] 2 =
      (.error (.protection 0x11000 0x2000 .notFullyMapped), twoPages) := by
  have g : twoPages.Regular := ⟨by decide, by decide⟩
  constructor
  · obtain ⟨m', patched, written, _, protections⟩ :=
      (a_patch_changes_its_bytes_or_nothing g .executable 0x10fff [1, 2, 3]
        (List.cons_ne_nil _ _) 2).1 (by decide)
    exact ⟨m', patched, written, protections _, protections _⟩
  · exact (a_patch_changes_its_bytes_or_nothing g .readOnly 0x11fff [1, 2]
      (List.cons_ne_nil _ _) 2).2 ⟨1, by decide, by decide⟩

end Detouring.Memory
