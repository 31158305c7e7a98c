-- The search for a free page. It looks upward and downward by turns, each time one page further,
-- until it comes to a page that is not mapped or has left the window on both sides. So it ends
-- wherever the window lies, and what it finds is the unmapped page nearest to the target.
import Detouring.Memory.Arena
import Mathlib.Tactic.Ring

namespace Detouring

/-! ## Rounding -/

theorem roundDown_eq (n align : Nat) : roundDown n align = align * (n / align) := by
  have := Nat.div_add_mod n align
  unfold roundDown
  omega

theorem roundDown_mono {n m : Nat} (align : Nat) (h : n ≤ m) :
    roundDown n align ≤ roundDown m align := by
  rw [roundDown_eq, roundDown_eq]
  exact Nat.mul_le_mul_left align (Nat.div_le_div_right h)

theorem roundDown_of_aligned {n align : Nat} (h : n % align = 0) : roundDown n align = n := by
  unfold roundDown
  omega

theorem roundDown_aligned (n align : Nat) : roundDown n align % align = 0 := by
  rw [roundDown_eq, Nat.mul_mod_right]

theorem lt_roundDown_add (n : Nat) {align : Nat} (h : 0 < align) :
    n < roundDown n align + align := by
  have := Nat.mod_lt n h
  unfold roundDown
  omega

theorem roundDown_le_of_lt {x n align : Nat} (aligned : x % align = 0) (h : n < x + align) :
    roundDown n align ≤ x := by
  obtain ⟨c, rfl⟩ := Nat.dvd_of_mod_eq_zero aligned
  rw [← Nat.mul_add_one] at h
  rw [roundDown_eq]
  exact Nat.mul_le_mul_left _ (Nat.le_of_lt_add_one (Nat.div_lt_of_lt_mul h))

theorem le_roundDown_iff {x n align : Nat} (aligned : x % align = 0) :
    x ≤ roundDown n align ↔ x ≤ n := by
  refine ⟨fun h => h.trans (roundDown_le n align), fun h => ?_⟩
  have := roundDown_mono align h
  rwa [roundDown_of_aligned aligned] at this

namespace Arena

variable {isMapped : Nat → Bool} {pageSize target low high rounds k i : Nat} {page p q : Nat}

theorem mul_add_le_mul (h : k < i) : k * pageSize + pageSize ≤ i * pageSize :=
  Nat.succ_mul k pageSize ▸ Nat.mul_le_mul_right pageSize h

/-! ## Rounds -/

/-- The page above the target that a round looks at, as far as the window goes. -/
def above (pageSize target high k : Nat) : Option Nat :=
  if target + k * pageSize ≤ high then some (target + k * pageSize) else none

/-- The page below the target that a round looks at. -/
def below (pageSize target low k : Nat) : Option Nat :=
  if (k + 1) * pageSize ≤ target ∧ low ≤ target - (k + 1) * pageSize then
    some (target - (k + 1) * pageSize)
  else none

theorem mem_above : p ∈ above pageSize target high k ↔ p = target + k * pageSize ∧ p ≤ high := by
  unfold above
  split <;> simp <;> omega

theorem mem_below : p ∈ below pageSize target low k ↔
    p + (k * pageSize + pageSize) = target ∧ low ≤ p := by
  unfold below
  rw [Nat.succ_mul]
  split <;> simp <;> omega

/-- The unmapped page that a round comes to. -/
def roundPage? (isMapped : Nat → Bool) (pageSize target low high k : Nat) : Option Nat :=
  ((above pageSize target high k).filter (!isMapped ·)).or
    ((below pageSize target low k).filter (!isMapped ·))

theorem searchFree_succ : searchFree isMapped pageSize target low high (rounds + 1) k =
    (roundPage? isMapped pageSize target low high k).or
      (searchFree isMapped pageSize target low high rounds (k + 1)) := by
  by_cases up : target + k * pageSize ≤ high <;>
    by_cases down : (k + 1) * pageSize ≤ target ∧ low ≤ target - (k + 1) * pageSize <;>
    cases free : isMapped (target + k * pageSize) <;>
    cases free' : isMapped (target - (k + 1) * pageSize) <;>
    simp [searchFree, roundPage?, above, below, Option.filter_some, up, down, free, free']

/-- A search ends in the first round that comes to a page. -/
theorem searchFree_eq_some
    (h : searchFree isMapped pageSize target low high rounds i = some page) :
    ∃ k, roundPage? isMapped pageSize target low high k = some page ∧
      ∀ j, i ≤ j → j < k → roundPage? isMapped pageSize target low high j = none := by
  induction rounds generalizing i with
  | zero => cases h
  | succ n ih =>
    rw [searchFree_succ] at h
    rcases here : roundPage? isMapped pageSize target low high i with _ | found <;> rw [here] at h
    · obtain ⟨k, found, before⟩ := ih h
      refine ⟨k, found, fun j from_ below => ?_⟩
      rcases Nat.eq_or_lt_of_le from_ with rfl | later
      · exact here
      · exact before j later below
    · obtain rfl : found = page := Option.some.inj h
      exact ⟨i, here, fun j _ _ => by omega⟩

theorem searchFree_eq_none
    (h : searchFree isMapped pageSize target low high rounds i = none) :
    ∀ k, i ≤ k → k < i + rounds → roundPage? isMapped pageSize target low high k = none := by
  induction rounds generalizing i with
  | zero => exact fun k _ _ => by omega
  | succ n ih =>
    rw [searchFree_succ, Option.or_eq_none_iff] at h
    intro k from_ below
    rcases Nat.eq_or_lt_of_le from_ with rfl | later
    · exact h.1
    · exact ih h.2 k later (by omega)

/-- What a round comes to is its page above the target or the one below it. -/
theorem roundPage?_eq_some (h : roundPage? isMapped pageSize target low high k = some page) :
    isMapped page = false ∧
      (page ∈ above pageSize target high k ∨ page ∈ below pageSize target low k) := by
  rcases Option.or_eq_some_iff.mp h with up | ⟨_, down⟩
  · obtain ⟨here, free⟩ := Option.filter_eq_some_iff.mp up
    exact ⟨by simpa using free, Or.inl here⟩
  · obtain ⟨here, free⟩ := Option.filter_eq_some_iff.mp down
    exact ⟨by simpa using free, Or.inr here⟩

/-- A round does not pass over an unmapped page above the target, -/
theorem roundPage?_above (unmapped : isMapped p = false) (here : p ∈ above pageSize target high k) :
    roundPage? isMapped pageSize target low high k = some p := by
  rw [roundPage?, Option.mem_def.mp here]
  simp [Option.filter_some, unmapped]

/-- nor below it. -/
theorem roundPage?_below (unmapped : isMapped p = false) (here : p ∈ below pageSize target low k) :
    roundPage? isMapped pageSize target low high k ≠ none := by
  rw [roundPage?, Option.mem_def.mp here]
  simp [Option.filter_some, unmapped]

/-- Each page of a window has its round. -/
theorem exists_round (aligned : q % pageSize = 0) (aligned' : target % pageSize = 0)
    (low_ : low ≤ q) (high_ : q ≤ high) :
    ∃ k, q ∈ above pageSize target high k ∨ q ∈ below pageSize target low k := by
  simp only [mem_above, mem_below]
  obtain ⟨i, rfl⟩ := Nat.dvd_of_mod_eq_zero aligned
  obtain ⟨j, rfl⟩ := Nat.dvd_of_mod_eq_zero aligned'
  rcases Nat.lt_or_ge i j with before | behind
  · obtain ⟨d, rfl⟩ := Nat.exists_eq_add_of_lt before
    exact ⟨d, Or.inr ⟨by ring, low_⟩⟩
  · obtain ⟨d, rfl⟩ := Nat.exists_eq_add_of_le behind
    exact ⟨d, Or.inl ⟨by ring, high_⟩⟩

/-! ## The nearest page -/

/-- `p` is nearer to the target than `q`, or as near and below it. -/
def Nearer (target p q : Nat) : Prop :=
  distance p target < distance q target ∨ distance p target = distance q target ∧ p < q

/-- The page of the first round that comes to one is nearer than every other unmapped page. -/
theorem nearer_of_round (filled : 0 < pageSize) (aligned : q % pageSize = 0)
    (aligned' : target % pageSize = 0)
    (found : roundPage? isMapped pageSize target low high k = some page)
    (before : ∀ j, j < k → roundPage? isMapped pageSize target low high j = none)
    (unmapped : isMapped q = false) (low_ : low ≤ q) (high_ : q ≤ high) (other : q ≠ page) :
    Nearer target page q := by
  have place := (roundPage?_eq_some found).2
  obtain ⟨i, there⟩ := exists_round aligned aligned' low_ high_
  -- No round before the one that found the page came to `q`.
  have later : k ≤ i := by
    by_contra early
    have passed := before i (Nat.lt_of_not_le early)
    rcases there with up | down
    · cases (roundPage?_above unmapped up).symm.trans passed
    · exact roundPage?_below unmapped down passed
  simp only [mem_above, mem_below] at place there
  unfold Nearer distance
  rcases Nat.eq_or_lt_of_le later with rfl | later
  · rcases there with ⟨up, _⟩ | ⟨down, _⟩
    · have same : roundPage? isMapped pageSize target low high k = some q :=
        roundPage?_above unmapped (mem_above.mpr ⟨up, high_⟩)
      exact (other (Option.some.inj (same.symm.trans found))).elim
    · omega
  · have : k * pageSize + pageSize ≤ i * pageSize := mul_add_le_mul later
    omega

/-! ## The loop without a bound -/

/-- The pages that a search looks at next, unless it has run off the addresses on that side. -/
structure Front where
  up : Option Nat
  down : Option Nat
deriving DecidableEq

namespace Front

/-- A search looks upward from the target and downward from the page before it. -/
def start (pageSize target : Nat) : Front :=
  ⟨some target, if pageSize ≤ target then some (target - pageSize) else none⟩

/-- The pages of a front that lie in the window. -/
def inside (low high : Nat) (f : Front) : Front :=
  ⟨f.up.filter (· ≤ high), f.down.filter (low ≤ ·)⟩

/-- Each side that is still in the window goes one page further. -/
def onward (pageSize low high : Nat) (f : Front) : Front where
  up := match (f.inside low high).up with
    | some page => if page + pageSize ≤ maxWord then some (page + pageSize) else none
    | none => f.up
  down := match (f.inside low high).down with
    | some page => if pageSize ≤ page then some (page - pageSize) else none
    | none => f.down

/-- One round of a search: its answer, or the pages for the next round. -/
def round (isMapped : Nat → Bool) (pageSize low high : Nat) (f : Front) : Option Nat ⊕ Front :=
  let inside := f.inside low high
  if inside = ⟨none, none⟩ then .inl none
  else match (inside.up.filter (!isMapped ·)).or (inside.down.filter (!isMapped ·)) with
    | some page => .inl (some page)
    | none => .inr (f.onward pageSize low high)

/-- A search that goes round after round comes to an answer. -/
inductive Ends (isMapped : Nat → Bool) (pageSize low high : Nat) : Front → Option Nat → Prop
  | answer {f : Front} {answer : Option Nat}
      (last : f.round isMapped pageSize low high = .inl answer) :
      Ends isMapped pageSize low high f answer
  | onward {f f' : Front} {answer : Option Nat}
      (round : f.round isMapped pageSize low high = .inr f')
      (rest : Ends isMapped pageSize low high f' answer) : Ends isMapped pageSize low high f answer

/-- The front of a round. -/
def At (pageSize target low high : Nat) (f : Front) (k : Nat) : Prop :=
  f.inside low high = ⟨above pageSize target high k, below pageSize target low k⟩

variable {f : Front}

theorem at_start : At pageSize target low high (start pageSize target) 0 := by
  simp only [At, inside, start, above, below, mk.injEq]
  constructor
  · split <;> simp_all [Option.filter_some]
  · split <;> simp_all [Option.filter_some]

theorem At.onward (word : high ≤ maxWord) (h : f.At pageSize target low high k) :
    (f.onward pageSize low high).At pageSize target low high (k + 1) := by
  have up := congrArg Front.up h
  have down := congrArg Front.down h
  simp only [At, inside, Front.onward, mk.injEq] at up down ⊢
  constructor
  · rw [up]
    simp only [above, Nat.add_one_mul] at up ⊢
    split at up <;> rename_i reach
    · rw [if_pos reach]
      dsimp only
      split
      · simp [Option.filter_some, Nat.add_assoc]
      · rw [if_neg (by omega)]
        rfl
    · rw [if_neg reach, if_neg (by omega)]
      exact up
  · rw [down]
    simp only [below, Nat.add_one_mul] at down ⊢
    split at down <;> rename_i reach
    · rw [if_pos reach]
      dsimp only
      split
      · rw [Option.filter_some, ← Nat.sub_sub]
        split <;> simp_all <;> omega
      · rw [if_neg (by omega)]
        rfl
    · rw [if_neg reach, if_neg (by omega)]
      exact down

theorem onward_of_outside (h : f.inside low high = ⟨none, none⟩) :
    f.onward pageSize low high = f := by
  simp only [onward, h]

theorem round_of_at (h : f.At pageSize target low high k)
    (somewhere : f.inside low high ≠ ⟨none, none⟩) :
    f.round isMapped pageSize low high =
      match roundPage? isMapped pageSize target low high k with
      | some page => .inl (some page)
      | none => .inr (f.onward pageSize low high) := by
  rw [round, if_neg somewhere, h]
  rfl

/-- The rounds of a bounded search are those of the loop, if there is no page left to look at
behind the last of them. -/
theorem ends (word : high ≤ maxWord) (h : f.At pageSize target low high k)
    (last : ∀ j, k + rounds ≤ j →
      above pageSize target high j = none ∧ below pageSize target low j = none) :
    Ends isMapped pageSize low high f
      (searchFree isMapped pageSize target low high rounds k) := by
  induction rounds generalizing f k with
  | zero =>
    refine .answer ?_
    rw [round, if_pos (by rw [h, (last k (Nat.le_refl k)).1, (last k (Nat.le_refl k)).2])]
    rfl
  | succ n ih =>
    have rest := ih (h.onward word) fun j from_ => last j (by omega)
    rw [searchFree_succ]
    by_cases outside : f.inside low high = ⟨none, none⟩
    · -- The loop ends here, and the bounded search goes on without coming to a page.
      rw [onward_of_outside outside] at rest
      have := h.symm.trans outside
      simp only [mk.injEq] at this
      simpa [roundPage?, this] using rest
    · have round : f.round isMapped pageSize low high = _ := round_of_at h outside
      rcases found : roundPage? isMapped pageSize target low high k with _ | page <;>
        rw [found] at round
      · exact .onward round rest
      · exact .answer round

end Front

/-! ## Free pages of an arena -/

variable {σ : Type} [PageSource σ] {a : Arena σ} {w : Window}

theorem lowPage_le (filled : 0 < a.pageSize) {x : Nat} (aligned : x % a.pageSize = 0)
    (low : w.low ≤ x) : a.lowPage w ≤ x := by
  refine roundDown_le_of_lt aligned ?_
  unfold clampedAdd
  omega

theorem le_highPage_iff {x : Nat} (aligned : x % a.pageSize = 0) :
    x ≤ a.highPage w ↔ x ≤ w.high := le_roundDown_iff aligned

/-- How many rounds it takes at most until a search has left the window on both sides. -/
theorem outside_of_rounds (filled : 0 < pageSize)
    (h : (high - target) / pageSize + (target - low) / pageSize + 1 ≤ k) :
    above pageSize target high k = none ∧ below pageSize target low k = none := by
  have up : high - target < k * pageSize := (Nat.div_lt_iff_lt_mul filled).mp
    (Nat.lt_of_lt_of_le (Nat.lt_add_one_of_le (Nat.le_add_right _ _)) h)
  have down : target - low < k * pageSize := (Nat.div_lt_iff_lt_mul filled).mp
    (Nat.lt_of_lt_of_le (Nat.lt_add_one_of_le (Nat.le_add_left _ _)) h)
  simp only [Option.eq_none_iff_forall_not_mem, mem_above, mem_below]
  constructor <;> intro p place <;> omega

theorem freePage_ends (filled : 0 < a.pageSize) (word : w.high ≤ maxWord) :
    Front.Ends (PageSource.isMapped a.source) a.pageSize (a.lowPage w) (a.highPage w)
      (Front.start a.pageSize (a.roundToPage w.target)) (a.freePage w) :=
  Front.ends ((roundDown_le _ _).trans word) Front.at_start fun j from_ =>
    outside_of_rounds filled (by simpa using from_)

theorem freePage_eq_some (filled : 0 < a.pageSize) (h : a.freePage w = some page) :
    PageSource.isMapped a.source page = false ∧ page % a.pageSize = 0 ∧
      ∀ q, PageSource.isMapped a.source q = false → q % a.pageSize = 0 → w.low ≤ q →
        q ≤ w.high → q ≠ page → Nearer (a.roundToPage w.target) page q := by
  have aligned' : a.roundToPage w.target % a.pageSize = 0 := roundDown_aligned _ _
  obtain ⟨k, found, before⟩ := searchFree_eq_some h
  obtain ⟨unmapped, place⟩ := roundPage?_eq_some found
  refine ⟨unmapped, ?_, fun q free aligned low_ high_ other => ?_⟩
  · simp only [mem_above, mem_below] at place
    rcases place with ⟨up, _⟩ | ⟨down, _⟩
    · rw [up, Nat.add_mul_mod_self_right]
      exact aligned'
    · rw [← down, ← Nat.add_one_mul, Nat.add_mul_mod_self_right] at aligned'
      exact aligned'
  · exact nearer_of_round filled aligned aligned' found (fun j => before j (Nat.zero_le j)) free
      (lowPage_le filled aligned low_) ((le_highPage_iff aligned).mpr high_) other

/-- A page that is found stands in the window, unless it is the page of the target. -/
theorem freePage_place (filled : 0 < a.pageSize) (inside : w.low ≤ w.target ∧ w.target ≤ w.high)
    (word : w.high ≤ maxWord) (h : a.freePage w = some page) :
    page ≤ a.highPage w ∧ (w.low ≤ page ∨ page = a.roundToPage w.target) := by
  have target : a.roundToPage w.target ≤ w.target := roundDown_le _ _
  have high : a.roundToPage w.target ≤ a.highPage w := roundDown_mono _ inside.2
  obtain ⟨k, found, _⟩ := searchFree_eq_some h
  have place := (roundPage?_eq_some found).2
  simp only [mem_above, mem_below] at place
  rcases place with ⟨up, reach⟩ | ⟨down, reach⟩
  · refine ⟨reach, ?_⟩
    cases k with
    | zero => exact Or.inr (by omega)
    | succ k =>
      have behind : w.target < a.roundToPage w.target + a.pageSize := lt_roundDown_add _ filled
      rw [Nat.succ_mul] at up
      exact Or.inl (by omega)
  · refine ⟨by omega, Or.inl ?_⟩
    have last : clampedAdd w.low (a.pageSize - 1) < a.lowPage w + a.pageSize :=
      lt_roundDown_add _ filled
    unfold clampedAdd at last
    omega

theorem freePage_eq_none (filled : 0 < a.pageSize) (h : a.freePage w = none)
    (aligned : q % a.pageSize = 0) (low_ : w.low ≤ q) (high_ : q ≤ w.high) :
    PageSource.isMapped a.source q = true := by
  by_contra unmapped
  rw [Bool.not_eq_true] at unmapped
  obtain ⟨k, there⟩ := exists_round aligned (roundDown_aligned w.target a.pageSize)
    (lowPage_le filled aligned low_) ((le_highPage_iff aligned).mpr high_)
  -- A round behind the last one has no page.
  have early : k < (a.highPage w - a.roundToPage w.target) / a.pageSize +
      (a.roundToPage w.target - a.lowPage w) / a.pageSize + 1 := by
    by_contra late
    obtain ⟨up, down⟩ := outside_of_rounds filled (Nat.le_of_not_lt late)
    rcases there with there | there
    · cases up.symm.trans there
    · cases down.symm.trans there
  have passed := searchFree_eq_none h k (Nat.zero_le k) (by rwa [Nat.zero_add])
  rcases there with up | down
  · cases (roundPage?_above unmapped up).symm.trans passed
  · exact roundPage?_below unmapped down passed

end Arena
end Detouring
