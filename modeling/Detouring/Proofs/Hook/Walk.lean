-- The laws of the walk that orders hooks. It gives every key once, each after those that must
-- stand earlier, and it fails exactly if the constraints run in a circle.
import Detouring.Hook.PlacementGraph
import Detouring.Proofs.Keyed
import Mathlib.Logic.Relation

namespace Detouring

namespace PlacementGraph

/-- `a` must stand earlier than `b`. -/
def Earlier (earlierThan : Nat → List Nat) (a b : Nat) : Prop := a ∈ earlierThan b

/-- Some key must stand earlier than itself. -/
def HasCircle (r : Nat → Nat → Prop) : Prop := ∃ k, Relation.TransGen r k k

theorem HasCircle.mono {r r' : Nat → Nat → Prop} (h : HasCircle r) (imp : ∀ a b, r a b → r' a b) :
    HasCircle r' := by
  obtain ⟨k, circle⟩ := h
  exact ⟨k, Relation.TransGen.mono imp k k circle⟩

/-! ## Orders that respect the constraints -/

/-- No key stands twice, and each one stands behind all that must stand earlier. -/
structure Respects (earlierThan : Nat → List Nat) (order : List Nat) : Prop where
  nodup : order.Nodup
  closed : ∀ front k rest, order = front ++ k :: rest → ∀ e ∈ earlierThan k, e ∈ front

variable {earlierThan : Nat → List Nat}

theorem respects_nil : Respects earlierThan [] := by
  refine ⟨List.nodup_nil, fun front k rest h => ?_⟩
  simp at h

theorem Respects.snoc {order : List Nat} {key : Nat} (r : Respects earlierThan order)
    (fresh : key ∉ order) (h : ∀ e ∈ earlierThan key, e ∈ order) :
    Respects earlierThan (order ++ [key]) := by
  refine ⟨List.nodup_append.mpr ⟨r.nodup, List.nodup_singleton _, ?_⟩, ?_⟩
  · intro a m b m' same
    rw [List.mem_singleton] at m'
    exact fresh (m' ▸ same ▸ m)
  · intro front k rest eq e m
    rcases List.eq_nil_or_concat rest with rfl | ⟨rest, last, rfl⟩
    · obtain ⟨rfl, same⟩ := List.append_inj' eq rfl
      cases same
      exact h e m
    · rw [List.concat_eq_append, ← List.cons_append, ← List.append_assoc] at eq
      obtain ⟨rfl, _⟩ := List.append_inj' eq rfl
      exact r.closed front k rest rfl e m

/-- What must stand earlier than a key of the order stands earlier. -/
theorem Respects.sublist {order : List Nat} (r : Respects earlierThan order) {a b : Nat}
    (h : Earlier earlierThan a b) (m : b ∈ order) : [a, b].Sublist order := by
  obtain ⟨front, rest, rfl⟩ := List.append_of_mem m
  have inFront := List.singleton_sublist.mpr (r.closed front b rest rfl a h)
  exact inFront.append (List.singleton_sublist.mpr List.mem_cons_self)

theorem Respects.mem_of_earlier {order : List Nat} (r : Respects earlierThan order) {a b : Nat}
    (h : Earlier earlierThan a b) (m : b ∈ order) : a ∈ order :=
  (r.sublist h m).subset List.mem_cons_self

/-- Positions grow along the constraints, so no key of the order is on a circle. -/
theorem Respects.idxOf_lt {order : List Nat} (r : Respects earlierThan order) {a b : Nat}
    (h : Relation.TransGen (Earlier earlierThan) a b) (m : b ∈ order) :
    order.idxOf a < order.idxOf b := by
  have one {a b : Nat} (h : Earlier earlierThan a b) (m : b ∈ order) :
      order.idxOf a < order.idxOf b := by
    obtain ⟨front, rest, rfl⟩ := List.append_of_mem m
    have inFront := r.closed front b rest rfl a h
    have notInFront : b ∉ front := fun m' =>
      (List.nodup_append.mp r.nodup).2.2 b m' b List.mem_cons_self rfl
    rw [List.idxOf_append_of_mem inFront, List.idxOf_append_of_notMem notInFront]
    have := List.idxOf_lt_length_iff.mpr inFront
    omega
  induction h with
  | single h => exact one h m
  | tail _ h ih => exact Nat.lt_trans (ih (r.mem_of_earlier h m)) (one h m)

/-! ## One visit -/

/-- What a visit that succeeds has done to the order. -/
structure Visited (earlierThan : Nat → List Nat) (free : List Nat) (wanted : List Nat)
    (order order' : List Nat) : Prop where
  kept : ∀ k ∈ order, k ∈ order'
  wanted : ∀ k ∈ wanted, k ∈ order'
  respects : Respects earlierThan order'
  added : ∀ k ∈ order', k ∈ order ∨ k ∈ free

/-- Visits of several keys, one after the other. -/
theorem visited_foldlM (free : List Nat)
    {act : List Nat → Nat → Except Nat (List Nat)} (keys : List Nat)
    (one : ∀ order key order', key ∈ keys → Respects earlierThan order →
      act order key = .ok order' → Visited earlierThan free [key] order order')
    {order order' : List Nat} (r : Respects earlierThan order)
    (h : keys.foldlM act order = .ok order') : Visited earlierThan free keys order order' := by
  induction keys generalizing order with
  | nil =>
    cases h
    exact ⟨fun _ m => m, by simp, r, fun _ m => Or.inl m⟩
  | cons key keys ih =>
    rw [List.foldlM_cons] at h
    rcases first : act order key with e | middle
    · rw [first] at h; cases h
    · rw [first] at h
      have v := one order key middle List.mem_cons_self r first
      have w := ih (fun o k o' m => one o k o' (List.mem_cons_of_mem _ m)) v.respects h
      refine ⟨fun k m => w.kept k (v.kept k m), ?_, w.respects, ?_⟩
      · intro k m
        rcases List.mem_cons.mp m with rfl | m
        · exact w.kept _ (v.wanted _ List.mem_cons_self)
        · exact w.wanted k m
      · intro k m
        rcases w.added k m with m | m
        · exact v.added k m
        · exact Or.inr m

theorem visited_visit {free : List Nat} (n : free.Nodup) {key : Nat} {order order' : List Nat}
    (r : Respects earlierThan order) (h : visit earlierThan free key order = .ok order') :
    Visited earlierThan free [key] order order' := by
  generalize size : free.length = count
  induction count generalizing free key order order' with
  | zero =>
    have none : free = [] := List.length_eq_zero_iff.mp size
    rw [visit] at h
    by_cases there : key ∈ order
    · rw [if_pos there] at h
      cases h
      exact ⟨fun _ m => m, by simpa using there, r, fun _ m => Or.inl m⟩
    · rw [if_neg there, if_neg (by simp [none])] at h
      cases h
  | succ count ih =>
    rw [visit] at h
    by_cases there : key ∈ order
    · rw [if_pos there] at h
      cases h
      exact ⟨fun _ m => m, by simpa using there, r, fun _ m => Or.inl m⟩
    · by_cases isFree : key ∈ free
      · rw [if_neg there, if_pos isFree] at h
        rcases inner : (earlierThan key).foldlM
          (fun order earlier => visit earlierThan (free.erase key) earlier order) order
            with e | middle
        · rw [inner] at h; cases h
        · rw [inner] at h
          cases h
          have left : (free.erase key).length = count := by
            rw [List.length_erase_of_mem isFree]; omega
          have v := visited_foldlM (free.erase key) (earlierThan key)
            (fun o k o' _ r' h' => ih (n.erase key) r' h' left) r inner
          have gone : key ∉ free.erase key := n.not_mem_erase
          have fresh : key ∉ middle := fun m => by
            rcases v.added key m with m | m
            · exact there m
            · exact gone m
          refine ⟨fun k m => List.mem_append_left _ (v.kept k m), by simp,
            v.respects.snoc fresh v.wanted, ?_⟩
          intro k m
          rcases List.mem_append.mp m with m | m
          · exact (v.added k m).imp_right List.mem_of_mem_erase
          · exact Or.inr (List.mem_singleton.mp m ▸ isFree)
      · rw [if_neg there, if_neg isFree] at h
        cases h

/-! ## A visit that fails -/

/-- `free` lacks only keys that lead to `key`: they are on the way to it. -/
def OnTheWay (earlierThan : Nat → List Nat) (keys free : List Nat) (key : Nat) : Prop :=
  ∀ k ∈ keys, k ∉ free → Relation.TransGen (Earlier earlierThan) key k

theorem foldlM_error {act : List Nat → Nat → Except Nat (List Nat)} {keys : List Nat}
    {order : List Nat} {e : Nat} (h : keys.foldlM act order = .error e) :
    ∃ key ∈ keys, ∃ order, act order key = .error e := by
  induction keys generalizing order with
  | nil => cases h
  | cons key keys ih =>
    rw [List.foldlM_cons] at h
    rcases first : act order key with e' | middle
    · rw [first] at h
      cases h
      exact ⟨key, List.mem_cons_self, order, first⟩
    · rw [first] at h
      obtain ⟨k, m, found⟩ := ih h
      exact ⟨k, List.mem_cons_of_mem _ m, found⟩

theorem circle_of_visit {keys : List Nat} (known : ∀ k, ∀ e ∈ earlierThan k, e ∈ keys)
    {free : List Nat} {key : Nat} (there : key ∈ keys) (way : OnTheWay earlierThan keys free key)
    {order : List Nat} {e : Nat} (h : visit earlierThan free key order = .error e) :
    HasCircle (Earlier earlierThan) := by
  generalize size : free.length = count
  induction count generalizing free key order with
  | zero =>
    have none : free = [] := List.length_eq_zero_iff.mp size
    exact ⟨key, way key there (by simp [none])⟩
  | succ count ih =>
    rw [visit] at h
    by_cases done : key ∈ order
    · rw [if_pos done] at h; cases h
    · by_cases isFree : key ∈ free
      · rw [if_neg done, if_pos isFree] at h
        rcases inner : (earlierThan key).foldlM
          (fun order earlier => visit earlierThan (free.erase key) earlier order) order
            with e' | middle
        · rw [inner] at h
          cases h
          obtain ⟨k, m, order, failed⟩ := foldlM_error inner
          have left : (free.erase key).length = count := by
            rw [List.length_erase_of_mem isFree]; omega
          refine ih (known key k m) (fun x mx notFree => ?_) failed left
          by_cases same : x = key
          · exact same ▸ Relation.TransGen.single m
          · have notFree : x ∉ free := fun mf =>
              notFree ((List.mem_erase_of_ne same).mpr mf)
            exact Relation.TransGen.head m (way x mx notFree)
        · rw [inner] at h; cases h
      · exact ⟨key, way key there isFree⟩

/-! ## The whole walk -/

/-- Every constraint is about keys of the graph, and no two hooks have one key. -/
structure Closed (g : PlacementGraph) : Prop where
  nodup : (g.hooks.map PlacedHook.key).Nodup
  known : ∀ h ∈ g.hooks, ∀ e ∈ h.earlier, e ∈ g.hooks.map PlacedHook.key

theorem mem_earlierThan {g : PlacementGraph} {a b : Nat} (h : a ∈ g.earlierThan b) :
    ∃ x ∈ g.hooks, x.key = b ∧ a ∈ x.earlier := by
  unfold earlierThan find? at h
  rcases found : g.hooks.find? (·.key == b) with _ | x
  · simp [found] at h
  · have same := List.find?_some found
    exact ⟨x, List.mem_of_find?_eq_some found, by simpa using same, by simpa [found] using h⟩

theorem earlierThan_of_mem {g : PlacementGraph} (c : (g.hooks.map PlacedHook.key).Nodup)
    {x : PlacedHook} (m : x ∈ g.hooks) : g.earlierThan x.key = x.earlier := by
  have found := (Keyed.find?_eq_some_iff c).mpr ⟨m, rfl⟩
  simp [earlierThan, find?, found]

theorem earlierThan_known {g : PlacementGraph} (c : Closed g) (k : Nat) :
    ∀ e ∈ g.earlierThan k, e ∈ g.hooks.map PlacedHook.key := by
  intro e m
  obtain ⟨x, mx, _, me⟩ := mem_earlierThan m
  exact c.known x mx e me

theorem linearize_ok {g : PlacementGraph} (c : Closed g) {order : List Nat}
    (h : g.linearize = .ok order) :
    Respects g.earlierThan order ∧ ∀ k, k ∈ order ↔ k ∈ g.hooks.map PlacedHook.key := by
  have v := visited_foldlM (g.hooks.map PlacedHook.key) _
    (fun o k o' _ r' h' => visited_visit c.nodup r' h') respects_nil h
  refine ⟨v.respects, fun k => ⟨fun m => ?_, v.wanted k⟩⟩
  exact (v.added k m).resolve_left (by simp)

theorem linearize_error {g : PlacementGraph} (c : Closed g) {e : Nat}
    (h : g.linearize = .error e) : HasCircle (Earlier g.earlierThan) := by
  obtain ⟨k, m, order, failed⟩ := foldlM_error h
  exact circle_of_visit (earlierThan_known c) m (fun x mx notFree => absurd mx notFree) failed

/-- The walk succeeds exactly if there is no circle. -/
theorem linearize_ok_iff {g : PlacementGraph} (c : Closed g) :
    (∃ order, g.linearize = .ok order) ↔ ¬ HasCircle (Earlier g.earlierThan) := by
  constructor
  · rintro ⟨order, h⟩ ⟨k, circle⟩
    obtain ⟨r, all⟩ := linearize_ok c h
    have ⟨next, first, _⟩ := Relation.TransGen.head'_iff.mp circle
    have there : k ∈ order := (all k).mpr (earlierThan_known c next k first)
    exact absurd (r.idxOf_lt circle there) (Nat.lt_irrefl _)
  · intro none
    rcases h : g.linearize with e | order
    · exact absurd (linearize_error c h) none
    · exact ⟨order, rfl⟩

end PlacementGraph

end Detouring
