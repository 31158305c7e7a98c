-- The order of placed hooks as a walk over hooks in order of rank. Where the walk comes to a hook
-- it takes those first that must stand earlier. These are ranked too, but hooks that were there
-- before the one that names them are linked to it one after the other, each in front of its equals:
-- among equals the oldest of them comes first.
import Detouring.Proofs.Hook.Arrivals
import Detouring.Proofs.Hook.Ranking
import Mathlib.Data.List.Sort

namespace Detouring

/-! ## Who stands ahead -/

namespace Placement

variable {p q r : Placement} {sooner later sooner' later' sooner'' later'' : Prop}

theorem Ahead.total (s : sooner ∨ sooner') (l : later ∨ later') :
    p.Ahead q sooner later ∨ q.Ahead p sooner' later' := by
  unfold Ahead
  rcases p.priority with _ | x <;> rcases q.priority with _ | y
  · exact s
  · exact Or.inr trivial
  · exact Or.inl trivial
  · rcases Int.lt_trichotomy x y with below | rfl | above
    · exact Or.inr (Or.inl below)
    · rcases Int.lt_trichotomy p.subPriority q.subPriority with below | same | above
      · exact Or.inr (Or.inr ⟨rfl, Or.inl below⟩)
      · exact l.imp (fun l => Or.inr ⟨rfl, Or.inr ⟨same, l⟩⟩)
          fun l => Or.inr ⟨rfl, Or.inr ⟨same.symm, l⟩⟩
      · exact Or.inl (Or.inr ⟨rfl, Or.inl above⟩)
    · exact Or.inl (Or.inl above)

theorem Ahead.trans (h : p.Ahead q sooner later) (h' : q.Ahead r sooner' later')
    (s : sooner → sooner' → sooner'') (l : later → later' → later'') :
    p.Ahead r sooner'' later'' := by
  unfold Ahead at *
  generalize p.priority = x, q.priority = y, r.priority = z at *
  rcases x with _ | x <;> rcases y with _ | y <;> rcases z with _ | z <;> try trivial
  · exact s h h'
  · rcases h with above | ⟨rfl, above | ⟨same, l₁⟩⟩ <;>
      rcases h' with above' | ⟨rfl, above' | ⟨same', l₂⟩⟩
    all_goals first
      | exact Or.inl (by omega)
      | exact Or.inr ⟨rfl, Or.inl (by omega)⟩
      | exact Or.inr ⟨rfl, Or.inr ⟨by omega, l l₁ l₂⟩⟩

theorem Ahead.refl (s : sooner) (l : later) : p.Ahead p sooner later := by
  unfold Ahead
  rcases p.priority with _ | x
  · exact s
  · exact Or.inr ⟨rfl, Or.inr ⟨rfl, l⟩⟩

/-- Two hooks of one rank stand as they came, one way or the other. -/
theorem Ahead.antisymm (h : p.Ahead q sooner later) (h' : q.Ahead p sooner' later') :
    sooner ∧ sooner' ∨ later ∧ later' := by
  unfold Ahead at *
  generalize p.priority = x, q.priority = y at *
  rcases x with _ | x <;> rcases y with _ | y
  · exact Or.inl ⟨h, h'⟩
  · exact h.elim
  · exact h'.elim
  · rcases h with above | ⟨rfl, above | ⟨same, l₁⟩⟩ <;>
      rcases h' with above' | ⟨same', above' | ⟨_, l₂⟩⟩
    all_goals first
      | omega
      | exact Or.inr ⟨l₁, l₂⟩

/-- The hook that outranks another stands ahead of it, however equals stand. -/
theorem Ahead.of_outranks (h : p.outranks q = true) (s : p.Ahead q sooner later) :
    p.Ahead q sooner later' := by
  unfold Ahead outranks at *
  generalize p.priority = x, q.priority = y at *
  rcases x with _ | x <;> rcases y with _ | y
  · exact s
  · exact s
  · trivial
  · exact (of_decide_eq_true h).imp_right fun same => ⟨same.1, Or.inl same.2⟩

/-- A hook that stands ahead of another and does not outrank it is its equal. -/
theorem Ahead.flip (h : p.outranks q = false) (s : p.Ahead q sooner later) :
    q.Ahead p sooner' later := by
  unfold Ahead outranks at *
  generalize p.priority = x, q.priority = y at *
  rcases x with _ | x <;> rcases y with _ | y
  · cases h
  · exact s.elim
  · cases h
  · have below := of_decide_eq_false h
    rcases s with above | ⟨rfl, above | ⟨same, l⟩⟩
    · exact absurd (Or.inl above) below
    · exact absurd (Or.inr ⟨rfl, above⟩) below
    · exact Or.inr ⟨rfl, Or.inr ⟨same.symm, l⟩⟩

/-- Two hooks that neither priority nor sub-priority tells apart. -/
def Ties (p q : Placement) : Prop :=
  p.priority ≠ none ∧ p.priority = q.priority ∧ p.subPriority = q.subPriority

/-- Where two hooks do not tie it does not matter which of them came later. -/
theorem Ahead.of_not_ties (h : ¬ p.Ties q) (s : p.Ahead q sooner later) :
    p.Ahead q sooner later' := by
  unfold Ahead Ties at *
  generalize p.priority = x, q.priority = y at *
  rcases x with _ | x <;> rcases y with _ | y
  · exact s
  · exact s
  · trivial
  · rcases s with above | ⟨rfl, above | ⟨same, _⟩⟩
    · exact Or.inl above
    · exact Or.inr ⟨rfl, Or.inl above⟩
    · exact absurd ⟨nofun, rfl, same⟩ h

instance [Decidable sooner] [Decidable later] : Decidable (p.Ahead q sooner later) := by
  unfold Ahead
  split <;> infer_instance

end Placement

namespace PlacementGraph

variable {hooks : Inserted} {g : PlacementGraph}

/-! ## The order of the walk -/

/-- How many hooks came before a key. -/
def arrival (hooks : Inserted) (key : Nat) : Nat := (hooks.map Prod.fst).idxOf key

def placementIn (hooks : Inserted) (key : Nat) : Placement :=
  ((hooks.find? (·.1 == key)).map Prod.snd).getD { id := "?" }

/-- By priority, by sub-priority and then the newest first; those without a priority last, in the
order in which they came. -/
def Outranks (hooks : Inserted) (a b : Nat) : Prop :=
  (placementIn hooks a).Ahead (placementIn hooks b) (arrival hooks a ≤ arrival hooks b)
    (arrival hooks b ≤ arrival hooks a)

/-- Which of two equals is linked in front of the other: of those that were there before the key
that names them the older one, else the newer one. -/
def LinkedFirst (hooks : Inserted) (key a b : Nat) : Prop :=
  if arrival hooks a < arrival hooks key ∧ arrival hooks b < arrival hooks key then
    arrival hooks a ≤ arrival hooks b
  else arrival hooks b ≤ arrival hooks a

/-- As hooks are linked to the key that they must stand before. -/
def LinkedAhead (hooks : Inserted) (key a b : Nat) : Prop :=
  (placementIn hooks a).Ahead (placementIn hooks b) (arrival hooks a ≤ arrival hooks b)
    (LinkedFirst hooks key a b)

instance (hooks : Inserted) : DecidableRel (Outranks hooks) := fun a b => by
  unfold Outranks
  infer_instance

instance (hooks : Inserted) (key : Nat) : DecidableRel (LinkedAhead hooks key) := fun a b => by
  unfold LinkedAhead LinkedFirst
  infer_instance

instance (hooks : Inserted) : DecidableRel (MustPrecede hooks) := fun a b =>
  decidable_of_iff (∃ old ∈ hooks, ∃ new ∈ hooks, [old, new].Sublist hooks ∧
    (old.2.precedence new.2 = .newFirst ∧ a = new.1 ∧ b = old.1 ∨
      old.2.precedence new.2 = .oldFirst ∧ a = old.1 ∧ b = new.1))
    ⟨fun ⟨old, _, new, _, s, h⟩ => ⟨old, new, s, h⟩,
      fun ⟨old, new, s, h⟩ => ⟨old, s.subset (by simp), new, s.subset (by simp), s, h⟩⟩

/-- All keys by rank. -/
def keysByRank (hooks : Inserted) : List Nat := (hooks.map Prod.fst).insertionSort (Outranks hooks)

/-- The keys that must stand earlier than a key, in no order of their own. -/
def predecessors (hooks : Inserted) (key : Nat) : List Nat :=
  (hooks.map Prod.fst).filter fun e => MustPrecede hooks e key

/-- The keys that must stand earlier than a key, by rank. -/
def predecessorsByRank (hooks : Inserted) (key : Nat) : List Nat :=
  (predecessors hooks key).insertionSort (Outranks hooks)

/-- The keys that must stand earlier than a key, as they are linked to it. -/
def linkedPredecessors (hooks : Inserted) (key : Nat) : List Nat :=
  (predecessors hooks key).insertionSort (LinkedAhead hooks key)

/-- A depth-first walk over keys, from the order so far to the order afterwards. Each new key comes
behind all that is earlier than it. -/
inductive Walk (earlier : Nat → List Nat) : List Nat → List Nat → List Nat → Prop
  | done {order : List Nat} : Walk earlier [] order order
  | known {key : Nat} {keys order order' : List Nat} : key ∈ order →
      Walk earlier keys order order' → Walk earlier (key :: keys) order order'
  | visit {key : Nat} {keys order middle order' : List Nat} : key ∉ order →
      Walk earlier (earlier key) order middle → Walk earlier keys (middle ++ [key]) order' →
      Walk earlier (key :: keys) order order'

theorem Walk.append {earlier : Nat → List Nat} {keys keys' order middle order' : List Nat}
    (w : Walk earlier keys order middle) (w' : Walk earlier keys' middle order') :
    Walk earlier (keys ++ keys') order order' := by
  induction w with
  | done => exact w'
  | known there _ ih => exact .known there (ih w')
  | visit fresh inner _ _ ih => exact .visit fresh inner (ih w')

theorem Walk.leaf {earlier : Nat → List Nat} {key : Nat} {order : List Nat}
    (free : earlier key = []) (fresh : key ∉ order) :
    Walk earlier [key] order (order ++ [key]) :=
  .visit fresh (free ▸ .done) .done

/-- A walk comes to one order only. -/
theorem Walk.unique {earlier : Nat → List Nat} {keys order order' order'' : List Nat}
    (w : Walk earlier keys order order') (w' : Walk earlier keys order order'') :
    order' = order'' := by
  induction w generalizing order'' with
  | done =>
    cases w'
    rfl
  | known there _ ih =>
    cases w' with
    | known _ rest => exact ih rest
    | visit fresh _ _ => exact absurd there fresh
  | visit fresh _ _ ih ih' =>
    cases w' with
    | known there _ => exact absurd there fresh
    | visit _ inner rest =>
      obtain rfl := ih inner
      exact ih' rest

theorem walk_foldlM {earlier : Nat → List Nat} {act : List Nat → Nat → Except Nat (List Nat)}
    (one : ∀ order key order', act order key = .ok order' → Walk earlier [key] order order')
    {keys order order' : List Nat} (h : keys.foldlM act order = .ok order') :
    Walk earlier keys order order' := by
  induction keys generalizing order with
  | nil =>
    cases h
    exact .done
  | cons key keys ih =>
    rw [List.foldlM_cons] at h
    rcases first : act order key with e | middle
    · rw [first] at h; cases h
    · rw [first] at h
      exact (one order key middle first).append (ih h)

theorem walk_visit {earlier : Nat → List Nat} {free : List Nat} {key : Nat}
    {order order' : List Nat} (h : visit earlier free key order = .ok order') :
    Walk earlier [key] order order' := by
  induction free, key, order using visit.induct generalizing order' with
  | case1 free key order there =>
    rw [visit, if_pos there] at h
    cases h
    exact .known there .done
  | case2 free key order absent isFree ih =>
    rw [visit, if_neg absent, if_pos isFree] at h
    rcases inner : (earlier key).foldlM
      (fun order earlierKey => visit earlier (free.erase key) earlierKey order) order
        with e | middle
    · rw [inner] at h; cases h
    · rw [inner] at h
      cases h
      exact .visit absent (walk_foldlM (fun order key _ h' => ih order key h') inner) .done
  | case3 free key order absent taken =>
    rw [visit, if_neg absent, if_neg taken] at h
    cases h

/-! ## Arrivals -/

theorem arrival_lt {key : Nat} (m : key ∈ hooks.map Prod.fst) :
    arrival hooks key < hooks.length := by
  simpa [arrival] using List.idxOf_lt_length_iff.mpr m

theorem eq_of_arrival {a b : Nat} (m : a ∈ hooks.map Prod.fst)
    (same : arrival hooks a = arrival hooks b) : a = b :=
  (List.idxOf_inj m).mp same

section Snoc

variable {key : Nat} {p : Placement}

theorem arrival_snoc {k : Nat} (m : k ∈ hooks.map Prod.fst) :
    arrival (hooks ++ [(key, p)]) k = arrival hooks k := by
  unfold arrival
  rw [List.map_append]
  exact List.idxOf_append_of_mem m

theorem arrival_new (fresh : key ∉ hooks.map Prod.fst) :
    arrival (hooks ++ [(key, p)]) key = hooks.length := by
  unfold arrival
  rw [List.map_append, List.idxOf_append_of_notMem fresh]
  simp

theorem arrival_lt_new (fresh : key ∉ hooks.map Prod.fst) {k : Nat}
    (m : k ∈ hooks.map Prod.fst) :
    arrival (hooks ++ [(key, p)]) k < arrival (hooks ++ [(key, p)]) key := by
  rw [arrival_snoc m, arrival_new fresh]
  exact arrival_lt m

theorem placementIn_snoc {k : Nat} (m : k ∈ hooks.map Prod.fst) :
    placementIn (hooks ++ [(key, p)]) k = placementIn hooks k := by
  obtain ⟨hook, mh, rfl⟩ := List.mem_map.mp m
  obtain ⟨first, found⟩ : ∃ first, hooks.find? (·.1 == hook.1) = some first :=
    Option.isSome_iff_exists.mp (List.find?_isSome.mpr ⟨hook, mh, by simp⟩)
  unfold placementIn
  rw [List.find?_append, found]
  rfl

theorem outranks_snoc {a b : Nat} (ma : a ∈ hooks.map Prod.fst) (mb : b ∈ hooks.map Prod.fst) :
    Outranks (hooks ++ [(key, p)]) a b ↔ Outranks hooks a b := by
  unfold Outranks
  rw [arrival_snoc ma, arrival_snoc mb, placementIn_snoc ma, placementIn_snoc mb]

theorem linkedAhead_snoc {k a b : Nat} (mk : k ∈ hooks.map Prod.fst)
    (ma : a ∈ hooks.map Prod.fst) (mb : b ∈ hooks.map Prod.fst) :
    LinkedAhead (hooks ++ [(key, p)]) k a b ↔ LinkedAhead hooks k a b := by
  unfold LinkedAhead LinkedFirst
  rw [arrival_snoc ma, arrival_snoc mb, arrival_snoc mk, placementIn_snoc ma, placementIn_snoc mb]

end Snoc

theorem Recorded.placementIn_eq (r : Recorded hooks g) : placementIn hooks = g.rankOf := by
  funext key
  have found : (hooks.find? (·.1 == key)).map Prod.snd = g.placement? key := by
    refine Option.ext fun p => ?_
    rw [r.placement?_eq_some, Option.map_eq_some_iff]
    constructor
    · rintro ⟨hook, found, rfl⟩
      obtain ⟨m, rfl⟩ := (Keyed.find?_eq_some_iff r.nodup).mp found
      exact m
    · exact fun m => ⟨_, (Keyed.find?_eq_some_iff r.nodup).mpr ⟨m, rfl⟩, rfl⟩
  unfold placementIn rankOf
  rw [found]

/-! ## How hooks are linked -/

/-- Where a newcomer finds its place in front of or behind another agrees with an order. -/
def Fits (placementOf : Nat → Placement) (r : Nat → Nat → Prop) (y x : Nat) : Prop :=
  ((placementOf y).outranks (placementOf x) = true → r y x) ∧
    ((placementOf y).outranks (placementOf x) = false → r x y)

/-- A list of keys after newcomers were put in by rank, one after the other. -/
def putIn (placementOf : Nat → Placement) (added list : List Nat) : List Nat :=
  added.foldl (fun list x => Placement.insertRanked placementOf (placementOf x) x list) list

theorem pairwise_putIn {placementOf : Nat → Placement} {r : Nat → Nat → Prop}
    {added list : List Nat} (inRank : Placement.Ranked placementOf list) (kept : list.Pairwise r)
    (old : ∀ y ∈ list, ∀ x ∈ added, Fits placementOf r y x)
    (new : added.Pairwise (Fits placementOf r)) :
    (putIn placementOf added list).Pairwise r := by
  induction added generalizing list with
  | nil => exact kept
  | cons first rest ih =>
    obtain ⟨here, later⟩ := List.pairwise_cons.mp new
    refine ih (inRank.insertRanked first) ?_ (fun y my x mx => ?_) later
    · exact inRank.pairwise_insertRanked kept (fun y m => (old y m first List.mem_cons_self).1)
        fun y m => (old y m first List.mem_cons_self).2
    · rcases Placement.mem_insertRanked.mp my with rfl | my
      · exact here x mx
      · exact old y my x (List.mem_cons_of_mem _ mx)

/-- A hook after everything that some edges link to it was put into its list. -/
def linkedAll (rankOf : Nat → Placement) (edges : List Edge) (h : PlacedHook) : PlacedHook :=
  { h with earlier := putIn rankOf ((edges.filter (·.later = h.key)).map Edge.earlier) h.earlier }

theorem hooks_foldl_link (edges : List Edge) (g : PlacementGraph) :
    (edges.foldl link g).hooks = g.hooks.map (linkedAll g.rankOf edges) := by
  induction edges generalizing g with
  | nil => exact (List.map_id _).symm
  | cons e edges ih =>
    rw [List.foldl_cons, ih, hooks_link, List.map_map, rankOf_link]
    refine List.map_congr_left fun h _ => ?_
    unfold linkedAll
    rw [Function.comp_apply, (linked_keeps g e h).1, (linked_keeps g e h).2]
    unfold linked
    by_cases it : h.key = e.later
    · rw [if_pos it, List.filter_cons_of_pos (by simp [it])]
      rfl
    · rw [if_neg it, List.filter_cons_of_neg (by simpa using Ne.symm it)]

theorem rankOf_foldl_link (edges : List Edge) (g : PlacementGraph) :
    (edges.foldl link g).rankOf = g.rankOf := by
  induction edges generalizing g with
  | nil => rfl
  | cons e edges ih => rw [List.foldl_cons, ih, rankOf_link]

/-- The hooks stand by rank, and those that must stand earlier than each as they were linked. -/
structure InTurn (hooks : Inserted) (g : PlacementGraph) : Prop where
  keys : g.hooks.Pairwise fun x y => Outranks hooks x.key y.key
  earlier : ∀ x ∈ g.hooks, x.earlier.Pairwise (LinkedAhead hooks x.key)

section Attach

variable {key : Nat} {p : Placement}

/-- An edge of a new hook leads to the peer or from it. -/
theorem ends_of_mem_edges {peer : PlacedHook} {e : Edge} (other : peer.key ≠ key)
    (m : e ∈ peer.edges key p) :
    (e.later = key → e.earlier = peer.key) ∧ (e.later ≠ key → e.earlier = key) := by
  rcases mem_edges.mp m with ⟨_, rfl⟩ | ⟨_, rfl⟩
  · exact ⟨fun same => absurd same other, fun _ => rfl⟩
  · exact ⟨fun _ => rfl, fun no => absurd rfl no⟩

/-- A hook that came before another key and is ranked in front of a further one fits behind it
among those that are linked to the key. -/
theorem fits_of_outranks {k y x : Nat} (sooner : arrival hooks y < arrival hooks k)
    (sooner' : arrival hooks x < arrival hooks k) (above : Outranks hooks y x) :
    Fits (placementIn hooks) (LinkedAhead hooks k) y x := by
  refine ⟨fun outranks => Placement.Ahead.of_outranks outranks above, fun equal => ?_⟩
  have flipped : (placementIn hooks x).Ahead (placementIn hooks y)
      (arrival hooks x ≤ arrival hooks y) (arrival hooks x ≤ arrival hooks y) :=
    Placement.Ahead.flip equal above
  refine flipped.mono id fun older => ?_
  rw [LinkedFirst, if_pos ⟨sooner', sooner⟩]
  exact older

/-- A hook that came after another key stands in front of its equals among those that are linked
to that key. -/
theorem fits_of_newest {k y x : Nat} (newer : arrival hooks k < arrival hooks x)
    (newest : arrival hooks y ≤ arrival hooks x) :
    Fits (placementIn hooks) (LinkedAhead hooks k) y x := by
  refine ⟨fun outranks => Placement.ahead_of_outranks outranks newest,
    fun equal => Placement.ahead_of_not_outranks equal ?_⟩
  rw [LinkedFirst, if_neg (by omega)]
  exact newest

section Recorded

variable (r : Recorded hooks g) (fresh : key ∉ hooks.map Prod.fst)

include r

theorem Recorded.known {x : PlacedHook} (m : x ∈ g.hooks) : x.key ∈ hooks.map Prod.fst :=
  (r.mem_keys x.key).mp (List.mem_map_of_mem m)

theorem Recorded.knownEarlier {x : PlacedHook} (m : x ∈ g.hooks) {e : Nat} (me : e ∈ x.earlier) :
    e ∈ hooks.map Prod.fst := ((r.earlier x m e).mp me).mem.1

include fresh

theorem Recorded.other {x : PlacedHook} (m : x ∈ g.hooks) : x.key ≠ key :=
  fun same => fresh (same ▸ r.known m)

theorem Recorded.placementIn_joined :
    placementIn (hooks ++ [(key, p)]) = (g.joined key p).rankOf := by
  rw [(r.attach fresh p).placementIn_eq]
  exact rankOf_foldl_link _ _

theorem Recorded.placementIn_key {x : PlacedHook} (m : x ∈ (g.joined key p).hooks) :
    placementIn (hooks ++ [(key, p)]) x.key = x.placement := by
  let edges := g.hooks.flatMap (PlacedHook.edges key p)
  have there : linkedAll (g.joined key p).rankOf edges x ∈ (g.attach key p).hooks := by
    unfold PlacementGraph.attach
    rw [hooks_foldl_link]
    exact List.mem_map_of_mem m
  rw [(r.attach fresh p).placementIn_eq]
  exact ((r.attach fresh p).rankOf_key there :)

/-- The new hook takes its place by rank. -/
theorem Recorded.joined_pairwise (i : InRank g)
    (t : g.hooks.Pairwise fun x y => Outranks hooks x.key y.key) :
    (g.joined key p).hooks.Pairwise fun x y =>
      Outranks (hooks ++ [(key, p)]) x.key y.key := by
  have kept : g.hooks.Pairwise fun x y => Outranks (hooks ++ [(key, p)]) x.key y.key :=
    t.imp_of_mem fun mx my above => (outranks_snoc (r.known mx) (r.known my)).mpr above
  have new := r.placementIn_key fresh (p := p) (Placement.mem_insertRanked.mpr (Or.inl rfl))
  refine i.hooks.pairwise_insertRanked kept (fun y m above => ?_) (fun y m below => ?_)
  all_goals
    have old := r.placementIn_key fresh (p := p) (Placement.mem_insertRanked.mpr (Or.inr m))
    have sooner := Nat.le_of_lt (arrival_lt_new fresh (p := p) (r.known m))
    unfold Outranks
    rw [old, new]
  · exact Placement.ahead_of_outranks above sooner
  · exact Placement.ahead_of_not_outranks below sooner

/-- Hooks that were there are linked to the new one in order of rank. -/
theorem Recorded.linked_to_new (t : g.hooks.Pairwise fun x y => Outranks hooks x.key y.key) :
    (((g.hooks.flatMap (PlacedHook.edges key p)).filter (·.later = key)).map
      Edge.earlier).Pairwise
        (Fits (placementIn (hooks ++ [(key, p)])) (LinkedAhead (hooks ++ [(key, p)]) key)) := by
  have fits {y x : PlacedHook} (my : y ∈ g.hooks) (mx : x ∈ g.hooks)
      (above : Outranks (hooks ++ [(key, p)]) y.key x.key) {e e' : Edge}
      (me : e ∈ y.edges key p) (me' : e' ∈ x.edges key p) (later : e.later = key)
      (later' : e'.later = key) :
      Fits (placementIn (hooks ++ [(key, p)])) (LinkedAhead (hooks ++ [(key, p)]) key)
        e.earlier e'.earlier := by
    rw [(ends_of_mem_edges (r.other fresh my) me).1 later,
      (ends_of_mem_edges (r.other fresh mx) me').1 later']
    exact fits_of_outranks (arrival_lt_new fresh (r.known my)) (arrival_lt_new fresh (r.known mx))
      above
  refine List.pairwise_map.mpr (List.pairwise_filter.mpr (List.pairwise_flatMap.mpr ⟨?_, ?_⟩))
  · intro y my
    refine List.pairwise_of_forall_mem_list fun e me e' me' later later' => ?_
    exact fits my my (Placement.Ahead.refl (Nat.le_refl _) (Nat.le_refl _)) me me'
      (of_decide_eq_true later) (of_decide_eq_true later')
  · refine t.imp_of_mem fun my mx above e me e' me' later later' => ?_
    exact fits my mx ((outranks_snoc (r.known my) (r.known mx)).mpr above) me me'
      (of_decide_eq_true later) (of_decide_eq_true later')

/-- Nothing but the new hook is linked to one that was there. -/
theorem Recorded.linked_to_old {h : PlacedHook} (m : h ∈ g.hooks) {e : Nat}
    (me : e ∈ ((g.hooks.flatMap (PlacedHook.edges key p)).filter (·.later = h.key)).map
      Edge.earlier) : e = key := by
  obtain ⟨edge, medge, rfl⟩ := List.mem_map.mp me
  obtain ⟨medge, later⟩ := List.mem_filter.mp medge
  obtain ⟨peer, mp, medge⟩ := List.mem_flatMap.mp medge
  exact (ends_of_mem_edges (r.other fresh mp) medge).2 (of_decide_eq_true later ▸ r.other fresh m)

end Recorded

theorem InTurn.attach (t : InTurn hooks g) (r : Recorded hooks g) (i : InRank g)
    (fresh : key ∉ hooks.map Prod.fst) : InTurn (hooks ++ [(key, p)]) (g.attach key p) := by
  have attached : (g.attach key p).hooks = (g.joined key p).hooks.map
      (linkedAll (placementIn (hooks ++ [(key, p)]))
        (g.hooks.flatMap (PlacedHook.edges key p))) := by
    rw [r.placementIn_joined fresh]
    exact hooks_foldl_link _ (g.joined key p)
  constructor
  · rw [attached]
    exact List.pairwise_map.mpr (r.joined_pairwise fresh i t.keys)
  intro x mx
  rw [attached] at mx
  obtain ⟨h, m, rfl⟩ := List.mem_map.mp mx
  have ranked : Placement.Ranked (placementIn (hooks ++ [(key, p)])) h.earlier := by
    rw [r.placementIn_joined fresh]
    exact (i.joined (fun x m me => fresh (r.knownEarlier m me)) p).earlier h m
  rcases Placement.mem_insertRanked.mp m with rfl | mh
  · exact pairwise_putIn ranked List.Pairwise.nil (fun _ none => nomatch none)
      (r.linked_to_new fresh t.keys)
  · have fits {y : Nat} (here : y ∈ h.earlier ∨ y = key) :
        Fits (placementIn (hooks ++ [(key, p)])) (LinkedAhead (hooks ++ [(key, p)]) h.key) y
          key := by
      refine fits_of_newest (arrival_lt_new fresh (r.known mh)) ?_
      rcases here with here | rfl
      · exact Nat.le_of_lt (arrival_lt_new fresh (r.knownEarlier mh here))
      · exact Nat.le_refl _
    refine pairwise_putIn ranked ?_ (fun y my e me => ?_) ?_
    · exact (t.earlier h mh).imp_of_mem fun ma mb above => (linkedAhead_snoc (r.known mh)
        (r.knownEarlier mh ma) (r.knownEarlier mh mb)).mpr above
    · exact r.linked_to_old fresh mh me ▸ fits (Or.inl my)
    · refine List.pairwise_of_forall_mem_list fun e me e' me' => ?_
      rw [r.linked_to_old fresh mh me, r.linked_to_old fresh mh me']
      exact fits (Or.inr rfl)

end Attach

theorem Built.inTurn (b : Built hooks g) : InTurn hooks g := by
  induction b with
  | nil => exact ⟨List.Pairwise.nil, fun x m => by cases m⟩
  | @snoc hooks g g' key p b taken t =>
    have next := t.attach b.sound.recorded b.inRank (b.fresh taken).1 (p := p)
    have same := (of_insert_ok taken).2
    exact ⟨same ▸ next.keys, same ▸ next.earlier⟩

/-! ## The walk of a built graph -/

theorem total_outranks (hooks : Inserted) : Std.Total (Outranks hooks) :=
  ⟨fun _ _ => Placement.Ahead.total (Nat.le_total _ _) (Nat.le_total _ _)⟩

theorem trans_outranks (hooks : Inserted) : IsTrans Nat (Outranks hooks) :=
  ⟨fun _ _ _ h h' => Placement.Ahead.trans h h' Nat.le_trans fun l l' => Nat.le_trans l' l⟩

theorem total_linkedAhead (hooks : Inserted) (key : Nat) : Std.Total (LinkedAhead hooks key) := by
  refine ⟨fun a b => Placement.Ahead.total (Nat.le_total _ _) ?_⟩
  unfold LinkedFirst
  split_ifs <;> omega

theorem trans_linkedAhead (hooks : Inserted) (key : Nat) :
    IsTrans Nat (LinkedAhead hooks key) := by
  refine ⟨fun a b c h h' => Placement.Ahead.trans h h' Nat.le_trans fun l l' => ?_⟩
  unfold LinkedFirst at *
  split_ifs at * <;> omega

theorem antisymm_outranks {a b : Nat} (m : a ∈ hooks.map Prod.fst) (h : Outranks hooks a b)
    (h' : Outranks hooks b a) : a = b :=
  eq_of_arrival m ((Placement.Ahead.antisymm h h').elim (fun s => Nat.le_antisymm s.1 s.2)
    fun l => Nat.le_antisymm l.2 l.1)

theorem antisymm_linkedAhead {key a b : Nat} (m : a ∈ hooks.map Prod.fst)
    (h : LinkedAhead hooks key a b) (h' : LinkedAhead hooks key b a) : a = b := by
  refine eq_of_arrival m ((Placement.Ahead.antisymm h h').elim
    (fun s => Nat.le_antisymm s.1 s.2) fun l => ?_)
  obtain ⟨l, l'⟩ := l
  unfold LinkedFirst at *
  split_ifs at * <;> omega

theorem mem_predecessors {key e : Nat} : e ∈ predecessors hooks key ↔ MustPrecede hooks e key := by
  unfold predecessors
  rw [List.mem_filter, decide_eq_true_iff]
  exact ⟨fun m => m.2, fun h => ⟨h.mem.1, h⟩⟩

theorem linkedPredecessors_perm (hooks : Inserted) (key : Nat) :
    (linkedPredecessors hooks key).Perm (predecessors hooks key) := List.perm_insertionSort _ _

theorem pairwise_linkedPredecessors (hooks : Inserted) (key : Nat) :
    (linkedPredecessors hooks key).Pairwise (LinkedAhead hooks key) :=
  have := total_linkedAhead hooks key
  have := trans_linkedAhead hooks key
  List.pairwise_insertionSort _ _

theorem mem_linkedPredecessors {key e : Nat} :
    e ∈ linkedPredecessors hooks key ↔ MustPrecede hooks e key := by
  rw [(linkedPredecessors_perm hooks key).mem_iff, mem_predecessors]

theorem pairwise_insertionSort_outranks (hooks : Inserted) (keys : List Nat) :
    (keys.insertionSort (Outranks hooks)).Pairwise (Outranks hooks) :=
  have := total_outranks hooks
  have := trans_outranks hooks
  List.pairwise_insertionSort _ _

namespace Built

theorem keys_eq (b : Built hooks g) : g.hooks.map PlacedHook.key = keysByRank hooks := by
  have same : (g.hooks.map PlacedHook.key).Perm (keysByRank hooks) :=
    b.sound.recorded.keys.trans (List.perm_insertionSort _ _).symm
  refine same.eq_of_pairwise (fun a c ma _ => antisymm_outranks ?_)
    (List.pairwise_map.mpr b.inTurn.keys) (pairwise_insertionSort_outranks hooks _)
  exact (b.sound.recorded.mem_keys a).mp ma

theorem visit_eq (b : Built hooks g) :
    visit g.earlierThan = visit (linkedPredecessors hooks) := by
  have r := b.sound.recorded
  refine visit_ranked (pairwise_linkedPredecessors hooks) (fun key => ?_) (fun a key => ?_)
    fun key a ma c _ => antisymm_linkedAhead (mem_linkedPredecessors.mp ma).mem.1
  · unfold earlierThan
    rcases found : g.find? key with _ | x
    · exact List.Pairwise.nil
    · have here : x.key = key := by simpa using List.find?_some found
      exact here ▸ b.inTurn.earlier x (List.mem_of_find?_eq_some found)
  · rw [r.earlier_iff]
    exact mem_linkedPredecessors.symm

/-- The order of a graph is the walk over its hooks by rank, in which each takes those first that
were linked to it. -/
theorem walk (b : Built hooks g) : Walk (linkedPredecessors hooks) (keysByRank hooks) [] g.order := by
  have order := b.sound.ordered
  unfold linearize at order
  rw [b.keys_eq, b.visit_eq] at order
  exact walk_foldlM (fun _ _ _ => walk_visit) order

end Built

/-! ## The law -/

/-- No hook came after two others that must stand earlier than it and that tie. -/
def Untied (hooks : Inserted) : Prop :=
  ∀ key a b, MustPrecede hooks a key → MustPrecede hooks b key →
    arrival hooks a < arrival hooks key → arrival hooks b < arrival hooks key →
    (placementIn hooks a).Ties (placementIn hooks b) → a = b

theorem Untied.predecessorsByRank_eq (u : Untied hooks) :
    predecessorsByRank hooks = linkedPredecessors hooks := by
  funext key
  have ranked : (linkedPredecessors hooks key).Pairwise (Outranks hooks) := by
    refine (pairwise_linkedPredecessors hooks key).imp_of_mem fun {a b} ma mb ahead => ?_
    have ma := mem_linkedPredecessors.mp ma
    have mb := mem_linkedPredecessors.mp mb
    by_cases old : arrival hooks a < arrival hooks key ∧ arrival hooks b < arrival hooks key
    · by_cases tie : (placementIn hooks a).Ties (placementIn hooks b)
      · rw [u key a b ma mb old.1 old.2 tie]
        exact Placement.Ahead.refl (Nat.le_refl _) (Nat.le_refl _)
      · exact Placement.Ahead.of_not_ties tie ahead
    · unfold LinkedAhead LinkedFirst at ahead
      rw [if_neg old] at ahead
      exact ahead
  have same : (predecessorsByRank hooks key).Perm (linkedPredecessors hooks key) :=
    (List.perm_insertionSort _ _).trans (linkedPredecessors_perm hooks key).symm
  refine same.eq_of_pairwise (fun a b ma _ => antisymm_outranks ?_)
    (pairwise_insertionSort_outranks hooks _) ranked
  exact (mem_linkedPredecessors.mp (same.mem_iff.mp ma)).mem.1

/-- After any changes the order is the depth-first walk over the hooks by rank, in which each hook
takes those first that must stand earlier, as they were linked to it. These are ranked as well, the
newest first among equals, but that of the equals that were there before the hook the oldest comes
first. So all are visited in one and the same order unless a hook came after two others that must
stand earlier than it and that tie. -/
theorem the_order_is_a_walk_by_rank (changes : List Change) :
    let h := History.after changes
    (∀ order, Walk (linkedPredecessors h.inserted) (keysByRank h.inserted) [] order ↔
      order = h.graph.order) ∧
    (Untied h.inserted → ∀ order,
      Walk (predecessorsByRank h.inserted) (keysByRank h.inserted) [] order ↔
        order = h.graph.order) := by
  intro h
  have walk := (built_after changes).walk
  have only (order : List Nat) :
      Walk (linkedPredecessors h.inserted) (keysByRank h.inserted) [] order ↔ order = h.graph.order :=
    ⟨fun w => w.unique walk, fun same => same ▸ walk⟩
  exact ⟨only, fun untied => untied.predecessorsByRank_eq ▸ only⟩

/-- The same two equals, linked to a hook that was there before them. -/
theorem newer_equals_are_walked_by_rank :
    let h := History.after [.insert 3 { id := "c", priority := some 1, after := ["a", "b"] },
      .insert 1 { id := "a", priority := some 0 }, .insert 2 { id := "b", priority := some 0 }]
    Untied h.inserted ∧ Walk (predecessorsByRank h.inserted) (keysByRank h.inserted) [] [2, 1, 3] := by
  intro h
  have late : ∀ key ∈ h.inserted.map Prod.fst, ∀ a ∈ h.inserted.map Prod.fst,
      MustPrecede h.inserted a key → ¬ arrival h.inserted a < arrival h.inserted key := by
    decide +kernel
  have untied : Untied h.inserted := fun key a b must _ sooner _ _ =>
    absurd sooner (late key must.mem.2 a must.mem.1 must)
  refine ⟨untied, ((the_order_is_a_walk_by_rank _).2 untied _).mpr ?_⟩
  decide +kernel

/-- Two equals, and a hook that comes after both and that both must stand before. -/
def twoEqualsAndOne : List Change :=
  [.insert 1 { id := "a", priority := some 0 }, .insert 2 { id := "b", priority := some 0 },
    .insert 3 { id := "c", priority := some 1, after := ["a", "b"] }]

theorem the_older_of_two_equals_stands_first :
    let h := History.after twoEqualsAndOne
    h.graph.order = [1, 2, 3] ∧
      Walk (predecessorsByRank h.inserted) (keysByRank h.inserted) [] [2, 1, 3] := by
  intro h
  have order : h.graph.order = [1, 2, 3] := by decide +kernel
  have keys : keysByRank h.inserted = [3, 2, 1] := by decide +kernel
  have third : predecessorsByRank h.inserted 3 = [2, 1] := by decide +kernel
  have second : predecessorsByRank h.inserted 2 = [] := by decide +kernel
  have first : predecessorsByRank h.inserted 1 = [] := by decide +kernel
  have both : Walk (predecessorsByRank h.inserted) (predecessorsByRank h.inserted 3) [] [2, 1] := by
    rw [third]
    exact (Walk.leaf second (by decide)).append (Walk.leaf first (by decide))
  have rest : Walk (predecessorsByRank h.inserted) [2, 1] [2, 1, 3] [2, 1, 3] :=
    .known (by decide) (.known (by decide) .done)
  refine ⟨order, ?_⟩
  rw [keys]
  exact .visit (by decide) both rest

end PlacementGraph

end Detouring
