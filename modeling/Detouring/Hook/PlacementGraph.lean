-- The order of the placed hooks of one method. Hooks are ranked by priority, the newest first
-- among equals and those without a priority last. A walk over the ranked hooks puts each one
-- after the hooks that must stand earlier; a circle of constraints refuses the new hook.
import Detouring.Fault
import Detouring.Hook.Placement

namespace Detouring

/-! ## Rank -/

namespace Placement

/-- `true` if a hook keeps its place in front of a newly placed one. -/
def outranks (old new : Placement) : Bool :=
  match old.priority, new.priority with
  | _, none => true
  | none, some _ => false
  | some a, some b => decide (b < a ∨ (a = b ∧ new.subPriority < old.subPriority))

/-- Puts a newly placed thing behind those that outrank it. -/
def insertRanked {α : Type} (placementOf : α → Placement) (new : Placement) (x : α)
    (ranked : List α) : List α :=
  ranked.takeWhile (fun y => (placementOf y).outranks new)
    ++ x :: ranked.dropWhile (fun y => (placementOf y).outranks new)

theorem mem_insertRanked {α : Type} {placementOf : α → Placement} {new : Placement} {x y : α}
    {ranked : List α} : y ∈ insertRanked placementOf new x ranked ↔ y = x ∨ y ∈ ranked := by
  have h := List.takeWhile_append_dropWhile (p := fun y => (placementOf y).outranks new)
    (l := ranked)
  conv => rhs; rw [← h]
  simp only [insertRanked, List.mem_append, List.mem_cons]
  grind

theorem length_insertRanked {α : Type} (placementOf : α → Placement) (new : Placement) (x : α)
    (ranked : List α) :
    (insertRanked placementOf new x ranked).length = ranked.length + 1 := by
  have h := congrArg List.length
    (List.takeWhile_append_dropWhile (p := fun y => (placementOf y).outranks new) (l := ranked))
  simp only [List.length_append] at h
  simp only [insertRanked, List.length_append, List.length_cons]
  omega

end Placement

/-! ## Constraints -/

/-- A constraint between two hooks of a graph. -/
structure Edge where
  later : Nat
  earlier : Nat
deriving DecidableEq

/-- A hook of the graph, with the hooks that must stand earlier in order of rank. -/
structure PlacedHook where
  key : Nat
  placement : Placement
  earlier : List Nat
deriving DecidableEq

/-- The edges between a new hook and one that is there. Its own wish to stand before a peer
wins, then every wish that the peer stands first. -/
def PlacedHook.edges (key : Nat) (new : Placement) (peer : PlacedHook) : List Edge :=
  let keyFirst : Edge := ⟨peer.key, key⟩
  let peerFirst : Edge := ⟨key, peer.key⟩
  if new.standsBefore peer.placement.id then
    keyFirst :: if peer.placement.standsAfter new.id then [keyFirst] else []
  else
    let wishes :=
      (if new.standsAfter peer.placement.id then [peerFirst] else [])
        ++ (if peer.placement.standsBefore new.id then [peerFirst] else [])
    if wishes = [] then
      if peer.placement.standsAfter new.id then [keyFirst] else []
    else wishes

/-- How many wishes about a new hook and a peer lose against another. -/
def PlacedHook.conflicts (new : Placement) (peer : PlacedHook) : Nat :=
  let first := new.standsBefore peer.placement.id
  let last := new.standsAfter peer.placement.id
  let peerFirst := peer.placement.standsBefore new.id
  let peerLast := peer.placement.standsAfter new.id
  (first && last).toNat + (first && peerFirst).toNat
    + (!first && (last || peerFirst) && peerLast).toNat

/-! ## Graphs -/

/-- Placed hooks in order of rank, and the order that results. -/
structure PlacementGraph where
  hooks : List PlacedHook := []
  order : List Nat := []
deriving DecidableEq

namespace PlacementGraph

def size (g : PlacementGraph) : Nat := g.hooks.length

def find? (g : PlacementGraph) (key : Nat) : Option PlacedHook :=
  g.hooks.find? (·.key == key)

def contains (g : PlacementGraph) (key : Nat) : Bool := g.hooks.any (·.key == key)

def placement? (g : PlacementGraph) (key : Nat) : Option Placement :=
  (g.find? key).map PlacedHook.placement

/-- The keys that must stand earlier than a key. -/
def earlierThan (g : PlacementGraph) (key : Nat) : List Nat :=
  ((g.find? key).map PlacedHook.earlier).getD []

/-- The placement by which a key is ranked; a key that is not there ranks last. -/
def rankOf (g : PlacementGraph) (key : Nat) : Placement :=
  (g.placement? key).getD { id := "?" }

/-- Records one constraint, keeping the earlier hooks of each hook in order of rank. -/
def link (g : PlacementGraph) (e : Edge) : PlacementGraph :=
  { g with
    hooks := g.hooks.map fun h =>
      if h.key = e.later then
        { h with
          earlier := Placement.insertRanked g.rankOf (g.rankOf e.earlier) e.earlier h.earlier }
      else h }

/-! ## The walk -/

/-- Puts `key` and all that must stand earlier at the end of `order`. The keys on the way here
are no longer in `free`; meeting one of them again closes a circle. -/
def visit (earlierThan : Nat → List Nat) (free : List Nat) (key : Nat) (order : List Nat) :
    Except Nat (List Nat) :=
  if key ∈ order then .ok order
  else if key ∈ free then do
    let order ← (earlierThan key).foldlM
      (fun order earlier => visit earlierThan (free.erase key) earlier order) order
    return order ++ [key]
  else .error key
termination_by free.length
decreasing_by
  have := List.length_pos_of_mem ‹key ∈ free›
  have := List.length_erase_of_mem ‹key ∈ free›
  omega

/-- All keys, each after those that must stand earlier, or a key on a circle. -/
def linearize (g : PlacementGraph) : Except Nat (List Nat) :=
  let keys := g.hooks.map PlacedHook.key
  keys.foldlM (fun order key => visit g.earlierThan keys key order) []

/-! ## Changes -/

/-- Takes a key out of everything. -/
def detach (g : PlacementGraph) (key : Nat) : PlacementGraph :=
  let rest : PlacementGraph :=
    { g with
      hooks := (g.hooks.filter (·.key != key)).map fun h =>
        { h with earlier := h.earlier.filter (· != key) } }
  match rest.linearize with
  | .ok order => { rest with order }
  | .error _ => { rest with order := g.order.filter (· != key) }

def remove (g : PlacementGraph) (key : Nat) : PlacementGraph :=
  if g.contains key then g.detach key else g

/-- Ranks a new hook and records its constraints; the order is not yet updated. -/
def attach (g : PlacementGraph) (key : Nat) (p : Placement) : PlacementGraph :=
  let edges := g.hooks.flatMap (PlacedHook.edges key p)
  let ranked := Placement.insertRanked PlacedHook.placement p ⟨key, p, []⟩ g.hooks
  edges.foldl link { g with hooks := ranked }

/-- Adds a hook, or takes it out again if its constraints close a circle. -/
def insert (g : PlacementGraph) (key : Nat) (p : Placement) :
    Except Fault Unit × PlacementGraph :=
  if g.contains key then (.error (.state (.alreadyOrdered p.id)), g)
  else
    let attached := g.attach key p
    match attached.linearize with
    | .ok order => (.ok (), { attached with order })
    | .error onCircle => (.error (.orderCycle (attached.rankOf onCircle).id), attached.detach key)

/-- The names of the peers against which a wish about the new hook is lost, once for each. -/
def conflicts (g : PlacementGraph) (key : Nat) (p : Placement) : List String :=
  if g.contains key then []
  else g.hooks.flatMap fun peer => List.replicate (peer.conflicts p) peer.placement.id

end PlacementGraph

end Detouring
