-- How the hooks of a chain are linked in memory. Linking makes the proxy lead to the first hook,
-- every trampoline to the hook after it and the last one to the method's own code. It changes
-- the cells of these stubs and nothing else.
import Detouring.Hook.Chain
import Detouring.Proofs.Jump.Redirecting
import Detouring.Proofs.Jump.Stubs

namespace Detouring

/-- The cells of the stubs share no byte. -/
def Stub.Apart (s t : Stub) : Prop := s.cell + 8 ≤ t.cell ∨ t.cell + 8 ≤ s.cell

namespace Chain

open Machine

variable {m m' : Memory} {entry : Nat} {nodes : List ChainNode} {proxy : Stub}

/-- Where these hooks begin, in front of the method's own code. -/
def start (entry : Nat) (nodes : List ChainNode) : Nat :=
  (nodes.head?.map ChainNode.target).getD entry

/-- Each trampoline leads to the hook after it, and the last one to `entry`. -/
def Follows (m : Memory) (entry : Nat) : List ChainNode → Prop
  | [] => True
  | node :: rest =>
    m.word node.trampoline.cell = start entry rest % wordCount ∧ Follows m entry rest

/-- The proxy leads to the first hook, and each hook to the next. -/
def Linked (m : Memory) (proxy : Stub) (nodes : List ChainNode) (entry : Nat) : Prop :=
  m.word proxy.cell = start entry nodes % wordCount ∧ Follows m entry nodes

/-! ## Looking at links -/

theorem Follows.congr (h : Follows m entry nodes)
    (same : ∀ n ∈ nodes, m'.word n.trampoline.cell = m.word n.trampoline.cell) :
    Follows m' entry nodes := by
  induction nodes with
  | nil => trivial
  | cons node rest ih =>
    obtain ⟨leads, follows⟩ := h
    refine ⟨(same node List.mem_cons_self).trans leads, ih follows fun n mn => ?_⟩
    exact same n (List.mem_cons_of_mem node mn)

theorem Linked.congr (h : Linked m proxy nodes entry)
    (first : m'.word proxy.cell = m.word proxy.cell)
    (same : ∀ n ∈ nodes, m'.word n.trampoline.cell = m.word n.trampoline.cell) :
    Linked m' proxy nodes entry := ⟨first.trans h.1, h.2.congr same⟩

/-- The links as a path: from the proxy and from each hook to where it leads. -/
theorem Follows.path (h : Follows m entry nodes) :
    nodes.map (fun n => m.word n.trampoline.cell) =
      ((nodes.map ChainNode.target).tail ++ [entry]).map (· % wordCount) ∨ nodes = [] := by
  induction nodes with
  | nil => exact Or.inr rfl
  | cons node rest ih =>
    obtain ⟨leads, follows⟩ := h
    refine Or.inl ?_
    cases rest with
    | nil => simp [leads, start]
    | cons next later =>
      rcases ih follows with path | none
      · rw [List.map_cons, path, leads]
        simp [start]
      · cases none

/-- From the proxy on, each stub leads to the next hook, and the last one to `entry`. -/
theorem Linked.path (h : Linked m proxy nodes entry) :
    (proxy :: nodes.map ChainNode.trampoline).map (fun s => m.word s.cell) =
      (nodes.map ChainNode.target ++ [entry]).map (· % wordCount) := by
  obtain ⟨first, follows⟩ := h
  have later : (nodes.map ChainNode.trampoline).map (fun s => m.word s.cell) =
      nodes.map fun n => m.word n.trampoline.cell := by rw [List.map_map]; rfl
  rw [List.map_cons, later, first]
  rcases follows.path with path | rfl
  · rw [path]
    cases nodes with
    | nil => simp at path
    | cons node rest => simp [start]
  · rfl

/-! ## Linking -/

/-- A cell is filled, and the bytes beside it stay. -/
theorem retarget_spec (s : Stub) (target : Nat) (m : Machine) :
    ∃ memory, s.retarget target m = m.withMemory memory ∧
      memory.places = m.memory.places ∧ memory.word s.cell = target % wordCount ∧
      ∀ x, x < s.cell ∨ s.cell + 8 ≤ x → memory.bytes x = m.memory.bytes x := by
  refine ⟨_, rfl, rfl, Memory.word_writeWord _ _ _, fun x out => ?_⟩
  refine Memory.bytes_write_outside _ _ _ _ ?_
  rw [length_leBytes]
  exact out

theorem word_beside {m m' : Memory} {s : Stub} {address : Nat}
    (apart : s.cell + 8 ≤ address ∨ address + 8 ≤ s.cell)
    (beside : ∀ x, x < s.cell ∨ s.cell + 8 ≤ x → m'.bytes x = m.bytes x) :
    m'.word address = m.word address :=
  Memory.word_congr fun i hi => beside _ (by omega)

theorem linkNodes_spec (entry : Nat) (nodes : List ChainNode) (m : Machine)
    (apart : nodes.Pairwise fun a b => a.trampoline.Apart b.trampoline) :
    ∃ memory, (linkNodes entry nodes m).1 = m.withMemory memory ∧
      memory.places = m.memory.places ∧ Follows memory entry nodes ∧
      ∀ x, (∀ n ∈ nodes, x < n.trampoline.cell ∨ n.trampoline.cell + 8 ≤ x) →
        memory.bytes x = m.memory.bytes x := by
  induction nodes with
  | nil => exact ⟨m.memory, rfl, rfl, trivial, fun _ _ => rfl⟩
  | cons node rest ih =>
    obtain ⟨first, later⟩ := List.pairwise_cons.mp apart
    obtain ⟨memory, linked, places, follows, outside⟩ := ih later
    have next := snd_linkNodes entry rest m
    rcases run : linkNodes entry rest m with ⟨m₁, target⟩
    rw [run] at linked next
    dsimp only at linked next
    subst linked next
    obtain ⟨memory', filled, places', word, beside⟩ :=
      retarget_spec node.trampoline (start entry rest) (m.withMemory memory)
    refine ⟨memory', ?_, places'.trans places, ⟨word, follows.congr fun n mn => ?_⟩,
      fun x out => ?_⟩
    · simp only [linkNodes, run]
      exact filled
    · exact word_beside (first n mn) beside
    · refine (beside x (out node List.mem_cons_self)).trans (outside x fun n mn => ?_)
      exact out n (List.mem_cons_of_mem node mn)

theorem link_spec (nodes : List ChainNode) (proxy : Stub) (entry : Nat) (m : Machine)
    (apart : nodes.Pairwise fun a b => a.trampoline.Apart b.trampoline)
    (first : ∀ n ∈ nodes, proxy.Apart n.trampoline) :
    ∃ memory, link nodes proxy entry m = m.withMemory memory ∧
      memory.places = m.memory.places ∧ Linked memory proxy nodes entry ∧
      ∀ x, (∀ s ∈ proxy :: nodes.map ChainNode.trampoline, x < s.cell ∨ s.cell + 8 ≤ x) →
        memory.bytes x = m.memory.bytes x := by
  obtain ⟨memory, linked, places, follows, outside⟩ := linkNodes_spec entry nodes m apart
  have next := snd_linkNodes entry nodes m
  rcases run : linkNodes entry nodes m with ⟨m₁, target⟩
  rw [run] at linked next
  dsimp only at linked next
  subst linked next
  obtain ⟨memory', filled, places', word, beside⟩ :=
    retarget_spec proxy (start entry nodes) (m.withMemory memory)
  refine ⟨memory', ?_, places'.trans places, ⟨word, follows.congr fun n mn => ?_⟩, fun x out => ?_⟩
  · simp only [link, run]
    exact filled
  · exact word_beside (first n mn) beside
  · refine (beside x (out proxy List.mem_cons_self)).trans (outside x fun n mn => ?_)
    exact out n.trampoline (List.mem_cons_of_mem _ (List.mem_map_of_mem mn))

/-- Pointing the last trampoline elsewhere moves the end of the chain. -/
theorem Follows.retail {entry' : Nat} {tail : ChainNode} (h : Follows m entry nodes)
    (last : nodes.getLast? = some tail)
    (word : m'.word tail.trampoline.cell = entry' % wordCount)
    (others : ∀ n ∈ nodes, n ≠ tail → m'.word n.trampoline.cell = m.word n.trampoline.cell)
    (once : nodes.Nodup) : Follows m' entry' nodes := by
  induction nodes with
  | nil => trivial
  | cons node rest ih =>
    obtain ⟨leads, follows⟩ := h
    obtain ⟨new, once⟩ := List.nodup_cons.mp once
    cases rest with
    | nil =>
      obtain rfl := Option.some.inj last
      exact ⟨word, trivial⟩
    | cons next later =>
      have last' : (next :: later).getLast? = some tail := by
        rw [List.getLast?_cons_cons] at last
        exact last
      refine ⟨?_, ih follows last' (fun n mn => others n (List.mem_cons_of_mem node mn)) once⟩
      refine (others node List.mem_cons_self fun same => new ?_).trans leads
      exact same ▸ List.mem_of_getLast? last'

end Chain

end Detouring
