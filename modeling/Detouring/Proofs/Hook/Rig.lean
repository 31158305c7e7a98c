-- What a chain has in the machine: the trampolines that it keeps, its proxy, and the jump at its
-- method with the alternate entry. All of them stay in order whatever the chain does.
import Detouring.Proofs.Hook.Links

namespace Detouring

open Machine

structure Rig where
  /-- Hooks whose trampolines are kept, be they linked or not. -/
  kept : List ChainNode := []
  proxy : Option Stub := none
  /-- The redirection of the method, while it is detoured. -/
  patch : Option Redirection := none

namespace Rig

variable {code : Set Nat} {x : Rig} {m m' : Machine} {K new : List Block} {node : ChainNode}
  {proxy : Stub} {r : Redirection} {entry : Nat} {nodes : List ChainNode}

def stubBlocks (x : Rig) : List Block :=
  (x.proxy.map Stub.block).toList ++ x.kept.map fun n => n.trampoline.block

def blocks (x : Rig) : List Block := (x.patch.map Redirection.blocks).getD [] ++ x.stubBlocks

/-- Everything is in order. The addresses in `code` hold code of others, which a jump may be
written over. -/
structure Stands (code : Set Nat) (x : Rig) (m : Machine) : Prop where
  holds : m.Holds x.blocks
  kept : ∀ n ∈ x.kept, n.trampoline.Stands m.memory
  proxy : ∀ s, x.proxy = some s → s.Stands m.memory
  patch : ∀ r, x.patch = some r → r.Stands m
  foreign : ∀ a ∈ code, m.Foreign a

/-! ## Blocks -/

theorem mem_of_kept (mn : node ∈ x.kept) : node.trampoline.block ∈ x.stubBlocks :=
  List.mem_append_right _ (List.mem_map_of_mem mn)

theorem mem_of_proxy (h : x.proxy = some proxy) : proxy.block ∈ x.stubBlocks := by
  unfold stubBlocks
  rw [h]
  exact List.mem_append_left _ List.mem_cons_self

theorem stub_mem {b : Block} (mb : b ∈ x.stubBlocks) : b ∈ x.blocks :=
  List.mem_append_right _ mb

theorem patch_mem (h : x.patch = some r) {b : Block} (mb : b ∈ r.blocks) : b ∈ x.blocks := by
  unfold blocks
  rw [h]
  exact List.mem_append_left _ mb

theorem blocks_patch (h : x.patch = some r) : x.blocks = r.blocks ++ x.stubBlocks := by
  unfold blocks
  rw [h]
  rfl

theorem blocks_bare (h : x.patch = none) : x.blocks = x.stubBlocks := by
  unfold blocks
  rw [h]
  rfl

namespace Stands

/-! ## Moves that leave the rig alone -/

/-- The stubs stand as long as their blocks are spared. -/
theorem spared (s : x.Stands code m)
    (blocks : ∀ b ∈ x.stubBlocks, ∀ a, b.Has a → m'.memory.bytes a = m.memory.bytes a)
    (foreign : ∀ a, m.Foreign a → m'.Foreign a) (holds : m'.Holds x.blocks)
    (patch : ∀ r, x.patch = some r → r.Stands m') : x.Stands code m' :=
  ⟨holds, fun n mn => (s.kept n mn).congr (blocks _ (mem_of_kept mn)),
    fun p hp => (s.proxy p hp).congr (blocks _ (mem_of_proxy hp)), patch,
    fun a ma => foreign a (s.foreign a ma)⟩

theorem gains (s : x.Stands code m) (gains : Gains x.blocks new m m') : x.Stands code m' :=
  s.spared (fun _ mb => gains.blocks _ (stub_mem mb)) gains.foreign
    (gains.holds.mono (List.sublist_append_right _ _).subperm) fun r hr =>
    (s.patch r hr).gains gains fun _ mb => patch_mem hr mb

theorem of_arena (s : x.Stands code m) (same : m'.arena = m.arena) : x.Stands code m' :=
  s.gains (.of_arena s.holds same)

/-- Spared stubs are linked as they were. -/
theorem linked (s : x.Stands code m)
    (blocks : ∀ b ∈ x.stubBlocks, ∀ a, b.Has a → m'.memory.bytes a = m.memory.bytes a)
    (hp : x.proxy = some proxy) (sub : ∀ n ∈ nodes, n ∈ x.kept)
    (h : Chain.Linked m.memory proxy nodes entry) : Chain.Linked m'.memory proxy nodes entry := by
  refine h.congr ?_ fun n mn => ?_
  · exact (s.proxy proxy hp).word_congr (blocks _ (mem_of_proxy hp))
  · exact (s.kept n (sub n mn)).word_congr (blocks _ (mem_of_kept (sub n mn)))

/-! ## Taking and giving back -/

/-- A new hook is kept. -/
theorem keep (s : x.Stands code m) (gains : Gains x.blocks [node.trampoline.block] m m')
    (stands : node.trampoline.Stands m'.memory) :
    Stands code { x with kept := node :: x.kept } m' := by
  have old := s.gains gains
  refine ⟨gains.holds.mono (List.Perm.subperm ?_), fun n mn => ?_, old.proxy, old.patch,
    old.foreign⟩
  · simp only [blocks, stubBlocks, List.map_cons, ← List.append_assoc]
    exact List.perm_middle
  · rcases List.mem_cons.mp mn with rfl | mn
    · exact stands
    · exact old.kept n mn

theorem takeProxy (s : x.Stands code m) (none : x.proxy = none)
    (gains : Gains x.blocks [proxy.block] m m') (stands : proxy.Stands m'.memory) :
    Stands code { x with proxy := some proxy } m' := by
  have old := s.gains gains
  refine ⟨gains.holds.mono (List.Perm.subperm ?_), old.kept, fun p hp => ?_, old.patch,
    old.foreign⟩
  · simp only [blocks, stubBlocks, none, Option.map_none, Option.toList_none, Option.map_some,
      Option.toList_some, List.nil_append, List.singleton_append]
    exact List.perm_middle
  · obtain rfl := Option.some.inj hp
    exact stands

/-- A part of the hooks is kept. -/
theorem narrow (s : x.Stands code m) {kept : List ChainNode} (sub : kept.Subperm x.kept) :
    Stands code { x with kept } m := by
  obtain ⟨l, perm, sublist⟩ := sub
  have mem (n : ChainNode) (mn : n ∈ kept) : n ∈ x.kept :=
    sublist.subset (perm.mem_iff.mpr mn)
  refine ⟨s.holds.mono ?_, fun n mn => s.kept n (mem n mn), s.proxy, s.patch, s.foreign⟩
  refine ⟨_, ((perm.map _).append_left _).append_left _, ?_⟩
  exact (List.Sublist.refl _).append ((List.Sublist.refl _).append (sublist.map _))

/-- A hook is given up, and the others are kept. -/
theorem release {rest : List ChainNode} (s : x.Stands code m)
    (perm : x.kept.Perm (node :: rest)) :
    Stands code { x with kept := rest } (m.free node.trampoline.block) ∧
      (m.free node.trampoline.block).memory.bytes = m.memory.bytes := by
  have parts : x.blocks.Perm (node.trampoline.block :: blocks { x with kept := rest }) := by
    have perm := perm.map fun n : ChainNode => n.trampoline.block
    simp only [blocks, stubBlocks, ← List.append_assoc]
    exact (perm.append_left _).trans List.perm_middle
  have front := s.holds.mono parts.symm.subperm
  have others := s.narrow (perm.symm.subperm_left.mp (List.sublist_cons_self node rest).subperm)
  have back : Gains (blocks { x with kept := rest }) [] m _ := front.free
  exact ⟨others.gains back, m.bytes_free _⟩

/-! ## The jump at the method -/

/-- The redirection is given up; what it had is not counted any more. -/
theorem unpatch (s : x.Stands code m) : Stands code { x with patch := none } m :=
  ⟨s.holds.mono (List.sublist_append_right _ _).subperm, s.kept, s.proxy,
    fun _ hr => (by cases hr), s.foreign⟩

/-- The method is redirected, over code of others. -/
theorem repatch (s : Stands code { x with patch := none } m) {source target : Nat}
    (carried : Redirection.Carried x.stubBlocks source target m r m')
    (covered : ∀ i < r.patch.jump.size, source + i ∈ code) :
    Stands code { x with patch := some r } m' ∧ Spares x.stubBlocks m m' := by
  obtain ⟨holds, spares, stands, _⟩ := carried.done fun i hi => s.foreign _ (covered i hi)
  have kept := s.spared spares.blocks spares.foreign (holds.mono (List.sublist_append_right _ _).subperm)
    fun _ hr => (by cases hr)
  refine ⟨⟨holds, kept.kept, kept.proxy, fun r' hr => ?_, kept.foreign⟩, spares⟩
  obtain rfl := Option.some.inj hr
  exact stands

/-! ## Linking -/

theorem apart (s : x.Stands code m) {a b : Stub} (ma : a.block ∈ x.stubBlocks)
    (mb : b.block ∈ x.stubBlocks) (other : a.block ≠ b.block) (sa : a.Stands m.memory)
    (sb : b.Stands m.memory) : a.Apart b := by
  have := s.holds.beside (stub_mem ma) (stub_mem mb) other
  rw [sa.size, sb.size] at this
  unfold Stub.Apart Stub.cell
  rw [sa.offset, sb.offset]
  omega

/-- The stubs of a rig have cells of their own. -/
theorem cells_apart (s : x.Stands code m) :
    (∀ a ∈ x.kept, ∀ b ∈ x.kept, a ≠ b → a.trampoline.Apart b.trampoline) ∧
      ∀ p, x.proxy = some p → ∀ n ∈ x.kept, p.Apart n.trampoline := by
  have nodup : x.stubBlocks.Nodup :=
    s.holds.nodup.sublist (List.sublist_append_right _ _)
  obtain ⟨_, kept, across⟩ := List.nodup_append.mp nodup
  refine ⟨fun a ma b mb other => ?_, fun p hp n mn => ?_⟩
  · refine s.apart (mem_of_kept ma) (mem_of_kept mb) (fun same => other ?_) (s.kept a ma)
      (s.kept b mb)
    exact List.inj_on_of_nodup_map kept ma mb same
  · refine s.apart (mem_of_proxy hp) (mem_of_kept mn) ?_ (s.proxy p hp) (s.kept n mn)
    refine across _ ?_ _ (List.mem_map_of_mem mn)
    rw [hp]
    exact List.mem_cons_self

/-- Filling cells of stubs leaves the rig in order. -/
theorem filled (s : x.Stands code m) {memory : Memory} (stubs : List Stub)
    (ours : ∀ t ∈ stubs, x.proxy = some t ∨ ∃ n ∈ x.kept, n.trampoline = t)
    (places : memory.places = m.memory.places)
    (outside : ∀ a, (∀ t ∈ stubs, a < t.cell ∨ t.cell + 8 ≤ a) →
      memory.bytes a = m.memory.bytes a) : x.Stands code (m.withMemory memory) := by
  have stub (t : Stub) (mt : t ∈ stubs) : t.block ∈ x.stubBlocks ∧ t.Stands m.memory := by
    rcases ours t mt with hp | ⟨n, mn, rfl⟩
    · exact ⟨mem_of_proxy hp, s.proxy t hp⟩
    · exact ⟨mem_of_kept mn, s.kept n mn⟩
  have beside (a : Nat) (out : ∀ t ∈ stubs, ¬ t.block.Has a) :
      memory.bytes a = m.memory.bytes a := by
    refine outside a fun t mt => ?_
    have := out t mt
    have size := (stub t mt).2.size
    have offset := (stub t mt).2.offset
    unfold Block.Has at this
    unfold Stub.cell
    omega
  -- A stub of the rig keeps its code, whether it is filled or not.
  have kept (t : Stub) (mt : t.block ∈ x.stubBlocks) (st : t.Stands m.memory) :
      t.Stands memory := by
    refine ⟨st.size, st.offset, (Memory.peek_congr fun i hi => ?_).trans st.code⟩
    refine outside _ fun u mu => ?_
    obtain ⟨mu, su⟩ := stub u mu
    by_cases same : t.block = u.block
    · have := su.offset
      unfold Stub.entry Stub.cell
      rw [same]
      omega
    · have has := st.has_code hi
      have := s.holds.apart (stub_mem mt) (stub_mem mu) same has
      have size := su.size
      have offset := su.offset
      unfold Block.Has at this
      unfold Stub.cell
      omega
  have foreign (a : Nat) (f : m.Foreign a) : (m.withMemory memory).Foreign a ∧
      memory.bytes a = m.memory.bytes a := by
    refine ⟨(foreign_withMemory places a).mpr f, beside a fun t mt has => ?_⟩
    exact s.holds.not_foreign (stub_mem (stub t mt).1) has f
  refine ⟨s.holds.withMemory places, fun n mn => kept _ (mem_of_kept mn) (s.kept n mn),
    fun p hp => kept _ (mem_of_proxy hp) (s.proxy p hp), fun r hr => ?_,
    fun a ma => (foreign a (s.foreign a ma)).1⟩
  refine (s.patch r hr).congr (fun i hi => foreign _ ((s.patch r hr).foreign i hi)) ?_
  intro b mb a has
  refine beside a fun t mt => ?_
  have nodup := s.holds.nodup
  rw [blocks_patch hr] at nodup
  have other := (List.nodup_append.mp nodup).2.2 b mb _ (stub t mt).1
  exact s.holds.apart (patch_mem hr mb) (stub_mem (stub t mt).1) other has

/-- Linking hooks that are kept makes the chain, and the rig stays in order. -/
theorem link (s : x.Stands code m) (hp : x.proxy = some proxy) (sub : ∀ n ∈ nodes, n ∈ x.kept)
    (once : nodes.Nodup) (entry : Nat) :
    ∃ memory, Chain.link nodes proxy entry m = m.withMemory memory ∧
      memory.places = m.memory.places ∧ Chain.Linked memory proxy nodes entry ∧
      x.Stands code (m.withMemory memory) := by
  obtain ⟨apart, first⟩ := s.cells_apart
  obtain ⟨memory, linked, places, leads, outside⟩ := Chain.link_spec nodes proxy entry m
    (once.imp_of_mem fun ma mb other => apart _ (sub _ ma) _ (sub _ mb) other)
    fun n mn => first proxy hp n (sub n mn)
  refine ⟨memory, linked, places, leads, s.filled _ (fun t mt => ?_) places outside⟩
  rcases List.mem_cons.mp mt with rfl | mt
  · exact Or.inl hp
  · obtain ⟨n, mn, rfl⟩ := List.mem_map.mp mt
    exact Or.inr ⟨n, sub n mn, rfl⟩

/-- Pointing the last trampoline at another entry moves the end of the chain. -/
theorem retail (s : x.Stands code m) (hp : x.proxy = some proxy) (sub : ∀ n ∈ nodes, n ∈ x.kept)
    (once : nodes.Nodup) {tail : ChainNode} (last : nodes.getLast? = some tail) (entry' : Nat)
    (h : Chain.Linked m.memory proxy nodes entry) :
    Chain.Linked (tail.trampoline.retarget entry' m).memory proxy nodes entry' ∧
      x.Stands code (tail.trampoline.retarget entry' m) := by
  obtain ⟨apart, first⟩ := s.cells_apart
  obtain ⟨memory, filled, places, word, beside⟩ :=
    Chain.retarget_spec tail.trampoline entry' m
  have mt := sub tail (List.mem_of_getLast? last)
  have start : Chain.start entry' nodes = Chain.start entry nodes := by
    cases nodes with
    | nil => cases last
    | cons => rfl
  rw [filled]
  refine ⟨⟨?_, h.2.retail last word (fun n mn other => ?_) once⟩, ?_⟩
  · rw [start, ← h.1]
    exact Chain.word_beside ((first proxy hp tail mt).symm.imp id id) beside
  · exact Chain.word_beside (apart tail mt n (sub n mn) (Ne.symm other)) beside
  · refine s.filled [tail.trampoline] (fun t mt' => ?_) places fun a out => ?_
    · obtain rfl := List.mem_singleton.mp mt'
      exact Or.inr ⟨tail, mt, rfl⟩
    · exact beside a (out _ (List.mem_singleton_self _))

end Stands

end Rig

end Detouring
