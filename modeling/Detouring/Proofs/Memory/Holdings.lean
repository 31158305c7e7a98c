-- What a user holds of a machine: blocks that were handed out, none of them twice. Taking more,
-- giving back and writing inside a block leave the other blocks as they are, and so the code
-- of others.
import Detouring.Proofs.Memory.Ownership
import Detouring.Proofs.Operation
import Mathlib.Data.List.Perm.Subperm

namespace Detouring.Machine

variable {m m' m'' : Machine} {K L new more : List Block} {b c : Block} {r : BlockRequest} {x : Nat}

structure Holds (m : Machine) (K : List Block) : Prop where
  nodup : K.Nodup
  sound : ∃ live, m.Sound live ∧ ∀ b ∈ K, b ∈ live

/-- The blocks keep their bytes, and what is foreign stays foreign and as protected as it was. -/
structure Spares (K : List Block) (m m' : Machine) : Prop where
  blocks : ∀ b ∈ K, ∀ x, b.Has x → m'.memory.bytes x = m.memory.bytes x
  foreign : ∀ x, m.Foreign x → m'.Foreign x
  guards : ∀ x, m.Foreign x → m'.memory.protectionAt? x = m.memory.protectionAt? x

/-- The user holds new blocks besides `K`. Nothing was done to `K` or to foreign bytes. -/
structure Gains (K new : List Block) (m m' : Machine) : Prop extends Spares K m m' where
  holds : m'.Holds (new ++ K)
  code : ∀ x, m.Foreign x → m'.memory.bytes x = m.memory.bytes x

/-! ## Blocks that are held -/

namespace Holds

theorem mono (h : m.Holds K) (sub : L.Subperm K) : m.Holds L := by
  obtain ⟨L', perm, sublist⟩ := sub
  obtain ⟨live, s, held⟩ := h.sound
  exact ⟨perm.nodup_iff.mp (h.nodup.sublist sublist), live, s, fun b mb =>
    held b (sublist.subset (perm.mem_iff.mpr mb))⟩

theorem regular (h : m.Holds K) : m.memory.Regular := by
  obtain ⟨_, s, _⟩ := h.sound
  exact s.regular

theorem mapped (h : m.Holds K) (mb : b ∈ K) (has : b.Has x) : m.memory.isMapped x = true := by
  obtain ⟨_, s, held⟩ := h.sound
  exact (s.owned (held b mb) has).1

theorem filled (h : m.Holds K) (mb : b ∈ K) : 0 < b.size := by
  obtain ⟨_, s, held⟩ := h.sound
  obtain ⟨_, _, _, _, _, _, filled⟩ := s.books.home b (held b mb)
  exact filled

theorem not_foreign (h : m.Holds K) (mb : b ∈ K) (has : b.Has x) : ¬ m.Foreign x := by
  obtain ⟨_, s, held⟩ := h.sound
  exact s.not_foreign (held b mb) has

theorem beside (h : m.Holds K) (mb : b ∈ K) (mc : c ∈ K) (other : b ≠ c) :
    b.base + b.size ≤ c.base ∨ c.base + c.size ≤ b.base := by
  obtain ⟨_, s, held⟩ := h.sound
  exact s.books.apart b (held b mb) c (held c mc) other

/-- Two blocks that are held share no byte. -/
theorem apart (h : m.Holds K) (mb : b ∈ K) (mc : c ∈ K) (other : b ≠ c) (has : b.Has x) :
    ¬ c.Has x := by
  have := h.beside mb mc other
  unfold Block.Has at *
  omega

theorem withMemory (h : m.Holds K) {memory : Memory} (same : memory.places = m.memory.places) :
    (m.withMemory memory).Holds K := by
  obtain ⟨live, s, held⟩ := h.sound
  exact ⟨h.nodup, live, s.withMemory same, held⟩

theorem of_arena (h : m.Holds K) (same : m'.arena = m.arena) : m'.Holds K := by
  obtain ⟨live, s, held⟩ := h.sound
  exact ⟨h.nodup, live, s.of_arena same, held⟩

end Holds

/-! ## Leaving things alone -/

theorem Spares.trans (h : Spares K m m') (h' : Spares K m' m'') : Spares K m m'' :=
  ⟨fun b mb x has => (h'.blocks b mb x has).trans (h.blocks b mb x has),
    fun x f => h'.foreign x (h.foreign x f),
    fun x f => (h'.guards x (h.foreign x f)).trans (h.guards x f)⟩

theorem Spares.mono (h : Spares K m m') (sub : L ⊆ K) : Spares L m m' :=
  ⟨fun b mb => h.blocks b (sub mb), h.foreign, h.guards⟩

/-- Of the machine only the arena counts. -/
theorem Spares.to_arena (h : Spares K m m') (same : m''.arena = m'.arena) : Spares K m m'' := by
  obtain ⟨a, log⟩ := m'
  obtain ⟨a', log'⟩ := m''
  cases same
  exact ⟨h.blocks, h.foreign, h.guards⟩

namespace Gains

theorem refl (h : m.Holds K) : Gains K [] m m := by
  refine ⟨⟨?_, ?_, ?_⟩, h, ?_⟩ <;> intros <;> first | rfl | assumption

theorem of_arena (h : m.Holds K) (same : m'.arena = m.arena) : Gains K [] m m' := by
  have kept := h.of_arena same
  obtain ⟨a, log⟩ := m
  obtain ⟨a', log'⟩ := m'
  cases same
  refine ⟨⟨?_, ?_, ?_⟩, kept, ?_⟩ <;> intros <;> first | rfl | assumption

/-- Whatever was gained at first, what counts is what is held in the end. -/
theorem trans (h : Gains K new m m') (h' : Gains K more m' m'') : Gains K more m m'' :=
  ⟨h.toSpares.trans h'.toSpares, h'.holds, fun x f =>
    (h'.code x (h.foreign x f)).trans (h.code x f)⟩

/-- What was held besides `K` counts as gained. -/
theorem below (h : Gains (L ++ K) new m m') : Gains K (new ++ L) m m' :=
  ⟨h.toSpares.mono (List.subset_append_right _ _), by
    rw [List.append_assoc]
    exact h.holds, h.code⟩

/-- Some of what was gained need not be counted. -/
theorem mono (h : Gains K new m m') (sub : more.Sublist new) : Gains K more m m' :=
  { h with holds := h.holds.mono (sub.append (List.Sublist.refl K)).subperm }

/-- A move that keeps what was mapped is no harm. -/
theorem of_extends (e : m.Extends m') (h : m.Holds K) (holds : m'.Holds (new ++ K)) :
    Gains K new m m' :=
  ⟨⟨fun _ mb _ has => e.bytes _ (h.mapped mb has), e.foreign, fun x f => e.guards x f.1⟩, holds,
    fun x f => e.bytes x f.1⟩

theorem of_hands {live : Set Block} (held : ∀ b ∈ K, b ∈ live) (h : m.Holds K)
    (hands : m.Hands live r b m') : Gains K [b] m m' := by
  refine of_extends hands.keeps h ⟨List.nodup_cons.mpr ⟨?_, h.nodup⟩, _, hands.sound, ?_⟩
  · exact fun mb => hands.new (held b mb)
  · intro c mc
    rcases List.mem_cons.mp mc with rfl | mc
    · exact Set.mem_insert _ _
    · exact Set.mem_insert_of_mem _ (held c mc)

end Gains

/-! ## Moves -/

/-- Giving a block back changes no byte. -/
theorem bytes_free (m : Machine) (b : Block) : (m.free b).memory.bytes = m.memory.bytes := by
  show (m.arena.free b).1.source.memory.bytes = _
  unfold Arena.free
  split
  · rfl
  · dsimp only
    split
    · rw [Arena.fst_releasePage]
      rfl
    · rfl

namespace Holds

theorem allocate (h : m.Holds K) (r : BlockRequest) :
    (Machine.allocate r).Ends m (fun b m' => Gains K [b] m m' ∧ b.size = r.size)
      (Gains K [] m) := by
  obtain ⟨live, s, held⟩ := h.sound
  refine Op.Ends.of_on rfl (fun b ok => ?_) fun e error => ?_
  · obtain ⟨_, same, _⟩ | ⟨b', same, hands⟩ := s.allocate (r := r) (m := m) rfl
    · cases ok.symm.trans same
    · cases ok.symm.trans same
      exact ⟨.of_hands held h hands, hands.size⟩
  · obtain ⟨_, _, s', keeps⟩ | ⟨b', same, _⟩ := s.allocate (r := r) (m := m) rfl
    · exact .of_extends keeps h ⟨h.nodup, live, s', held⟩
    · cases error.symm.trans same

theorem allocateNear (h : m.Holds K) (w : Window) (r : BlockRequest) :
    (Machine.allocateNear w r).Ends m (fun b m' => Gains K [b] m m' ∧ b.size = r.size)
      (Gains K [] m) := by
  obtain ⟨live, s, held⟩ := h.sound
  refine Op.Ends.of_on rfl (fun b ok => ?_) fun e error => ?_
  · obtain ⟨_, same, _⟩ | ⟨b', same, hands, _⟩ := s.allocateNear (w := w) (r := r) (m := m) rfl
    · cases ok.symm.trans same
    · cases ok.symm.trans same
      exact ⟨.of_hands held h hands, hands.size⟩
  · obtain ⟨_, _, s', keeps, _⟩ | ⟨b', same, _⟩ :=
      s.allocateNear (w := w) (r := r) (m := m) rfl
    · exact .of_extends keeps h ⟨h.nodup, live, s', held⟩
    · cases error.symm.trans same

theorem free (h : m.Holds (b :: K)) : Gains K [] m (m.free b) := by
  have bytes := m.bytes_free b
  obtain ⟨live, s, held⟩ := h.sound
  obtain ⟨s', _, _, foreign⟩ := s.free (held b List.mem_cons_self)
  obtain ⟨new, nodup⟩ := List.nodup_cons.mp h.nodup
  refine ⟨⟨fun _ _ x _ => congrFun bytes x, fun x f => (foreign x f).1,
    fun x f => (foreign x f).2⟩, ⟨nodup, _, s', fun c mc => ?_⟩,
    fun x _ => congrFun bytes x⟩
  exact ⟨held c (List.mem_cons_of_mem b mc), fun same => new (same ▸ mc)⟩

theorem freeAll (h : m.Holds (L ++ K)) : Gains K [] m (m.freeAll L) := by
  induction L generalizing m with
  | nil => exact .refl h
  | cons b rest ih =>
    have freed : Gains (rest ++ K) [] m (m.free b) := h.free
    exact (freed.below.mono (List.nil_sublist _)).trans (ih freed.holds)

/-- Writing inside a block leaves the other blocks alone. -/
theorem write (h : m.Holds (b :: K)) {offset : Nat} {data : List UInt8}
    (inside : offset + data.length ≤ b.size) : Gains K [b] m (m.write (b.base + offset) data) := by
  have beside (x : Nat) (out : ¬ b.Has x) :
      (m.write (b.base + offset) data).memory.bytes x = m.memory.bytes x := by
    refine Memory.bytes_write_outside _ _ _ _ ?_
    unfold Block.Has at out
    omega
  refine ⟨⟨fun c mc x has => beside x ?_, fun x f => ?_, fun _ _ => rfl⟩, h.withMemory rfl,
    fun x f => beside x ?_⟩
  · have other : c ≠ b := fun same => (List.nodup_cons.mp h.nodup).1 (same ▸ mc)
    exact h.apart (List.mem_cons_of_mem b mc) List.mem_cons_self other has
  · exact (foreign_withMemory rfl x).mpr f
  · exact fun has => h.not_foreign List.mem_cons_self has f

theorem writeBlock (h : m.Holds (b :: K)) {offset : Nat} {data : List UInt8}
    (inside : offset + data.length ≤ b.size) {E : Machine → Prop} :
    (Machine.writeBlock b offset data).Ends m
      (fun _ m' => Gains K [b] m m' ∧ m' = m.write (b.base + offset) data) E := by
  have run : (Machine.writeBlock b offset data).on m =
      (.ok (), m.write (b.base + offset) data) := by
    simp only [Machine.writeBlock, Block.checkWrite, Op.on_of, Nat.not_lt.mpr inside, if_false]
  refine Op.Ends.of_on run (fun _ _ => ⟨h.write inside, rfl⟩) fun e error => ?_
  cases error

end Holds

end Detouring.Machine
