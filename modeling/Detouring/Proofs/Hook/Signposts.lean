-- Stubs that were put up. Each has a block of its own and stands in memory. Pointing one of them
-- elsewhere changes where that one leads and nothing else; linking hooks points stubs at these hooks
-- and at the code behind them, and telling a chain that its method has moved points one stub at the
-- replaced code.
import Detouring.Proofs.Detour.Resolving
import Detouring.Proofs.Hook.Links

namespace Detouring

namespace Machine

variable {m m' m'' : Machine} {stubs rest : List Stub} {K L : List Block} {goals : Set Nat}
  {s : Stub} {nodes : List ChainNode} {proxy : Stub} {entry : Nat}

/-- The stubs stand, and their blocks are held besides `K`. -/
structure Posts (m : Machine) (stubs : List Stub) (K : List Block) : Prop where
  holds : m.Holds (stubs.map Stub.block ++ K)
  stands : ∀ s ∈ stubs, s.Stands m.memory

/-- Stubs were pointed elsewhere: each of them leads where it led, or to one of `goals`. -/
structure Pointed (stubs : List Stub) (K : List Block) (goals : Set Nat) (m m' : Machine) : Prop
    extends Spares K m m' where
  posts : m'.Posts stubs K
  leads : ∀ s ∈ stubs, s.target m' = s.target m ∨ s.target m' ∈ goals
  code : ∀ x, m.Foreign x → m'.memory.bytes x = m.memory.bytes x

namespace Posts

theorem mem_blocks (ms : s ∈ stubs) : s.block ∈ stubs.map Stub.block := List.mem_map_of_mem ms

theorem mem (ms : s ∈ stubs) : s.block ∈ stubs.map Stub.block ++ K :=
  List.mem_append_left _ (mem_blocks ms)

/-! ## Moves that leave the stubs alone -/

theorem spared (p : m.Posts stubs K) (spares : Spares (stubs.map Stub.block) m m')
    (holds : m'.Holds (stubs.map Stub.block ++ L)) : m'.Posts stubs L :=
  ⟨holds, fun s ms => (p.stands s ms).congr (spares.blocks _ (mem_blocks ms))⟩

theorem gains {new : List Block} (p : m.Posts stubs K)
    (gains : Gains (stubs.map Stub.block ++ K) new m m') : m'.Posts stubs K :=
  p.spared (gains.toSpares.mono (List.subset_append_left _ _))
    (gains.holds.mono (List.sublist_append_right _ _).subperm)

/-- A stub whose block is spared leads where it led. -/
theorem target_eq (p : m.Posts stubs K) (ms : s ∈ stubs)
    (spares : Spares (stubs.map Stub.block) m m') : s.target m' = s.target m :=
  (p.stands s ms).word_congr (spares.blocks _ (mem_blocks ms))

theorem target_gains {new : List Block} (p : m.Posts stubs K) (ms : s ∈ stubs)
    (gains : Gains (stubs.map Stub.block ++ K) new m m') : s.target m' = s.target m :=
  p.target_eq ms (gains.toSpares.mono (List.subset_append_left _ _))

theorem of_arena (p : m.Posts stubs K) (same : m'.arena = m.arena) : m'.Posts stubs K :=
  p.gains (.of_arena p.holds same)

/-- Other blocks may be counted. -/
theorem recount (p : m.Posts stubs K) (sub : (stubs.map Stub.block ++ L).Subperm
    (stubs.map Stub.block ++ K)) : m.Posts stubs L :=
  ⟨p.holds.mono sub, p.stands⟩

/-! ## Putting up and taking down -/

theorem putUp (p : m.Posts stubs K) (gains : Gains (stubs.map Stub.block ++ K) [s.block] m m')
    (stands : s.Stands m'.memory) : m'.Posts (s :: stubs) K := by
  refine ⟨gains.holds, fun t mt => ?_⟩
  rcases List.mem_cons.mp mt with rfl | mt
  · exact stands
  · exact (p.gains gains).stands t mt

theorem perm (p : m.Posts stubs K) (perm : stubs.Perm rest) : m.Posts rest K :=
  ⟨p.holds.mono ((perm.map Stub.block).append_right K).symm.subperm,
    fun t mt => p.stands t (perm.mem_iff.mpr mt)⟩

/-- A stub is taken down. The others stay, and no byte changes. -/
theorem takeDown (p : m.Posts (s :: rest) K) :
    (m.free s.block).Posts rest K ∧ (m.free s.block).memory.bytes = m.memory.bytes ∧
      ∀ x, m.Foreign x → (m.free s.block).Foreign x := by
  have freed : Gains (rest.map Stub.block ++ K) [] m (m.free s.block) := p.holds.free
  have bytes := m.bytes_free s.block
  refine ⟨⟨freed.holds, fun t mt => ?_⟩, bytes, freed.foreign⟩
  exact (p.stands t (List.mem_cons_of_mem s mt)).congr fun x _ => congrFun bytes x

end Posts

/-! ## Pointing -/

namespace Pointed

theorem refl (p : m.Posts stubs K) : Pointed stubs K goals m m :=
  ⟨⟨fun _ _ _ _ => rfl, fun _ f => f, fun _ _ => rfl⟩, p, fun _ _ => Or.inl rfl, fun _ _ => rfl⟩

theorem of_arena (p : m.Posts stubs K) (same : m'.arena = m.arena) :
    Pointed stubs K goals m m' := by
  have still : Gains (stubs.map Stub.block ++ K) [] m m' := .of_arena p.holds same
  exact ⟨still.toSpares.mono (List.subset_append_right _ _), p.of_arena same,
    fun s ms => Or.inl (p.target_gains ms still), still.code⟩

theorem trans (h : Pointed stubs K goals m m') (h' : Pointed stubs K goals m' m'') :
    Pointed stubs K goals m m'' := by
  refine ⟨h.toSpares.trans h'.toSpares, h'.posts, fun s ms => ?_, fun x f =>
    (h'.code x (h.foreign x f)).trans (h.code x f)⟩
  rcases h'.leads s ms with same | there
  · rw [same]
    exact h.leads s ms
  · exact Or.inr there

end Pointed

namespace Posts

/-- One stub is pointed at a target. -/
theorem retarget (p : m.Posts stubs K) (ms : s ∈ stubs) {target : Nat}
    (goal : target % wordCount ∈ goals) :
    ∃ memory, s.retarget target m = m.withMemory memory ∧ memory.places = m.memory.places ∧
      memory.word s.cell = target % wordCount ∧ Pointed stubs K goals m (m.withMemory memory) := by
  have stands := p.stands s ms
  have word : (m.memory.writeWord s.cell target).word s.cell = target % wordCount :=
    Memory.word_writeWord _ _ _
  have inside : s.cellOffset + (leBytes 8 target).length ≤ s.block.size := by
    rw [stands.size, stands.offset, length_leBytes]
  have front : m.Holds (s.block :: ((stubs.map Stub.block).erase s.block ++ K)) :=
    p.holds.mono ((List.perm_cons_erase (mem_blocks ms)).append_right K).symm.subperm
  have written : Gains ((stubs.map Stub.block).erase s.block ++ K) [s.block] m
      (m.withMemory (m.memory.writeWord s.cell target)) := front.write inside
  -- A stub with the same block is the same stub.
  have other {t : Stub} (mt : t ∈ stubs) : t = s ∨
      ∀ x, t.block.Has x → (m.memory.writeWord s.cell target).bytes x = m.memory.bytes x := by
    by_cases same : t.block = s.block
    · have offset := (p.stands t mt).offset.trans stands.offset.symm
      obtain ⟨block, cellOffset⟩ := t
      exact Or.inl (by rw [show block = s.block from same, show cellOffset = _ from offset])
    · refine Or.inr (written.blocks _ (List.mem_append_left _ ?_))
      exact (List.mem_erase_of_ne same).mpr (mem_blocks mt)
  refine ⟨_, rfl, rfl, word, written.toSpares.mono (List.subset_append_right _ _),
    ⟨p.holds.withMemory rfl, fun t mt => ?_⟩, fun t mt => ?_, written.code⟩
  · rcases other mt with rfl | same
    · exact stands.writeWord target
    · exact (p.stands t mt).congr same
  · rcases other mt with rfl | same
    · exact Or.inr (Set.mem_of_eq_of_mem word goal)
    · exact Or.inl ((p.stands t mt).word_congr same)

/-- Linking hooks points each trampoline at the hook after it or at `entry`. -/
theorem linkNodes (p : m.Posts stubs K) (sub : ∀ n ∈ nodes, n.trampoline ∈ stubs)
    (goal : ∀ a ∈ entry :: nodes.map ChainNode.target, a % wordCount ∈ goals) :
    ∃ memory, (Chain.linkNodes entry nodes m).1 = m.withMemory memory ∧
      memory.places = m.memory.places ∧ Pointed stubs K goals m (m.withMemory memory) := by
  induction nodes with
  | nil => exact ⟨m.memory, rfl, rfl, .refl p⟩
  | cons node rest ih =>
    obtain ⟨memory, linked, places, pointed⟩ := ih (fun n mn => sub n (List.mem_cons_of_mem node mn))
      fun a ma => goal a (by simp only [List.mem_cons, List.map_cons] at ma ⊢; tauto)
    have next := Chain.snd_linkNodes entry rest m
    rcases run : Chain.linkNodes entry rest m with ⟨m₁, target⟩
    rw [run] at linked next
    dsimp only at linked next
    subst linked
    have there : target % wordCount ∈ goals := by
      refine goal target ?_
      rw [next]
      cases rest with
      | nil => exact List.mem_cons_self
      | cons next later => simp
    obtain ⟨memory', filled, places', _, pointed'⟩ :=
      pointed.posts.retarget (sub node List.mem_cons_self) there
    refine ⟨memory', ?_, places'.trans places, pointed.trans pointed'⟩
    simp only [Chain.linkNodes, run]
    exact filled

/-- Then the proxy is pointed at the first hook. -/
theorem link (p : m.Posts stubs K) (sub : ∀ n ∈ nodes, n.trampoline ∈ stubs) (front : proxy ∈ stubs)
    (goal : ∀ a ∈ entry :: nodes.map ChainNode.target, a % wordCount ∈ goals) :
    ∃ memory, Chain.link nodes proxy entry m = m.withMemory memory ∧
      memory.places = m.memory.places ∧ memory.word proxy.cell = Chain.start entry nodes % wordCount ∧
      Pointed stubs K goals m (m.withMemory memory) := by
  obtain ⟨memory, linked, places, pointed⟩ := p.linkNodes sub goal
  have first := Chain.snd_linkNodes entry nodes m
  rcases run : Chain.linkNodes entry nodes m with ⟨m₁, target⟩
  rw [run] at linked first
  dsimp only at linked first
  subst linked
  have there : target % wordCount ∈ goals := by
    refine goal target ?_
    rw [first]
    cases nodes with
    | nil => exact List.mem_cons_self
    | cons node rest => simp
  obtain ⟨memory', filled, places', word, pointed'⟩ := pointed.posts.retarget front there
  refine ⟨memory', ?_, places'.trans places, ?_, pointed.trans pointed'⟩
  · simp only [Chain.link, run]
    exact filled
  · rw [word, first]
    rfl

/-- Stubs that were put up have cells of their own. -/
theorem apart (p : m.Posts stubs K) {t : Stub} (ms : s ∈ stubs) (mt : t ∈ stubs) (other : s ≠ t) :
    s.Apart t := by
  have sizes := (p.stands s ms).size
  have offsets := (p.stands s ms).offset
  have sizet := (p.stands t mt).size
  have offsett := (p.stands t mt).offset
  have blocks : s.block ≠ t.block := fun same => other <| by
    obtain ⟨block, cellOffset⟩ := s
    obtain ⟨block', cellOffset'⟩ := t
    cases same
    rw [show cellOffset = cellOffset' from offsets.trans offsett.symm]
  have := p.holds.beside (mem ms) (mem mt) blocks
  unfold Stub.Apart Stub.cell
  omega

/-- Hooks that were linked are linked, and all other stubs lead where they led. -/
theorem linked {memory : Memory} (p : m.Posts stubs K) (sub : ∀ n ∈ nodes, n.trampoline ∈ stubs)
    (front : proxy ∈ stubs) (once : nodes.Pairwise fun a b => a.trampoline ≠ b.trampoline)
    (first : ∀ n ∈ nodes, proxy ≠ n.trampoline)
    (link : Chain.link nodes proxy entry m = m.withMemory memory) :
    Chain.Linked memory proxy nodes entry ∧
      ∀ t ∈ stubs, t ≠ proxy → (∀ n ∈ nodes, t ≠ n.trampoline) →
        t.target (m.withMemory memory) = t.target m := by
  obtain ⟨memory', same, _, leads, outside⟩ := Chain.link_spec nodes proxy entry m
    (once.imp_of_mem fun ma mb other => p.apart (sub _ ma) (sub _ mb) other)
    fun n mn => p.apart front (sub n mn) (first n mn)
  obtain rfl : memory = memory' := congrArg Machine.memory (link.symm.trans same)
  refine ⟨leads, fun t mt aside others => Memory.word_congr fun i hi => outside _ fun s ms => ?_⟩
  have beside : t.Apart s := by
    rcases List.mem_cons.mp ms with rfl | ms
    · exact p.apart mt front aside
    · obtain ⟨n, mn, rfl⟩ := List.mem_map.mp ms
      exact p.apart mt (sub n mn) (others n mn)
  unfold Stub.Apart at beside
  omega

end Posts

end Machine

namespace World

open Op Machine

variable {w : World} {k : ChainKey} {stubs : List Stub} {K : List Block} {goals : Set Nat}

/-! ## Telling a chain -/

/-- The last trampoline of a chain is pointed at replaced code, or nothing happens. -/
theorem relinkTail_points (posts : w.machine.Posts stubs K)
    (sub : ∀ c, w.chain? k = some c → ∀ n ∈ c.nodes, n.trampoline ∈ stubs)
    (goal : ∀ d ∈ w.detours, ∀ entry, d.alternateEntry? = some entry →
      entry % wordCount ∈ goals) :
    (relinkTail k).Ends w
      (fun _ w' => w.Beside w' ∧ w'.machine.arena.pages = w.machine.arena.pages ∧
        Pointed stubs K goals w.machine w'.machine) (fun w' => w' = w) := by
  have same : w.Beside w ∧ w.machine.arena.pages = w.machine.arena.pages ∧
      Pointed stubs K goals w.machine w.machine :=
    ⟨(Quiet.refl w).toBeside, rfl, .refl posts⟩
  apply Ends.bind
  apply Ends.get
  split
  · exact Ends.pure same
  · rename_i c here
    split
    · exact Ends.pure same
    · rename_i root applied
      obtain ⟨found, _⟩ := Option.filter_eq_some_iff.mp applied
      obtain ⟨id, _, found⟩ := Option.bind_eq_some_iff.mp found
      split
      · exact Ends.throw rfl
      · rename_i entry callable
        split
        · rename_i tail last
          obtain ⟨id, _, last⟩ := Option.bind_eq_some_iff.mp last
          have mt : tail ∈ c.nodes := List.mem_of_find?_eq_some last
          obtain ⟨memory, filled, _, _, pointed⟩ := posts.retarget (sub c here tail mt)
            (goal root (List.mem_of_find?_eq_some found) entry callable)
          apply changeMachine_ends
          rw [filled]
          exact ⟨w.beside_machine _, rfl, pointed⟩
        · exact Ends.pure same

/-- Whoever is told that a detour has moved points at most one trampoline elsewhere. -/
theorem tellWatcher_points {watcher : Watcher} (posts : w.machine.Posts stubs K)
    (sub : ∀ key c, watcher = .chain key → w.chain? key = some c → ∀ n ∈ c.nodes,
      n.trampoline ∈ stubs)
    (goal : ∀ d ∈ w.detours, ∀ entry, d.alternateEntry? = some entry →
      entry % wordCount ∈ goals) {E : World → Prop} :
    (tellWatcher watcher).Ends w
      (fun _ w' => w.Beside w' ∧ w'.machine.arena.pages = w.machine.arena.pages ∧
        Pointed stubs K goals w.machine w'.machine) E := by
  have quiet {w' : World} (q : w.Quiet w') :
      w.Beside w' ∧ w'.machine.arena.pages = w.machine.arena.pages ∧
        Pointed stubs K goals w.machine w'.machine :=
    ⟨q.toBeside, congrArg Arena.pages q.arena, .of_arena posts q.arena⟩
  cases watcher with
  | nobody => exact Ends.pure (quiet (.refl w))
  | onlooker name => exact Ends.change (quiet (w.quiet_tell _))
  | chain key =>
    apply Ends.bind
    apply Ends.outcome
    apply (relinkTail_points posts (fun c here => sub key c rfl here) goal).mono
    · exact fun _ _ pointed => Ends.pure pointed
    · rintro _ rfl e
      exact report_ends fun _ q => quiet q

end World

end Detouring
