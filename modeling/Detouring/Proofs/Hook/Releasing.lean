-- Hooks that nobody uses any more give their trampolines back, each of them once. What the chain
-- and the handles of hooks still need is kept.
import Detouring.Proofs.Hook.Upkeep

namespace Detouring.World

open Machine

variable {k : ChainKey} {code : Set Nat} {kept nodes : List ChainNode} {c : Chain}
  {w w' : World} {node : ChainNode}

theorem patched?_eq (h : w.chain? k = some c) : w.patched? k = w.patchOf c := by
  unfold patched?
  rw [h]
  rfl

theorem Turns.patched? {c' : Chain} (t : Turns k w w' c') (here : w.chain? k = some c)
    (root : c'.root = c.root) : w'.patched? k = w.patched? k :=
  (patched?_eq t.chain).trans ((t.patchOf root).trans (patched?_eq here).symm)

/-- Spared stubs stay linked. -/
theorem LinkedUp.spared (o : InOrder k code kept c w) (l : LinkedUp w c)
    (blocks : ∀ b ∈ (w.rig c kept).stubBlocks, ∀ a, b.Has a →
      w'.machine.memory.bytes a = w.machine.memory.bytes a)
    (same : w'.patchOf c = w.patchOf c) : LinkedUp w' c := by
  intro r hr
  obtain ⟨proxy, entry, hp, callable, order, many, leads⟩ := l r (same ▸ hr)
  refine ⟨proxy, entry, hp, callable, order, many, o.stands.linked blocks hp (fun n mn => ?_) leads⟩
  exact o.booked.nodes n (List.mem_append_left _ (Chain.Books.mem_nodesOf mn))

/-- A hook is given up that neither the chain nor a handle has. -/
theorem Booked.giveUp {rest : List ChainNode} (b : Booked k kept c w)
    (perm : kept.Perm (node :: rest)) (loose : ¬ c.keeps node.id = true)
    (unused : w.hook? k.manager node.id = none) : Booked k rest c w := by
  have others {n : ChainNode} (mn : n ∈ kept) (other : n.id ≠ node.id) : n ∈ rest := by
    rcases List.mem_cons.mp (perm.mem_iff.mp mn) with rfl | mn
    · exact (other rfl).elim
    · exact mn
  have sub {n : ChainNode} (mn : n ∈ rest) : n ∈ kept :=
    perm.mem_iff.mpr (List.mem_cons_of_mem node mn)
  refine { b with
    nodes := fun n mn => others (b.nodes n mn) fun same => loose ?_
    handles := fun h mh key => others (b.handles h mh key) fun same => ?_
    ids := (List.nodup_cons.mp ((perm.map ChainNode.id).nodup_iff.mp b.ids)).2
    below := fun m found n mn => b.below m found n (sub mn)
    words := fun n mn => b.words n (sub mn) }
  · unfold Chain.keeps
    rw [Bool.or_eq_true, List.any_eq_true, List.any_eq_true]
    rcases List.mem_append.mp mn with mn | mn
    · exact Or.inl ⟨n, mn, by simp [same]⟩
    · exact Or.inr ⟨n, mn, by simp [same]⟩
  · have := List.find?_eq_none.mp unused h mh
    rw [key, same] at this
    simp at this

theorem releaseNode_beside (k : ChainKey) (node : ChainNode) (w : World) :
    w.Beside (releaseNode k node w) := by
  unfold releaseNode
  split
  · exact (Quiet.refl w).toBeside
  · exact w.beside_machine _

/-- The other hooks are kept. -/
theorem Steady.releaseNode (o : Steady k code kept c w) (mn : node ∈ kept) :
    ∃ kept', Steady k code kept' c (releaseNode k node w) ∧ ∀ n ∈ kept, n ≠ node → n ∈ kept' := by
  have beside := releaseNode_beside k node w
  unfold World.releaseNode at beside ⊢
  split at beside <;> rename_i needed
  · rw [if_pos needed]
    exact ⟨kept, o, fun n mn _ => mn⟩
  · rw [if_neg needed]
    rw [o.booked.chain, Bool.or_eq_true, not_or, Option.any_some] at needed
    obtain ⟨unused, loose⟩ := needed
    obtain ⟨before, later, rfl⟩ := List.append_of_mem mn
    have perm : (before ++ node :: later).Perm (node :: (before ++ later)) := List.perm_middle
    obtain ⟨stands, bytes⟩ := o.stands.release perm
    have booked := o.booked.giveUp perm loose (by simpa using unused)
    have order : InOrder k code (before ++ later) c w :=
      ⟨booked, o.stands.narrow (perm.symm.subperm_left.mp (List.sublist_cons_self _ _).subperm),
        o.leads, o.idle⟩
    refine ⟨before ++ later, ⟨order.beside beside stands, o.linked.beside beside bytes⟩, ?_⟩
    intro n mn other
    rcases List.mem_cons.mp (perm.mem_iff.mp mn) with rfl | mn
    · exact (other rfl).elim
    · exact mn

theorem releaseNodes_beside (k : ChainKey) (nodes : List ChainNode) (w : World) :
    w.Beside (releaseNodes k nodes w) := by
  induction nodes generalizing w with
  | nil => exact (Quiet.refl w).toBeside
  | cons node rest ih => exact (releaseNode_beside k node w).trans (ih _)

theorem Steady.releaseNodes (o : Steady k code kept c w) (mem : ∀ n ∈ nodes, n ∈ kept)
    (once : nodes.Nodup) :
    ∃ kept', Steady k code kept' c (releaseNodes k nodes w) ∧
      ∀ n ∈ kept, n ∉ nodes → n ∈ kept' := by
  induction nodes generalizing w kept with
  | nil => exact ⟨kept, o, fun n mn _ => mn⟩
  | cons node rest ih =>
    obtain ⟨new, once⟩ := List.nodup_cons.mp once
    obtain ⟨kept₁, o₁, others⟩ := o.releaseNode (mem node List.mem_cons_self)
    have later (n : ChainNode) (mn : n ∈ rest) : n ∈ kept₁ :=
      others n (mem n (List.mem_cons_of_mem node mn)) fun same => new (same ▸ mn)
    obtain ⟨kept₂, o₂, left⟩ := ih o₁ later once
    refine ⟨kept₂, o₂, fun n mn out => ?_⟩
    obtain ⟨other, out⟩ := not_or.mp (List.mem_cons.not.mp out)
    exact left n (others n mn other) out

end Detouring.World
