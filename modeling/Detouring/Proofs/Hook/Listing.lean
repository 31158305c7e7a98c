-- In which order a view lists the hooks of a method. Whatever was added, undone or dropped, and
-- whatever failed on the way: the view lists each hook that is there once, and where no hook names
-- another, the hooks stand by rank.
import Detouring.Proofs.Hook.Refiling
import Detouring.Proofs.Hook.Sessions

namespace Detouring.World

open Op

variable {k : ChainKey} {next : Nat} {w w' : World} {hooks : List ChainNode}

/-! ## Acts -/

/-- These hooks of the method are there, in the order in which they came. -/
def Lists (k : ChainKey) (hooks : List ChainNode) (w : World) : Prop :=
  ∃ next, OnFile k next (Shows hooks next) w

theorem Spares.lists {α : Type} {act : Op World α} (h : Spares k act)
    (l : Lists k hooks w) : act.Ends w (fun _ => Lists k hooks) (Lists k hooks) := by
  obtain ⟨next, o⟩ := l
  exact (h next _ w o).mono (fun _ _ o' => ⟨next, o'⟩) fun _ o' => ⟨next, o'⟩

/-- A chain without hooks. -/
theorem tidy_empty (m : Method) : Chain.Tidy { method := m } where
  books := ⟨List.Pairwise.nil, List.nodup_nil, fun n m => (by cases m),
    PlacementGraph.sound_empty, rfl⟩
  built := .nil
  plain n m := by cases m
  linked := List.Perm.refl _
  ahead := List.Pairwise.nil

theorem openChain_lists (l : Lists k hooks w) :
    (openChain k).Ends w (fun id w' => ∃ c, c.Tidy ∧ c.nodes = hooks ∧
      (∀ n ∈ c.nodes ++ c.retired, n.id < id) ∧ OnFile k (id + 1) (· = some c) w')
      (fun _ => False) := by
  obtain ⟨next, o⟩ := l
  obtain ⟨m, found, counted⟩ := o.counted
  refine (openChain_opens found).mono ?_ fun _ h => h
  rintro _ _ ⟨rfl, rfl⟩
  obtain ⟨m', found', later, _⟩ := manager?_opened found
  have opened (c : Chain) (here : (w.chain? k).getD { method := k.method } = c) :
      OnFile k (m.nextHook + 1) (· = some c) (w.opened k m) :=
    ⟨o.inHand, ⟨m', found', later.ge⟩, (chain?_opened found).trans (congrArg some here)⟩
  have shows := o.chain
  rcases here : w.chain? k with _ | c <;> rw [here] at shows
  · refine ⟨{ method := k.method }, tidy_empty _, ?_, fun n m => (by cases m),
      opened _ (here ▸ rfl)⟩
    exact (show hooks = [] from shows).symm
  · obtain ⟨tidy, nodes, below⟩ := shows
    exact ⟨c, tidy, nodes, fun n m => Nat.lt_of_lt_of_le (below n m) counted, opened _ (here ▸ rfl)⟩

theorem addHook_lists (l : Lists k hooks w) {source : Method} (name : w.nameOf source = k.method)
    (target : Nat) {placement : Option Placement}
    (plain : ∀ p, placement = some p → p.Plain) :
    (addHook k.manager source target placement).Ends w
      (fun h => Lists k (hooks ++ [{ h.node with target, placement }])) (Lists k hooks) := by
  obtain ⟨next, o⟩ := l
  apply Ends.bind
  refine (canonicalize_ends w source).mono ?_ fun _ h => h
  rintro _ w₁ ⟨rfl, quiet⟩
  rw [name]
  have l₁ : Lists k hooks w₁ := ⟨next, o.beside quiet.toBeside⟩
  split
  · exact Ends.throw l₁
  · apply Ends.bind
    refine (openChain_lists l₁).mono ?_ fun _ h => h.elim
    rintro id w₂ ⟨c, tidy, rfl, new, o₂⟩
    have shown {w' : World} (o' : OnFile k (id + 1) (· = some c) w') : Lists k c.nodes w' := by
      refine ⟨id + 1, o'.mono ?_⟩
      rintro _ rfl
      exact ⟨tidy, rfl, fun n m => Nat.lt_succ_of_lt (new n m)⟩
    apply Ends.bind
    refine (Spares.onMachine _ _ _ w₂ o₂).mono (fun trampoline w₃ o₃ => ?_) fun _ => shown
    apply Ends.bind
    refine (insertNode_lists tidy plain new (Nat.lt_succ_self id) o₃).mono
      (fun _ w₄ o₄ => ?_) fun _ o₄ => ⟨id + 1, o₄⟩
    apply Ends.bind
    apply Ends.change
    apply Ends.bind
    apply Ends.change
    exact Ends.pure ⟨id + 1, (o₄.congr rfl rfl)⟩

/-- The hooks that are left when a handle has been undone. -/
def left (hooks : List ChainNode) (h : Hook) : List ChainNode :=
  if h.applied then hooks.filter (·.id != h.node.id) else hooks

theorem undoHook_lists {h : Hook} (l : Lists h.chain hooks w) :
    (undoHook h).Ends w (fun _ => Lists h.chain (left hooks h))
      (Lists h.chain (left hooks h)) := by
  obtain ⟨next, o⟩ := l
  unfold undoHook left
  rcases h.applied
  · exact Ends.throw ⟨next, o⟩
  · apply Ends.bind
    apply Ends.change
    apply Ends.bind
    apply Ends.outcome
    apply (removeNode_lists (o.rehook _) h.node.id).mono
    · intro _ w₂ o₂
      exact ((Spares.tell _).bind fun _ => .lift _).lists ⟨next, o₂⟩
    · intro w₂ o₂ e
      exact ((Spares.tell _).bind fun _ => .lift _).lists ⟨next, o₂⟩

/-- The manager is in hand, so it is kept. -/
theorem dropManagerIfUnused_lists (l : Lists k hooks w) {E : World → Prop} :
    (dropManagerIfUnused k.manager).Ends w (fun _ => Lists k hooks) E := by
  obtain ⟨next, o⟩ := l
  apply Ends.bind
  apply Ends.get
  simp only [o.inHand]
  exact Ends.pure ⟨next, o⟩

theorem dropHook_lists {h : Hook} (l : Lists h.chain hooks w) :
    (dropHook h).Ends w (fun _ => Lists h.chain (left hooks h))
      (Lists h.chain (left hooks h)) := by
  have dropped {w₁ : World} (l₁ : Lists h.chain (left hooks h) w₁) :
      Ends (do
        Op.change fun w => { w with hooks := w.hooks.filter fun x =>
          x.chain.manager != h.chain.manager || x.node.id != h.node.id }
        Op.change (releaseNode h.chain h.node)
        dropManagerIfUnused h.chain.manager) w₁ (fun _ => Lists h.chain (left hooks h))
          (Lists h.chain (left hooks h)) := by
    obtain ⟨next, o⟩ := l₁
    apply Ends.bind
    apply Ends.change
    apply Ends.bind
    refine (Spares.releaseNode _ next _ _ (o.rehook _)).mono (fun _ w₃ o₃ => ?_)
      fun _ o₃ => ⟨next, o₃⟩
    exact dropManagerIfUnused_lists ⟨next, o₃⟩
  unfold dropHook
  rcases applied : h.applied
  · have same : left hooks h = hooks := by simp [left, applied]
    exact dropped (same.symm ▸ l)
  · apply Ends.bind
    apply Ends.outcome
    apply (undoHook_lists l).mono
    · intro _ w₁ l₁
      exact dropped l₁
    · intro w₁ l₁ e
      apply Ends.bind
      exact ((Spares.report _).lists l₁).mono (fun _ _ => dropped) fun _ h => h

/-! ## Runs -/

/-- The act is about the method, and it hooks it with no wishes about other hooks. -/
def Plainly (k : ChainKey) (w : World) : Act → Prop
  | .add source _ placement => w.nameOf source = k.method ∧ ∀ p, placement = some p → p.Plain
  | .undo h => h.chain = k
  | .drop h => h.chain = k
  | .notice _ => True

/-- The hooks that are there after an act. One that is accepted comes last, as it was asked for;
one that is refused is not among them, and one that is undone or dropped is gone, whatever the
answer. -/
def hooksAfter (k : ChainKey) (w : World) (hooks : List ChainNode) : Act → List ChainNode
  | .add source target placement =>
    match ((addHook k.manager source target placement).on w).1 with
    | .ok h => hooks ++ [{ h.node with target, placement }]
    | .error _ => hooks
  | .undo h => left hooks h
  | .drop h => left hooks h
  | .notice _ => hooks

/-- Others did something, which may be anything but a change of the manager in hand and of its hooks
of the method. -/
structure Elsewhere (k : ChainKey) (w w' : World) : Prop where
  inHand : w'.manager = w.manager
  chain : w'.chain? k = w.chain? k
  counter : ∀ m, w.manager? k.manager = some m →
    ∃ m', w'.manager? k.manager = some m' ∧ m.nextHook ≤ m'.nextHook

/-- What a run of acts comes to, and the hooks that are there, in the order in which they came. -/
inductive Roster (k : ChainKey) : World → List ChainNode → Prop where
  | start {w : World} (inHand : w.manager = some k.manager)
      (managed : (w.manager? k.manager).isSome) (unhooked : w.chain? k = none) : Roster k w []
  | act {w : World} {hooks : List ChainNode} (roster : Roster k w hooks) (a : Act)
      (plainly : Plainly k w a) : Roster k (w.after k.manager a) (w.hooksAfter k hooks a)
  | others {w w' : World} {hooks : List ChainNode} (roster : Roster k w hooks)
      (elsewhere : Elsewhere k w w') : Roster k w' hooks

theorem Lists.act (l : Lists k hooks w) (a : Act) (plainly : Plainly k w a) :
    Lists k (hooksAfter k w hooks a) (w.after k.manager a) := by
  cases a with
  | add source target placement =>
    obtain ⟨name, plain⟩ := plainly
    have added := addHook_lists l name target plain
    have same : w.after k.manager (.add source target placement)
        = ((addHook k.manager source target placement).on w).2 := by
      unfold World.after carryOut
      rw [on_bind]
      rcases (addHook k.manager source target placement).on w with ⟨_ | _, _⟩ <;> rfl
    rw [same]
    rcases added.run with ⟨h, ok, lists⟩ | ⟨e, refused, lists⟩
    · simpa only [hooksAfter, ok] using lists
    · simpa only [hooksAfter, refused] using lists
  | undo h =>
    obtain rfl := plainly
    exact left_of_ends (undoHook_lists l)
  | drop h =>
    obtain rfl := plainly
    exact left_of_ends (dropHook_lists l)
  | notice n => exact left_of_ends ((Spares.deliver n).lists l)

theorem Lists.others (l : Lists k hooks w) (e : Elsewhere k w w') : Lists k hooks w' := by
  obtain ⟨next, o⟩ := l
  obtain ⟨m, found, counted⟩ := o.counted
  obtain ⟨m', found', later⟩ := e.counter m found
  exact ⟨next, e.inHand.trans o.inHand, ⟨m', found', Nat.le_trans counted later⟩,
    e.chain ▸ o.chain⟩

theorem Roster.lists (roster : Roster k w hooks) : Lists k hooks w := by
  induction roster with
  | start inHand managed unhooked =>
    obtain ⟨m, found⟩ := Option.isSome_iff_exists.mp managed
    exact ⟨0, inHand, ⟨m, found, Nat.zero_le _⟩, unhooked.symm ▸ rfl⟩
  | act _ a plainly ih => exact ih.act a plainly
  | others _ elsewhere ih => exact ih.others elsewhere

/-! ## The law -/

/-- One of two hooks came before the other. -/
def Came (hooks : List ChainNode) (a b : ChainNode) : Prop := [a, b].Sublist hooks

/-- Whatever was added, undone and dropped, a view lists each hook that is there once. Those with a
priority stand first, the higher priority ahead, among equals the higher sub-priority, and among
equals of both the one that came later. Then come those that have a placement without a priority, as
they came, and in the end those without a placement, the last one first. -/
theorem the_hooks_are_listed_by_rank (roster : Roster k w hooks) {m : Method}
    (name : w.nameOf m = k.method) :
    ∃ view, ((viewChain k.manager m).on w).1 = .ok view ∧ view.hooks.Perm hooks ∧
      view.hooks.Pairwise (ChainNode.Ahead (Came hooks)) := by
  obtain ⟨next, o⟩ := roster.lists
  have shows := o.chain
  rcases (viewChain_ends (E := fun _ => False) name).run with ⟨view, ok, rfl⟩ | ⟨_, _, h⟩
  · refine ⟨_, ok, ?_⟩
    rcases here : w.chain? k with _ | c <;> rw [here] at shows
    · obtain rfl : hooks = [] := shows
      exact ⟨List.Perm.refl _, List.Pairwise.nil⟩
    · obtain ⟨tidy, rfl, _⟩ := shows
      refine ⟨tidy.linked, tidy.ahead.imp_of_mem fun {a b} ma mb ahead => ?_⟩
      have came {a b : ChainNode} (ma : a ∈ c.linkedNodes) (mb : b ∈ c.linkedNodes)
          (sooner : a.id < b.id) : Came c.nodes a b :=
        tidy.books.came (tidy.linked.mem_iff.mp ma) (tidy.linked.mem_iff.mp mb) sooner
      exact ahead.mono (came ma mb) (came mb ma)
  · exact h.elim

/-- Three more hooks of the function on the first page, the last two with one priority. -/
def fourHooks : World :=
  ((firstHook.after 0 (.add (.function 4096) 4104 (some { id := "a" }))).after 0
    (.add (.function 4096) 4108 (some { id := "b", priority := some 1 }))).after 0
      (.add (.function 4096) 4112 (some { id := "c", priority := some 1 }))

/-- The first one is undone. -/
theorem three_hooks_are_listed_by_rank : ∃ hooks view,
    Roster firstKey (fourHooks.after 0 (.undo firstHandle)) hooks ∧
      ((viewChain 0 (.function 4096)).on (fourHooks.after 0 (.undo firstHandle))).1 = .ok view ∧
        hooks.map ChainNode.id = [2, 3, 4] ∧ view.hooks.map ChainNode.id = [4, 3, 2] ∧
          view.hooks.Pairwise (ChainNode.Ahead (Came hooks)) := by
  have first : Roster firstKey firstHook _ := .act (.start rfl rfl rfl)
    (.add (.function 4096) 4100 none) ⟨rfl, fun p h => by cases h⟩
  have fourth := ((first.act (.add (.function 4096) 4104 (some { id := "a" }))
    ⟨by decide +kernel, by simp [Placement.Plain]⟩).act
      (.add (.function 4096) 4108 (some { id := "b", priority := some 1 }))
      ⟨by decide +kernel, by simp [Placement.Plain]⟩).act
        (.add (.function 4096) 4112 (some { id := "c", priority := some 1 }))
        ⟨by decide +kernel, by simp [Placement.Plain]⟩
  have roster := fourth.act (.undo firstHandle) rfl
  obtain ⟨view, ok, perm, ranked⟩ := the_hooks_are_listed_by_rank roster (m := .function 4096)
    (by decide +kernel)
  refine ⟨_, view, roster, ok, by decide +kernel, ?_, ranked⟩
  have ids : (match
      ((viewChain 0 (.function 4096)).on (fourHooks.after 0 (.undo firstHandle))).1 with
    | .ok view => view.hooks.map ChainNode.id
    | .error _ => []) = [4, 3, 2] := by decide +kernel
  rw [show ((viewChain 0 (.function 4096)).on (fourHooks.after 0 (.undo firstHandle))).1 = .ok view
    from ok] at ids
  exact ids

end Detouring.World
