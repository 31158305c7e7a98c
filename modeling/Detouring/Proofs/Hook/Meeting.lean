-- Runs of hooking, undoing, dropping and compiling a method again. Whenever the method is detoured,
-- a call of it meets the hooks that a view lists, one after the other, and then the method's own
-- code. The jump stands where the runtime last said that this code is.
import Detouring.Proofs.Hook.Handling
import Detouring.Proofs.Hook.Moving

namespace Detouring

/-- Something that is done to a hooked method. -/
inductive Act where
  | add (source : Method) (target : Nat) (placement : Option Placement)
  | undo (h : Hook)
  | drop (h : Hook)
  /-- The runtime has compiled the method again. -/
  | notice (n : CompiledMethod)

namespace World

open Op Machine

variable {k : ChainKey} {code : Set Nat} {kept : List ChainNode} {c : Chain} {w w' : World}
  {r : Redirection} {proxy : Stub} {entry : Nat} {body : Option Nat}

/-! ## Runs -/

/-- The code of others. -/
def codeOfOthers (w : World) : Set Nat := { a | w.machine.Foreign a }

/-- The operation that a user or the runtime carries out. -/
def carryOut (manager : Nat) : Act → Op World Unit
  | .add source target placement => do
    let _ ← addHook manager source target placement
  | .undo h => undoHook h
  | .drop h => dropHook h
  | .notice n => deliver n

/-- The world after an act, whether or not the act failed. -/
def after (w : World) (manager : Nat) (a : Act) : World := ((carryOut manager a).on w).2

/-- The act is about the method, and the method has code of others. Where a jump was written at
fresh code, there was room for every jump. -/
def Concerns (k : ChainKey) (w : World) : Act → Prop
  | .add source target placement => w.nameOf source = k.method ∧ target < wordCount ∧
      (w.after k.manager (.add source target placement)).Covered w.codeOfOthers k
  | .undo h => h ∈ w.hooks ∧ h.chain = k ∧ (w.after k.manager (.undo h)).Covered w.codeOfOthers k
  | .drop h => h ∈ w.hooks ∧ h.chain = k ∧ (w.after k.manager (.drop h)).Covered w.codeOfOthers k
  | .notice n => w.nameOf n.method = k.method ∧ w.machine.Code n.start

/-- Where the runtime last said that the code of the method is. Only a detoured method is
followed. -/
def bodyAfter (k : ChainKey) (w : World) (body : Option Nat) (a : Act) : Option Nat :=
  if ((w.after k.manager a).patched? k).isSome then
    match a with
    | .notice n => if w.Hears k.manager then some n.start else none
    | _ => body
  else none

/-- Others did something: memory of theirs was written and more may be mapped, but what was handed
out is as it was, and so are the code of others and the jump at the method. -/
structure Undisturbed (k : ChainKey) (w : World) (m : Machine) : Prop where
  holds : ∀ K, w.machine.Holds K → m.Holds K
  foreign : ∀ x, w.machine.Foreign x → m.Foreign x
  bytes : ∀ x, w.machine.memory.isMapped x = true → ¬ w.machine.Foreign x →
    m.memory.bytes x = w.machine.memory.bytes x
  jump : ∀ r, w.patched? k = some r → ∀ i < r.patch.jump.size,
    m.memory.bytes (r.source + i) = w.machine.memory.bytes (r.source + i)

/-- What a run of acts comes to, and where the runtime last said that the code of the method is. -/
inductive Run (k : ChainKey) : World → Option Nat → Prop where
  | start {w : World} (unhooked : Unhooked k w) : Run k w none
  | act {w : World} {body : Option Nat} (run : Run k w body) (a : Act) (concerns : Concerns k w a) :
      Run k (w.after k.manager a) (w.bodyAfter k body a)
  | others {w : World} {body : Option Nat} (run : Run k w body) {machine : Machine}
      {runtime : Runtime} {events : List Event} (undisturbed : Undisturbed k w machine)
      (name : World.nameOf { w with machine, runtime, events } k.method = k.method) :
      Run k { w with machine, runtime, events } body

/-! ## What a run keeps -/

/-- The chain is in order, and the jump stands where it should. -/
structure Good (k : ChainKey) (w : World) (body : Option Nat) : Prop where
  tended : Tended k w.codeOfOthers w
  here : ∀ start, body = some start → ∃ r, w.patched? k = some r ∧ r.source = start

theorem Tended.here (t : Tended k code w) : Tended k w.codeOfOthers w := t.recode fun _ f => f

theorem Steady.good (o : Steady k code kept c w)
    (here : ∀ start, body = some start → ∃ r, w.patched? k = some r ∧ r.source = start) :
    Good k w body := ⟨Tended.here (Or.inr ⟨c, kept, o⟩), here⟩

/-- Users leave the jump where it is, or take it away. -/
theorem Good.of_acted (g : Good k w body) {a : Act}
    (acted : Acted k w.codeOfOthers w (w.after k.manager a))
    (covered : (w.after k.manager a).Covered w.codeOfOthers k)
    (same : w.bodyAfter k body a = if ((w.after k.manager a).patched? k).isSome then body else none) :
    Good k (w.after k.manager a) (w.bodyAfter k body a) := by
  refine ⟨(acted.done covered).here, fun start here => ?_⟩
  rw [same] at here
  split at here <;> rename_i patched
  · obtain ⟨r, hr, source⟩ := g.here start here
    rcases acted.stays with stays | bare | bare
    · exact ⟨r, stays.trans hr, source⟩
    · cases bare.symm.trans hr
    · rw [bare] at patched
      cases patched
  · cases here

theorem Good.notice (g : Good k w body) {n : CompiledMethod} (name : w.nameOf n.method = k.method)
    (room : w.machine.Code n.start) :
    Good k (w.after k.manager (.notice n)) (w.bodyAfter k body (.notice n)) := by
  unfold bodyAfter
  rcases g.tended with u | ⟨c, kept, o⟩
  · have unapplied : w.Unapplied (w.nameOf n.method) := by
      intro d md touches
      rw [name] at touches
      rcases touches with here | there
      · exact ((u.untouched d md).1 here).elim
      · exact ((u.untouched d md).2 there).elim
    have quiet : w.Quiet (w.after k.manager (.notice n)) := left_of_ends (deliver_quiet unapplied)
    have u' := u.quiet quiet
    rw [u'.patched?]
    exact ⟨Or.inl u', fun start here => (by cases here)⟩
  · obtain ⟨o', _, moved⟩ : Steady k w.codeOfOthers kept c (w.after k.manager (.notice n)) ∧
        w.Along (w.after k.manager (.notice n)) ∧ (k.manager ∈ w.runtime.subscribers →
          k.manager ∈ w.factories → (w.after k.manager (.notice n)).MovedTo c n.start) :=
      left_of_ends (deliver_ends o name room)
    refine o'.good fun start here => ?_
    split at here <;> rename_i patched
    · obtain ⟨r, hr⟩ := Option.isSome_iff_exists.mp patched
      dsimp only at here
      split at here <;> rename_i hears
      · obtain rfl := Option.some.inj here
        exact ⟨r, hr, moved hears.1 hears.2 r ((patched?_eq o'.booked.chain).symm.trans hr)⟩
      · cases here
    · cases here

theorem Good.act (g : Good k w body) (a : Act) (concerns : Concerns k w a) :
    Good k (w.after k.manager a) (w.bodyAfter k body a) := by
  have steady {h : Hook} (mh : h ∈ w.hooks) (key : h.chain = k) :
      ∃ c kept, Steady k w.codeOfOthers kept c w := by
    rcases g.tended with u | steady
    · exact (u.handles h mh key).elim
    · exact steady
  cases a with
  | add source target placement =>
    obtain ⟨name, word, covered⟩ := concerns
    refine g.of_acted (left_of_ends ?_) covered rfl
    apply Ends.bind
    apply (addHook_ends g.tended (fun _ f => f) name word placement).mono _ fun _ h => h
    intro _ w' acted
    exact Ends.pure acted
  | undo h =>
    obtain ⟨mh, key, covered⟩ := concerns
    obtain ⟨c, kept, o⟩ := steady mh key
    refine g.of_acted (left_of_ends ?_) covered rfl
    exact (undoHook_ends o mh key).mono (fun _ _ u => u.acted) fun _ u => u.acted
  | drop h =>
    obtain ⟨mh, key, covered⟩ := concerns
    obtain ⟨c, kept, o⟩ := steady mh key
    exact g.of_acted (left_of_ends (dropHook_ends o mh key)) covered rfl
  | notice n => exact g.notice concerns.1 concerns.2

/-- What others do to what is theirs is no harm. -/
theorem Steady.others (o : Steady k code kept c w) {m : Machine} {runtime : Runtime}
    {events : List Event} (u : Undisturbed k w m)
    (name : World.nameOf { w with machine := m, runtime, events } k.method = k.method) :
    Steady k code kept c { w with machine := m, runtime, events } := by
  have b := o.booked
  have s := b.setting
  have blocks (x : Block) (mx : x ∈ (w.rig c kept).blocks) (a : Nat) (has : x.Has a) :
      m.memory.bytes a = w.machine.memory.bytes a :=
    u.bytes a (o.stands.holds.mapped mx has) (o.stands.holds.not_foreign mx has)
  have spared (x : Block) (mx : x ∈ (w.rig c kept).stubBlocks) := blocks x (Rig.stub_mem mx)
  have stands : (w.rig c kept).Stands code m := by
    refine o.stands.spared spared u.foreign (u.holds _ o.stands.holds) fun r hr => ?_
    refine (o.stands.patch r hr).congr (fun i hi => ⟨?_, ?_⟩) fun x mx =>
      blocks x (Rig.patch_mem hr mx)
    · exact u.foreign _ ((o.stands.patch r hr).foreign i hi)
    · exact u.jump r ((patched?_eq b.chain).trans hr) i hi
  exact ⟨⟨⟨⟨s.keeps, s.inHand, name, s.numbered⟩, b.chain, b.books, b.nodes, b.handles, b.ids,
    b.below, b.words, ⟨b.rooted.alone, b.rooted.root⟩⟩, stands, o.leads, o.idle⟩,
    o.linked.spared o.toInOrder spared rfl⟩

theorem Good.others (g : Good k w body) {m : Machine} {runtime : Runtime} {events : List Event}
    (u : Undisturbed k w m)
    (name : World.nameOf { w with machine := m, runtime, events } k.method = k.method) :
    Good k { w with machine := m, runtime, events } body := by
  refine ⟨?_, g.here⟩
  rcases g.tended with h | ⟨c, kept, o⟩
  · have s := h.setting
    obtain ⟨live, sound⟩ := h.machine
    obtain ⟨live', sound', _⟩ := (u.holds [] ⟨List.nodup_nil, live, sound, fun _ mb => (by cases mb)⟩).sound
    exact Or.inl ⟨⟨s.keeps, s.inHand, name, s.numbered⟩, h.manager, h.chain, h.handles, h.untouched,
      live', sound'⟩
  · exact Tended.here (Or.inr ⟨c, kept, o.others u name⟩)

theorem Run.good (run : Run k w body) : Good k w body := by
  induction run with
  | start unhooked => exact ⟨Or.inl unhooked, fun start here => (by cases here)⟩
  | act _ a concerns ih => exact ih.act a concerns
  | others _ undisturbed name ih => exact ih.others undisturbed name

/-! ## What a call meets -/

/-- A call of a detoured method meets the hooks that a view lists: the jump at its code leads to the
proxy, the proxy to the first hook, each hook to the next and the last one to the alternate entry.
Hooks with a placement come in the order of the graph, the others after them, newest first. -/
structure Meets (k : ChainKey) (w : World) (view : ChainView) (c : Chain) (r : Redirection)
    (proxy : Stub) (entry : Nat) : Prop where
  chain : w.chain? k = some c
  root : ∃ d, w.appliedRoot? c = some d ∧ d.source = k.method ∧ d.redirection = some r
  front : c.proxy = some proxy
  alternate : view.alternate = some entry ∧ r.entry? = some entry
  jump : w.machine.memory.jumpDestination? r.source = some proxy.entry
  path : (proxy.entry :: view.hooks.map fun n => n.trampoline.entry).map
      w.machine.memory.jumpDestination? = (view.hooks.map ChainNode.target ++ [entry]).map some
  hooked : view.hooks ≠ []
  listed : view.hooks.map ChainNode.id = c.graph.order ++ c.unplaced
  newest : c.unplaced.Pairwise (· > ·)
  loose : ∀ n ∈ view.hooks, n.id ∈ c.unplaced ↔ n.placement = none

/-- Each stub leads where its cell points, and so the stubs of a chain lead along it. -/
theorem path_of_linked {m : Memory} {nodes : List ChainNode} (h : Chain.Linked m proxy nodes entry)
    (stands : ∀ s ∈ proxy :: nodes.map ChainNode.trampoline,
      s.Stands m ∧ s.entry + 8 < wordCount)
    (words : ∀ a ∈ nodes.map ChainNode.target ++ [entry], a < wordCount) :
    (proxy.entry :: nodes.map fun n => n.trampoline.entry).map m.jumpDestination? =
      (nodes.map ChainNode.target ++ [entry]).map some :=
  calc (proxy.entry :: nodes.map fun n => n.trampoline.entry).map m.jumpDestination?
    _ = (proxy :: nodes.map ChainNode.trampoline).map fun s => m.jumpDestination? s.entry := by
      simp [Function.comp_def]
    _ = ((proxy :: nodes.map ChainNode.trampoline).map fun s => m.word s.cell).map some := by
      rw [List.map_map]
      exact List.map_congr_left fun s ms => (stands s ms).1.jumpDestination? (stands s ms).2
    _ = ((nodes.map ChainNode.target ++ [entry]).map (· % wordCount)).map some := by rw [h.path]
    _ = (nodes.map ChainNode.target ++ [entry]).map some := by
      rw [List.map_map]
      exact List.map_congr_left fun a ma => congrArg some (Nat.mod_eq_of_lt (words a ma))

/-- While the method is detoured, a call of it meets its hooks. The jump, the stubs of the chain and the
alternate entry take up blocks of `L`, which are held, and functions are addresses. -/
theorem meets_of_linked {L : List Block} (holds : w.machine.Holds L) (here : w.chain? k = some c)
    (books : c.Books) (source : ∀ id d, c.root = some id → w.detour? id = some d → d.source = k.method)
    (patched : w.patchOf c = some r) (stands : r.Stands w.machine)
    (target : ∃ proxy, c.proxy = some proxy ∧ r.target = proxy.entry) (linked : LinkedUp w c)
    (blocks : ∀ b ∈ r.blocks, b ∈ L)
    (stubs : ∀ s, (c.proxy = some s ∨ ∃ n ∈ c.nodes, n.trampoline = s) →
      s.block ∈ L ∧ s.Stands w.machine.memory)
    (functions : ∀ n ∈ c.nodes, n.target < wordCount)
    (words : ∀ b ∈ w.machine.memory.places, b + pageSize ≤ wordCount) :
    ∃ proxy entry, Meets k w ⟨k.method, c.linkedNodes, some entry, true⟩ c r proxy entry := by
  obtain ⟨proxy, entry, hp, callable, order, many, links⟩ := linked r patched
  obtain ⟨proxy', hp', target⟩ := target
  obtain rfl := Option.some.inj (hp.symm.trans hp')
  obtain ⟨id, d, root, found, redirection⟩ := root_of_patchOf patched
  have below {x : Block} (mx : x ∈ L) {a : Nat} (has : x.Has a) : a < wordCount :=
    Memory.lt_wordCount_of_mapped words (holds.mapped mx has)
  have stub {s : Stub} (ms : c.proxy = some s ∨ ∃ n ∈ c.nodes, n.trampoline = s) :
      s.Stands w.machine.memory ∧ s.entry + 8 < wordCount := by
    obtain ⟨held, stands⟩ := stubs s ms
    have size := stands.size
    exact ⟨stands, below held ⟨Nat.le_add_right _ _, by unfold Stub.entry; omega⟩⟩
  have first := stub (Or.inl hp)
  have entered : entry < wordCount := by
    obtain ⟨x, alternate, rfl⟩ := Option.map_eq_some_iff.mp callable
    have mx : x ∈ L := by
      refine blocks x ?_
      unfold Redirection.blocks
      rw [alternate]
      exact List.mem_append_left _ (List.mem_singleton_self x)
    exact below mx ⟨Nat.le_refl _, Nat.lt_add_of_pos_right (holds.filled mx)⟩
  have led : r.target < wordCount := by
    rw [target]
    omega
  have listed : c.linkedNodes.map ChainNode.id = c.graph.order ++ c.unplaced := by
    unfold Chain.linkedNodes
    rw [order]
    exact books.wanted_nodes.1
  refine ⟨proxy, entry, here, ⟨d, appliedRoot?_eq root found redirection, source id d root found,
    redirection⟩, hp, ⟨rfl, callable⟩, ?_, path_of_linked links (fun s ms => ?_) (fun a ma => ?_), many,
    listed, books.newest_first, fun n mn => books.mem_unplaced (Chain.Books.mem_nodesOf mn)⟩
  · rw [← target]
    exact stands.jumpDestination? (fun x mx a has => holds.mapped (blocks x mx) has) words led
  · rcases List.mem_cons.mp ms with rfl | ms
    · exact first
    · obtain ⟨n, mn, rfl⟩ := List.mem_map.mp ms
      exact stub (Or.inr ⟨n, Chain.Books.mem_nodesOf mn, rfl⟩)
  · rcases List.mem_append.mp ma with ma | ma
    · obtain ⟨n, mn, rfl⟩ := List.mem_map.mp ma
      exact functions n (Chain.Books.mem_nodesOf mn)
    · obtain rfl := List.mem_singleton.mp ma
      exact entered

theorem Steady.meets (o : Steady k code kept c w) (patched : w.patchOf c = some r)
    (words : ∀ b ∈ w.machine.memory.places, b + pageSize ≤ wordCount) :
    ∃ proxy entry, Meets k w ⟨k.method, c.linkedNodes, some entry, true⟩ c r proxy entry := by
  have b := o.booked
  obtain ⟨_, proxy, hp, target⟩ := o.leads r patched
  have sub (n : ChainNode) (mn : n ∈ c.nodes) : n ∈ kept := b.nodes n (List.mem_append_left _ mn)
  refine meets_of_linked o.stands.holds b.chain b.books (fun id d root found => ?_) patched
    (o.stands.patch r patched) ⟨proxy, hp, target⟩ o.linked (fun _ mb => Rig.patch_mem patched mb)
    (fun s ms => ?_) (fun n mn => b.words n (sub n mn)) words
  · obtain ⟨d', _, found', _, source, _⟩ := b.rooted.root id root
    obtain rfl := Option.some.inj (found.symm.trans found')
    exact source
  · rcases ms with hp | ⟨n, mn, rfl⟩
    · exact ⟨Rig.stub_mem (Rig.mem_of_proxy hp), o.stands.proxy s hp⟩
    · exact ⟨Rig.stub_mem (Rig.mem_of_kept (sub n mn)), o.stands.kept n (sub n mn)⟩

theorem viewChain_ends {m : Method} (name : w.nameOf m = k.method) {E : World → Prop} :
    (viewChain k.manager m).Ends w
      (fun view _ => view = match w.chain? k with
        | none => ⟨k.method, [], none, false⟩
        | some c => ⟨k.method, c.linkedNodes, (w.patchOf c).bind Redirection.entry?,
            (w.patchOf c).isSome⟩) E := by
  apply Ends.bind
  apply (canonicalize_ends w m).mono _ fun _ h => h
  rintro _ w₁ ⟨rfl, quiet⟩
  rw [name]
  have chain : w₁.chain? k = w.chain? k := by
    unfold chain? manager?
    rw [quiet.managers]
  apply Ends.bind
  apply Ends.get
  split <;> rename_i there
  · rw [← chain, show w₁.chain? k = none from there]
    exact Ends.pure rfl
  · rename_i c
    rw [← chain, show w₁.chain? k = some c from there]
    apply Ends.pure
    have root : c.root.bind w₁.detour? = c.root.bind w.detour? :=
      Option.bind_congr fun id _ => quiet.detour? id
    dsimp only
    unfold patchOf
    rw [root]
    rcases c.root.bind w.detour? with _ | d
    · rfl
    · exact congrArg (ChainView.mk _ _ _) d.isApplied_eq

/-- A page with a function of `nop`, and a manager in hand that hears of fresh code. -/
def firstPage : World where
  machine := { arena := { source :=
    { memory := (({} : Memory).map 4096 .readExecute none).fill 4096 64 0x90, next := 8192 } } }
  platform :=
    { architecture := {}, system := {}, runtimeKind := .native, runtimeFlags := 0, settings := {},
      convention := .systemV }
  runtime := { subscribers := [0] }
  factories := [0]
  managers := [{ id := 0 }]
  manager := some 0

def firstKey : ChainKey := ⟨0, .function 4096⟩

/-- The function is hooked, -/
def firstHook : World := firstPage.after 0 (.add (.function 4096) 4100 none)

/-- and then its code is at another place. -/
def firstMove : World := firstHook.after 0 (.notice ⟨.function 4096, 4128, 32⟩)

end World

end Detouring
