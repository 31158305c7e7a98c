-- Whether a hook can be the code that it hooks. No function is hooked with itself, and so no hook of
-- a function is where the jump at the function stands, until a notice says that the function is
-- there. Where a method that is no function is, nobody compares with its hooks.
import Detouring.Proofs.Detour.Expecting
import Detouring.Proofs.Hook.Grounding
import Detouring.Proofs.Hook.Sessions

namespace Detouring.World

open Op

variable {α : Type} {told : Nat → Nat → Prop} {home : Nat → Option (Option Nat)} {c : Chain}
  {k : ChainKey} {node : ChainNode} {w : World} {notices : List CompiledMethod}

/-! ## Chains -/

/-- Every detour and every chain is grounded, for some addresses on record. -/
def Charted (told : Nat → Nat → Prop) (w : World) : Prop := ∃ home, w.Grounded told home

theorem charted_of_grounded {act : Op World α} (h : ∀ home, Keeps (Grounded told home) act) :
    Keeps (Charted told) act := fun w ⟨home, g⟩ =>
  (h home w g).mono (fun _ _ g' => ⟨home, g'⟩) fun _ g' => ⟨home, g'⟩

theorem change_charted {f : World → World} (h : ∀ w : World, w.Beside (f w)) :
    Keeps (Charted told) (Op.change f) :=
  .change fun w ⟨home, g⟩ => ⟨home, g.beside (h w)⟩

theorem updateChain_charted {f : Chain → Chain}
    (h : ∀ home c, c.method = k.method → c.Grounded home → (f c).Grounded home) :
    Keeps (Charted told) (updateChain k f) :=
  .change fun _ ⟨home, g⟩ => ⟨home, g.withChain (h home)⟩

/-- The hooks and the detour of the chain stay. -/
theorem rewrite_charted {f : Chain → Chain} (method : ∀ c, (f c).method = c.method)
    (root : ∀ c, (f c).root = c.root) (nodes : ∀ c, ∀ n ∈ (f c).nodes, n ∈ c.nodes) :
    Keeps (Charted told) (updateChain k f) :=
  updateChain_charted fun _ c _ g => g.congr (method c) (root c) (nodes c)

theorem linkTo_grounded (nodes : List ChainNode) (proxy : Stub) (entry : Option Nat) :
    Keeps (Grounded told home) (linkTo nodes proxy entry) := by
  unfold linkTo
  split
  · exact onMachine_grounded _
  · exact .throw _

theorem ensureProxy_charted (c : Chain) (first : ChainNode) :
    Keeps (Charted told) (ensureProxy k c first) := by
  unfold ensureProxy
  split
  · exact .pure _
  · refine (charted_of_grounded fun _ => onMachine_grounded _).bind fun proxy => ?_
    refine Keeps.bind ?_ fun _ => .pure _
    exact rewrite_charted (fun _ => rfl) (fun _ => rfl) fun _ _ mn => mn

/-- The detour of a chain has the method of the chain for its source. -/
theorem ensureRoot_charted (method : c.method = k.method) (proxy : Stub) :
    Keeps (Charted told) (ensureRoot k c proxy) := by
  unfold ensureRoot
  split
  · exact .pure _
  · rintro w ⟨home, g⟩
    apply Ends.bind
    apply (createDetour_grounded g k.manager c.method (.function proxy.entry)).mono _
      fun _ g' => ⟨home, g'⟩
    rintro root w₁ ⟨home₁, g₁, here⟩
    have watched : Keeps (Grounded told home₁) (watch root (.chain k)) :=
      updateDetour_grounded fun _ record _ => record.congr rfl rfl rfl
    have rooted : Keeps (Grounded told home₁) (updateChain k ({ · with root := some root })) := by
      refine .change fun w₂ g₂ => g₂.withChain fun c' same g' => ⟨?_, g'.apart⟩
      rintro _ ⟨⟩
      show home₁ root = some c'.method.address?
      rw [here, same, method]
    exact ((watched.bind fun _ => rooted.bind fun _ => .pure root) w₁ g₁).mono
      (fun _ _ g' => ⟨home₁, g'⟩) fun _ g' => ⟨home₁, g'⟩

theorem unlinkAll_charted (c : Chain) : Keeps (Charted told) (unlinkAll k c) := by
  have unlisted : Keeps (Charted told) (updateChain k ({ · with order := [] })) :=
    rewrite_charted (fun _ => rfl) (fun _ => rfl) fun _ _ mn => mn
  refine Keeps.get.bind fun w => ?_
  split
  · exact (charted_of_grounded fun _ => undoDetour_grounded _).bind fun _ => unlisted
  · exact unlisted

theorem linkAll_charted (method : c.method = k.method) (first : ChainNode)
    (rest : List ChainNode) : Keeps (Charted told) (linkAll k c first rest) := by
  refine (ensureProxy_charted c first).bind fun proxy => ?_
  refine (ensureRoot_charted method proxy).bind fun root => ?_
  have links (entry : Option Nat) (home : Nat → Option (Option Nat)) :
      Keeps (Grounded told home) (linkTo (first :: rest) proxy entry) := linkTo_grounded _ _ _
  have listed : Keeps (Charted told) (updateChain k ({ · with order := c.wantedOrder })) :=
    rewrite_charted (fun _ => rfl) (fun _ => rfl) fun _ _ mn => mn
  refine Keeps.get.bind fun w => ?_
  split
  · exact (charted_of_grounded (links _)).bind fun _ => listed
  · refine (charted_of_grounded fun home => ?_).bind fun _ => listed
    exact applyDetour_grounded (fun entry => links entry home) root

theorem relink_charted (k : ChainKey) : Keeps (Charted told) (relink k) := by
  intro w g
  apply Ends.bind
  apply Ends.get
  rcases here : w.chain? k with _ | c
  · exact Ends.pure g
  · refine Keeps.bind ?_ (fun _ => Keeps.bind (Keeps.outcome ?_) fun outcome =>
      Keeps.bind ?_ fun _ => .lift outcome) w g
    · exact rewrite_charted (fun _ => rfl) (fun _ => rfl) fun _ _ mn => mn
    · split
      · exact unlinkAll_charted c
      · exact linkAll_charted (method_of_chain here) _ _
    · exact change_charted fun w => releaseNodes_beside k c.retired w

/-! ## Hooks -/

/-- A function is not hooked with itself. -/
theorem enroll_charted (apart : k.method.address? ≠ some node.target) :
    Keeps (Charted told) (enroll k node) := by
  have listed {f : Chain → Chain} (method : ∀ c, (f c).method = c.method)
      (root : ∀ c, (f c).root = c.root) (nodes : ∀ c, (f c).nodes = c.nodes ++ [node]) :
      Keeps (Charted told) (updateChain k f) := by
    refine updateChain_charted fun home c same g => ⟨fun id h => ?_, fun n mn => ?_⟩
    · rw [method]
      exact g.root id (root c ▸ h)
    · rw [method]
      rcases List.mem_append.mp (nodes c ▸ mn) with mn | mn
      · exact g.apart n mn
      · rwa [List.mem_singleton.mp mn, same]
  refine Keeps.get.bind fun w => ?_
  split
  · exact .pure _
  · split
    · exact listed (fun _ => rfl) (fun _ => rfl) fun _ => rfl
    · refine Keeps.bind (.forM _ fun _ => charted_of_grounded fun _ => report_grounded _) fun _ => ?_
      refine Keeps.bind (rewrite_charted (fun _ => rfl) (fun _ => rfl) fun _ _ mn => mn) fun _ => ?_
      exact Keeps.bind (.lift _) fun _ => listed (fun _ => rfl) (fun _ => rfl) fun _ => rfl

theorem forget_charted (k : ChainKey) (id : Nat) :
    Keeps (Charted told) (updateChain k (·.forget id)) :=
  rewrite_charted (fun _ => rfl) (fun _ => rfl) fun _ _ mn => List.mem_of_mem_filter mn

theorem insertNode_charted (apart : k.method.address? ≠ some node.target) :
    Keeps (Charted told) (insertNode k node) := by
  refine .cleaning (fun w ⟨home, g⟩ => ⟨home, g.beside (releaseNode_beside k node w)⟩) ?_
  refine (enroll_charted apart).bind fun _ => (relink_charted k).outcome.bind fun outcome => ?_
  split
  · exact .pure _
  · refine (forget_charted k node.id).bind fun _ => (relink_charted k).outcome.bind fun again => ?_
    split
    · exact .throw _
    · exact Keeps.bind (charted_of_grounded fun _ => report_grounded _) fun _ => .throw _

theorem removeNode_charted (k : ChainKey) (id : Nat) : Keeps (Charted told) (removeNode k id) := by
  refine Keeps.get.bind fun w => ?_
  split
  · exact .throw _
  · refine (forget_charted k id).bind fun _ => (relink_charted k).outcome.bind fun outcome => ?_
    exact Keeps.bind (rewrite_charted (fun _ => rfl) (fun _ => rfl) fun _ _ mn => mn)
      fun _ => .lift outcome

theorem openChain_charted (k : ChainKey) : Keeps (Charted told) (openChain k) := by
  rintro w ⟨home, g⟩
  apply Ends.bind
  apply Ends.get
  rcases found : w.manager? k.manager with _ | m
  · exact Ends.pure ⟨home, g⟩
  · have mine := g.chains m (List.mem_of_find?_eq_some found)
    apply Ends.bind
    apply Ends.change
    refine Ends.pure ⟨home, g.detours, fun m' mm' c mc => ?_, g.fresh, g.handles⟩
    obtain ⟨m₀, mm₀, rfl⟩ := List.mem_map.mp mm'
    split at mc
    · dsimp only at mc
      split at mc
      · exact mine c mc
      · rcases List.mem_append.mp mc with mc | mc
        · exact mine c mc
        · obtain rfl := List.mem_singleton.mp mc
          exact ⟨fun _ h => (by cases h), fun _ mn => (by cases mn)⟩
    · exact g.chains m₀ mm₀ c mc

theorem addHook_charted (manager : Nat) (source : Method) (target : Nat)
    (placement : Option Placement) :
    Keeps (Charted told) (addHook manager source target placement) := by
  refine (charted_of_grounded fun _ => canonicalize_grounded source).bind fun method => ?_
  split
  · exact .throw _
  · rename_i apart
    refine (openChain_charted _).bind fun id => ?_
    refine (charted_of_grounded fun _ => onMachine_grounded _).bind fun trampoline => ?_
    refine (insertNode_charted apart).bind fun _ => ?_
    refine Keeps.bind (.change fun w ⟨home, g⟩ => ⟨home, g.detours, g.chains, g.fresh, ?_⟩)
      fun _ => Keeps.bind (charted_of_grounded fun _ => tell_grounded _) fun _ => .pure _
    intro h mh
    rcases List.mem_append.mp mh with mh | mh
    · exact g.handles h mh
    · rwa [List.mem_singleton.mp mh]

/-- What is known of a handle does not depend on whether its hook is applied. -/
theorem undoHook_charted {h : Hook} (apart : h.chain.method.address? ≠ some h.node.target) :
    Keeps (Charted told) (undoHook h) := by
  unfold undoHook
  split
  · exact .throw _
  · refine Keeps.bind (.change fun w ⟨home, g⟩ => ⟨home, g.detours, g.chains, g.fresh, ?_⟩) fun _ =>
      (removeNode_charted h.chain h.node.id).outcome.bind fun outcome =>
        Keeps.bind (charted_of_grounded fun _ => tell_grounded _) fun _ => .lift outcome
    intro h' mh
    obtain ⟨x, mx, rfl⟩ := List.mem_map.mp mh
    split
    · exact apart
    · exact g.handles x mx

theorem dropChain_charted (k : ChainKey) (c : Chain) : Keeps (Charted told) (dropChain k c) := by
  refine Keeps.bind (updateChain_charted fun home c' _ g => ⟨fun _ h => (by cases h), g.apart⟩)
    fun _ => ?_
  refine Keeps.bind (.optional _ fun _ => charted_of_grounded fun _ => dropDetour_grounded _)
    fun _ => ?_
  refine (change_charted fun w => w.beside_machine _).bind fun _ => ?_
  exact change_charted fun w => releaseNodes_beside k c.retired w

theorem dropManagerIfUnused_charted (id : Nat) :
    Keeps (Charted told) (dropManagerIfUnused id) := by
  refine Keeps.get.bind fun w => ?_
  split
  · exact .pure _
  · split
    · exact .pure _
    · refine Keeps.bind (.forM _ fun c => dropChain_charted _ c) fun _ => ?_
      exact .change fun w ⟨home, g⟩ => ⟨home, g.fewer (fun _ md => md) rfl
        (fun _ mm => List.mem_of_mem_filter mm) fun _ mh => mh⟩

theorem dropHook_charted {h : Hook} (apart : h.chain.method.address? ≠ some h.node.target) :
    Keeps (Charted told) (dropHook h) := by
  have forgets : Keeps (Charted told) (do
      Op.change fun w => { w with
        hooks := w.hooks.filter fun x =>
          x.chain.manager != h.chain.manager || x.node.id != h.node.id }
      Op.change (releaseNode h.chain h.node)
      dropManagerIfUnused h.chain.manager) := by
    refine Keeps.bind (.change fun w ⟨home, g⟩ => ⟨home, g.fewer (fun _ md => md) rfl
      (fun _ mm => mm) fun _ mh => List.mem_of_mem_filter mh⟩) fun _ => ?_
    exact (change_charted fun w => releaseNode_beside _ _ w).bind fun _ =>
      dropManagerIfUnused_charted _
  unfold dropHook
  split
  · refine (undoHook_charted apart).outcome.bind fun outcome => ?_
    split
    · exact forgets
    · exact (charted_of_grounded fun _ => report_grounded _).bind fun _ => forgets
  · exact forgets

/-! ## Chronicles -/

/-- Handles are in use. -/
def InUse (w : World) : Act → Prop
  | .undo h => h ∈ w.hooks
  | .drop h => h ∈ w.hooks
  | _ => True

/-- What the runtime has announced in an act. -/
def noticesOf : Act → List CompiledMethod
  | .notice n => [n]
  | _ => []

/-- What acts through any managers come to, whether they succeed or not, and all that the runtime has
announced. Between the acts others may do what they like to memory and to the runtime. -/
inductive Chronicle : World → List CompiledMethod → Prop where
  | start {w : World} (detours : w.detours = []) (hooks : w.hooks = [])
      (chains : ∀ m ∈ w.managers, m.chains = []) : Chronicle w []
  | act {w : World} {notices : List CompiledMethod} (chronicle : Chronicle w notices) (μ : Nat)
      (a : Act) (inUse : w.InUse a) : Chronicle (w.after μ a) (noticesOf a ++ notices)
  | others {w : World} {notices : List CompiledMethod} (chronicle : Chronicle w notices)
      (machine : Machine) (runtime : Runtime) (events : List Event) :
      Chronicle { w with machine, runtime, events } notices

/-- A notice has told of the function at an address that it is at another now. -/
def ToldOf (notices : List CompiledMethod) (a start : Nat) : Prop :=
  ∃ n ∈ notices, n.method.address? = some a ∧ n.start = start

theorem Charted.mono {told' : Nat → Nat → Prop} (charted : w.Charted told)
    (more : ∀ a s, told a s → told' a s) : w.Charted told' := by
  obtain ⟨home, g⟩ := charted
  exact ⟨home, g.mono more⟩

theorem Charted.act (charted : w.Charted (ToldOf notices)) (μ : Nat) (a : Act)
    (inUse : w.InUse a) : (w.after μ a).Charted (ToldOf (noticesOf a ++ notices)) := by
  have later : w.Charted (ToldOf (noticesOf a ++ notices)) :=
    charted.mono fun _ _ ⟨n, mn, told⟩ => ⟨n, List.mem_append_right _ mn, told⟩
  refine left_of_ends (P := fun w' : World => w'.Charted (ToldOf (noticesOf a ++ notices))) ?_
  cases a with
  | add source target placement =>
    exact (addHook_charted μ source target placement).bind (fun _ => .pure _) w later
  | undo h =>
    obtain ⟨_, g⟩ := charted
    exact undoHook_charted (g.handles h inUse) w later
  | drop h =>
    obtain ⟨_, g⟩ := charted
    exact dropHook_charted (g.handles h inUse) w later
  | notice n =>
    refine charted_of_grounded (fun _ => deliver_grounded fun a address => ?_) w later
    exact ⟨n, List.mem_append_left _ (List.mem_singleton_self n), address, rfl⟩

theorem Chronicle.charted (chronicle : Chronicle w notices) : w.Charted (ToldOf notices) := by
  induction chronicle with
  | start detours hooks chains =>
    refine ⟨fun _ => none, fun d md => ?_, fun m mm c mc => ?_, fun _ _ => rfl, fun h mh => ?_⟩
    · cases detours ▸ md
    · cases chains m mm ▸ mc
    · cases hooks ▸ mh
  | act _ μ a inUse ih => exact ih.act μ a inUse
  | others _ _ _ _ ih =>
    obtain ⟨home, g⟩ := ih
    exact ⟨home, g.detours, g.chains, g.fresh, g.handles⟩

/-! ## Hooks and jumps -/

/-- The hook of a function is another function, and the jump at the hooked function does not stand
there unless a notice has said that the hooked function is there. -/
def Apart (notices : List CompiledMethod) (k : ChainKey) (target : Nat) (w : World) : Prop :=
  ∀ a, k.method.address? = some a → a ≠ target ∧
    ∀ r, w.patched? k = some r → r.source = target → ToldOf notices a target

/-- The jump stands at the address of the function or where a notice has put it. -/
theorem Grounded.apart {target : Nat} (g : w.Grounded (ToldOf notices) home)
    (other : k.method.address? ≠ some target) :
    w.Apart notices k target := by
  intro a address
  have away : a ≠ target := fun same => other (same ▸ address)
  refine ⟨away, fun r patched there => ?_⟩
  obtain ⟨c, here, patch⟩ := Option.bind_eq_some_iff.mp patched
  obtain ⟨id, d, root, found, redirection⟩ := root_of_patchOf patch
  obtain ⟨record, rfl⟩ := g.found found
  obtain ⟨m, manager, chain⟩ := Option.bind_eq_some_iff.mp here
  have rooted := (g.chains m (List.mem_of_find?_eq_some manager) c
    (List.mem_of_find?_eq_some chain)).root d.id root
  have source : d.source.address? = some a := by
    rw [← address, ← method_of_chain here]
    exact Option.some.inj (record.home.symm.trans rooted)
  rcases record.ground r redirection a source with stayed | told
  · exact (away (stayed.symm.trans there)).elim
  · exact there ▸ told

/-- The notice reaches the detour of a hooked method, which is not at work. -/
def Reaches (n : CompiledMethod) (k : ChainKey) (w : World) : Prop :=
  ∃ c id d, w.chain? k = some c ∧ c.root = some id ∧ w.detour? id = some d ∧ d.busy = false ∧
    d.source = w.nameOf n.method ∧ w.Hears d.factory

/-- A jump goes wherever a notice says, whoever is there. -/
theorem Reaches.stands {n : CompiledMethod} (reaches : w.Reaches n k) {μ : Nat} {r : Redirection}
    (patched : (w.after μ (.notice n)).patched? k = some r) : r.source = n.start := by
  obtain ⟨c, id, d, here, root, found, idle, source, hears⟩ := reaches
  obtain ⟨expects, stands⟩ : Expects d.source d.factory id w (w.after μ (.notice n)) ∧
      StandsAt n.start id (w.after μ (.notice n)) :=
    left_of_ends (P := fun w' : World => Expects d.source d.factory id w w' ∧ StandsAt n.start id w')
      (deliver_stands found idle source hears)
  have same : (w.after μ (.notice n)).chain? k = some c := by
    rw [← here]
    unfold World.chain? World.manager?
    rw [expects.managers]
  rw [patched?_eq same] at patched
  obtain ⟨id', d', root', found', redirection⟩ := root_of_patchOf patched
  obtain rfl := Option.some.inj (root.symm.trans root')
  exact stands r ((redirection?_of_found found').trans redirection)

/-- Whatever has been done, no handle and no chain is that of a function hooked with itself, and the
jump at a hooked function stands at one of its hooks only if the runtime has said that the function
is there. A notice that reaches the detour of a method moves the jump to where the notice says, and
so to a hook as well. -/
theorem a_function_is_its_own_hook_only_if_told (chronicle : Chronicle w notices) :
    (∀ h ∈ w.hooks, w.Apart notices h.chain h.node.target) ∧
      (∀ k c, w.chain? k = some c → ∀ n ∈ c.nodes, w.Apart notices k n.target) ∧
      ∀ n k, w.Reaches n k → ∀ μ r, (w.after μ (.notice n)).patched? k = some r →
        r.source = n.start := by
  obtain ⟨home, g⟩ := chronicle.charted
  refine ⟨fun h mh => g.apart (g.handles h mh), fun k c here n mn => ?_,
    fun n k reaches μ r patched => reaches.stands patched⟩
  obtain ⟨m, manager, chain⟩ := Option.bind_eq_some_iff.mp here
  have record := g.chains m (List.mem_of_find?_eq_some manager) c (List.mem_of_find?_eq_some chain)
  exact g.apart (method_of_chain here ▸ record.apart n mn)

/-- The function on the first page is hooked, and then it is said to be where its hook is. -/
def met : World := firstHook.after 0 (.notice ⟨.function 4096, 4100, 32⟩)

theorem chains_firstPage : ∀ m ∈ firstPage.managers, m.chains = [] := by
  intro m mm
  obtain rfl := List.mem_singleton.mp mm
  rfl

theorem reaches_firstHook : firstHook.Reaches ⟨.function 4096, 4100, 32⟩ firstKey := by
  have rooted : (firstHook.chain? firstKey).bind Chain.root = some 0 := by decide +kernel
  have known : (firstHook.detour? 0).map (fun d => (d.busy, d.source, d.factory)) =
      some (false, .function 4096, 0) := by decide +kernel
  have name : firstHook.nameOf (.function 4096) = .function 4096 := by decide +kernel
  have hears : firstHook.Hears 0 := by decide +kernel
  obtain ⟨c, here, root⟩ := Option.bind_eq_some_iff.mp rooted
  obtain ⟨d, found, same⟩ := Option.map_eq_some_iff.mp known
  obtain ⟨idle, rest⟩ := Prod.mk.inj same
  obtain ⟨source, factory⟩ := Prod.mk.inj rest
  exact ⟨c, 0, d, here, root, found, idle, source.trans name.symm, factory ▸ hears⟩

/-- The jump stands at the hook, as was told. -/
theorem a_function_is_its_own_hook_if_told : ∃ notices h r, Chronicle met notices ∧ h ∈ met.hooks ∧
    met.patched? h.chain = some r ∧ r.source = h.node.target ∧
      ToldOf notices 4096 h.node.target := by
  have hooked : Chronicle firstHook _ := .act (.start rfl rfl chains_firstPage) 0 _ trivial
  have chronicle : Chronicle met _ := .act hooked 0 _ trivial
  have there : firstHandle ∈ met.hooks := by decide +kernel
  obtain ⟨r, patched⟩ := Option.isSome_iff_exists.mp
    (show (met.patched? firstKey).isSome = true by decide +kernel)
  have moved : r.source = 4100 :=
    (a_function_is_its_own_hook_only_if_told hooked).2.2 _ _ reaches_firstHook 0 r patched
  have told := ((a_function_is_its_own_hook_only_if_told chronicle).1 _ there 4096 rfl).2 r patched
  exact ⟨_, firstHandle, r, chronicle, there, patched, moved, told moved⟩

/-- A method that the runtime knows by a token. Its code is the function on the first page. -/
def tokenPage : World :=
  { firstPage with runtime := { methods := [{ token := 1, entry := 4096 }], subscribers := [0] } }

/-- It is hooked with its own code. -/
def selfHooked : World := tokenPage.after 0 (.add (.token 1) 4096 none)

def tokenKey : ChainKey := ⟨0, .token 1⟩

/-- The jump leads to the proxy, and the proxy leads back to the jump. -/
theorem a_method_is_hooked_with_itself : Chronicle selfHooked [] ∧
    ((addHook 0 (.token 1) 4096 none).on tokenPage).1.isOk = true ∧
    selfHooked.hooks.map (fun h => (h.chain, h.applied, h.node.target)) =
      [(tokenKey, true, 4096)] ∧
    (selfHooked.patched? tokenKey).map Redirection.source = some 4096 ∧
    ∃ p, selfHooked.front? tokenKey = some p ∧
      selfHooked.machine.memory.jumpDestination? 4096 = some p.entry ∧
      selfHooked.machine.memory.jumpDestination? p.entry = some 4096 := by
  have front : (selfHooked.front? tokenKey).isSome = true := by decide +kernel
  have circle : (selfHooked.machine.memory.jumpDestination? 4096,
      (selfHooked.front? tokenKey).bind fun p => selfHooked.machine.memory.jumpDestination? p.entry) =
        ((selfHooked.front? tokenKey).map Stub.entry, some 4096) := by decide +kernel
  obtain ⟨p, there⟩ := Option.isSome_iff_exists.mp front
  obtain ⟨out, back⟩ := Prod.mk.inj circle
  rw [there] at out back
  have bare : Chronicle tokenPage [] := .start rfl rfl chains_firstPage
  exact ⟨bare.act 0 (.add (.token 1) 4096 none) trivial, by decide +kernel, by decide +kernel,
    by decide +kernel, p, there, out, back⟩

end Detouring.World
