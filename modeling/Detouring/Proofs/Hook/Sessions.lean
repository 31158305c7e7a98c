-- Sessions with one manager: any of its methods are hooked, hooks are undone, handles are dropped,
-- and methods are compiled again. Whatever is done, each stub that somebody may call is there, and
-- it leads to the function of a hook or to replaced code that is kept. A hook that is refused leaves
-- everything as it was.
import Detouring.Proofs.Detour.Cells
import Detouring.Proofs.Hook.Announcing
import Detouring.Proofs.Hook.Meeting
import Detouring.Proofs.Hook.Serving

namespace Detouring.World

open Op Machine

variable {μ : Nat} {added : Set Nat} {S : Store} {k : ChainKey} {w w' : World} {s : Stub}
  {m : Machine}

/-! ## Sessions -/

/-- A manager that was just made is in hand, and nothing is hooked. -/
structure Fresh (μ : Nat) (w : World) : Prop where
  keeps : w.platform.keepsReplacedCode = true
  inHand : w.manager = some μ
  manager : ∃ m, w.manager? μ = some m ∧ m.chains = []
  hooks : w.hooks = []
  detours : w.detours = []
  holds : w.machine.Holds []
  packed : w.machine.Packed

/-- What an act may be. A hooked method has a name that stays, and its code is code of others and
not at the very end of all addresses; handles are in use; a detoured method is compiled to a place
with room for a jump. -/
def Fits (μ : Nat) (w : World) : Act → Prop
  | .add source target placement =>
      w.nameOf (w.nameOf source) = w.nameOf source ∧ target < wordCount ∧
        w.Inland (w.nameOf source) ∧
        (w.after μ (.add source target placement)).Covered w.codeOfOthers ⟨μ, w.nameOf source⟩
  | .undo h => h ∈ w.hooks ∧ w.Inland h.chain.method ∧
      (w.after μ (.undo h)).Covered w.codeOfOthers h.chain
  | .drop h => h ∈ w.hooks ∧ w.Inland h.chain.method ∧
      (w.after μ (.drop h)).Covered w.codeOfOthers h.chain
  | .notice n => w.Moves (w.nameOf n.method) → w.machine.Code n.start

/-- The function of the hook that an act has added. -/
def addedBy (μ : Nat) (w : World) : Act → Set Nat
  | .add source target placement =>
      {t | t = target ∧ ∃ h, ((addHook μ source target placement).on w).1 = .ok h}
  | _ => ∅

/-- Others did something: they may write and map what they like, and take away what is theirs. What
was handed out is as it was, and code that jumps were written over is still there. -/
structure Untouched (w : World) (m : Machine) : Prop where
  holds : ∀ K, w.machine.Holds K → m.Holds K
  pages : m.arena.pages = w.machine.arena.pages
  bytes : ∀ b, w.machine.Live b → ∀ x, b.Has x → m.memory.bytes x = w.machine.memory.bytes x
  code : ∀ d ∈ w.detours, ∀ r, d.redirection = some r → r.Laid w.machine → r.Laid m

/-- What a session comes to, and the functions of all hooks that were ever added. -/
inductive Session (μ : Nat) : World → Set Nat → Prop where
  | start {w : World} (fresh : Fresh μ w) : Session μ w ∅
  | act {w : World} {added : Set Nat} (session : Session μ w added) (a : Act) (fits : Fits μ w a) :
      Session μ (w.after μ a) (added ∪ w.addedBy μ a)
  | others {w : World} {added : Set Nat} (session : Session μ w added) {machine : Machine}
      {runtime : Runtime} {events : List Event} (untouched : Untouched w machine)
      (names : ∀ m, w.nameOf m = m → World.nameOf { w with machine, runtime, events } m = m) :
      Session μ { w with machine, runtime, events } added

/-! ## What a session keeps -/

theorem Fresh.chain? (f : Fresh μ w) (ours : k.manager = μ) : w.chain? k = none := by
  obtain ⟨m, found, none⟩ := f.manager
  unfold World.chain?
  rw [ours, found]
  show m.chains.find? _ = _
  rw [none]
  rfl

theorem Fresh.kept (f : Fresh μ w) : Kept μ {} w ∧ Leads μ ∅ {} w := by
  obtain ⟨m, found, _⟩ := f.manager
  have empty : w.holdings = [] := by
    unfold holdings
    rw [f.detours]
    rfl
  refine ⟨⟨⟨⟨?_, ?_⟩, f.keeps, f.inHand, ⟨m, found, fun e me => (by cases me)⟩, List.nodup_nil,
    fun e me => (by cases me), ?_⟩, fun k c ours here => ?_, ?_, ⟨?_, fun s ms => (by cases ms)⟩,
    f.packed⟩, fun e me => (by cases me), fun e me => (by cases me), fun k p ours _ front => ?_⟩
  · rw [f.detours]
    exact List.nodup_nil
  · rw [f.detours]
    exact fun d md => (by cases md)
  · rw [f.hooks]
    exact fun h mh => (by cases mh)
  · cases (f.chain? ours).symm.trans here
  · rw [f.detours]
    exact fun d md => (by cases md)
  · rw [empty]
    exact f.holds
  · unfold front? at front
    rw [f.chain? ours] at front
    cases front

theorem after_add (w : World) (μ : Nat) (source : Method) (target : Nat)
    (placement : Option Placement) :
    w.after μ (.add source target placement) = ((addHook μ source target placement).on w).2 := by
  unfold after carryOut
  rw [on_bind]
  rcases (addHook μ source target placement).on w with ⟨_ | _, _⟩ <;> rfl

/-- The ledger is in order, and all stubs lead to functions that were added or to kept code. -/
def InService (μ : Nat) (added : Set Nat) (w : World) : Prop :=
  ∃ S, Kept μ S w ∧ Leads μ added S w

/-- What an act makes of the stubs, it makes of the session. -/
theorem Served.inService {code more : Set Nat} (served : Served μ code more k S w w')
    (covered : w'.Covered code k) (l : Leads μ added S w) : InService μ (added ∪ more) w' := by
  obtain ⟨S', kept, leads⟩ := served covered
  exact ⟨S', kept, leads _ (fun _ mt => Or.inr mt) (l.mono fun _ mt => Or.inl mt)⟩

theorem InService.act (i : InService μ added w) (a : Act) (fits : Fits μ w a) :
    InService μ (added ∪ w.addedBy μ a) (w.after μ a) := by
  obtain ⟨S, g, l⟩ := i
  have others : ∀ x ∈ w.codeOfOthers, w.machine.Foreign x := fun _ f => f
  cases a with
  | add source target placement =>
    obtain ⟨canonical, _, inland, covered⟩ := fits
    rw [after_add] at covered ⊢
    rcases (addHook_serves (k := ⟨μ, w.nameOf source⟩) g rfl rfl canonical others (fun _ => inland)
      target placement).run with ⟨h, ok, added⟩ | ⟨e, error, served, _⟩
    · have gained : w.addedBy μ (.add source target placement) = {target} :=
        Set.ext fun t => ⟨And.left, fun it => ⟨it, h, ok⟩⟩
      rw [gained]
      exact added.served.inService covered l
    · have gained : w.addedBy μ (.add source target placement) = ∅ :=
        Set.eq_empty_iff_forall_notMem.mpr fun t ⟨_, h, ok⟩ => by cases ok.symm.trans error
      rw [gained]
      exact served.inService covered l
  | undo h =>
    obtain ⟨mh, inland, covered⟩ := fits
    have served : Served μ w.codeOfOthers ∅ h.chain S w (w.after μ (.undo h)) :=
      left_of_ends ((undoHook_serves g mh others fun _ => inland).mono
        (fun _ _ u => u.served) fun _ u => u.served)
    exact served.inService covered l
  | drop h =>
    obtain ⟨mh, inland, covered⟩ := fits
    have served : Served μ w.codeOfOthers ∅ h.chain S w (w.after μ (.drop h)) :=
      left_of_ends ((dropHook_serves g mh others fun _ => inland).mono
        (fun _ _ d => d.served) fun _ d => d.served)
    exact served.inService covered l
  | notice n =>
    have attended : Attended μ S w (w.after μ (.notice n)) := left_of_ends (deliver_attends g fits)
    exact ⟨S, attended.kept, (l.guided attended.guided fun _ mt => (by cases mt)).mono
      fun _ mt => Or.inl mt⟩

/-- What others do to what is theirs is no harm. -/
theorem InService.others (i : InService μ added w) (u : Untouched w m) {runtime : Runtime}
    {events : List Event}
    (names : ∀ a, w.nameOf a = a → World.nameOf { w with machine := m, runtime, events } a = a) :
    InService μ added { w with machine := m, runtime, events } := by
  obtain ⟨S, g, l⟩ := i
  have same (s : Stub) (ms : s ∈ S.stubs) (x : Nat) (has : s.block.Has x) :
      m.memory.bytes x = w.machine.memory.bytes x :=
    u.bytes s.block (g.posts.holds.live (Posts.mem ms)) x has
  have target (s : Stub) (ms : s ∈ S.stubs) : s.target m = s.target w.machine :=
    (g.posts.stands s ms).word_congr (same s ms)
  refine ⟨S, ⟨⟨⟨g.numbered.ids, g.numbered.numbered⟩, g.keeps, g.inHand, g.counted, g.ids, g.ours,
    g.handles⟩, fun k c ours here => ?_, fun d md => ?_, ⟨u.holds _ g.posts.holds, fun s ms => ?_⟩,
    g.packed.of_pages u.pages⟩, l.targets, fun e me => ?_, fun k p ours patched front => ?_⟩
  · have h := g.chains k c ours here
    exact ⟨names _ h.name, h.books, h.nodes, h.proxy, h.root⟩
  · have h := g.detours d md
    exact ⟨h.idle, h.target, h.watched, h.root, fun r hr =>
      ⟨u.code d md r hr (h.laid r hr).1, (h.laid r hr).2⟩⟩
  · exact (g.posts.stands s ms).congr (same s ms)
  · show Goal _ _ (e.2.trampoline.target m)
    rw [target _ (Store.mem_of_hook me)]
    exact l.hooks e me
  · show Goal _ _ (p.target m)
    rw [target p (Store.mem_of_proxy (g.mem_of_front ours front))]
    exact l.fronts k p ours patched front

theorem Session.inService (session : Session μ w added) : InService μ added w := by
  induction session with
  | start fresh => exact ⟨{}, fresh.kept⟩
  | act _ a fits ih => exact ih.act a fits
  | others _ untouched names ih => exact ih.others untouched names

/-- The functions of hooks are addresses. -/
theorem Session.words (session : Session μ w added) : ∀ t ∈ added, t < wordCount := by
  induction session with
  | start => exact fun t mt => (by cases mt)
  | act _ a fits ih =>
    rintro t (mt | mt)
    · exact ih t mt
    · cases a with
      | add source target placement =>
        obtain ⟨rfl, _⟩ := mt
        exact fits.2.1
      | undo | drop | notice => cases mt
  | others _ _ _ ih => exact ih

/-! ## Where stubs lead -/

/-- The stub can be called: its block is handed out, and its jump leads to a function in `G` or to
replaced code that is kept. -/
structure Serves (G : Set Nat) (w : World) (s : Stub) : Prop where
  live : w.machine.Live s.block
  leads : ∃ a, w.machine.memory.jumpDestination? s.entry = some a ∧
    (a ∈ G ∨ ∃ b ∈ w.alternates, w.machine.Live b ∧ a = b.base)

/-- A stub that leads to a goal can be called. -/
theorem Kept.serves (g : Kept μ S w)
    (words : ∀ b ∈ w.machine.memory.places, b + pageSize ≤ wordCount) (small : ∀ t ∈ added, t < wordCount) (ms : s ∈ S.stubs)
    (goal : Goal added w (s.target w.machine)) : w.Serves added s := by
  have holds := g.posts.holds
  have stands := g.posts.stands s ms
  have size := stands.size
  have entered : s.entry + 8 < wordCount := by
    refine Memory.lt_wordCount_of_mapped words (holds.mapped (Posts.mem ms) ?_)
    exact ⟨Nat.le_add_right _ _, by unfold Stub.entry; omega⟩
  refine ⟨holds.live (Posts.mem ms), _, stands.jumpDestination? entered, ?_⟩
  rcases goal with ⟨t, mt, there⟩ | ⟨b, mb, there⟩
  · rw [Nat.mod_eq_of_lt (small t mt)] at there
    exact Or.inl (Set.mem_of_eq_of_mem there mt)
  · have held := List.mem_append_right (S.stubs.map Stub.block) (mem_holdings_of_alternate mb)
    have below : b.base < wordCount := Memory.lt_wordCount_of_mapped words
      (holds.mapped held ⟨Nat.le_refl _, Nat.lt_add_of_pos_right (holds.filled held)⟩)
    rw [Nat.mod_eq_of_lt below] at there
    exact Or.inr ⟨b, mb, holds.live held, there⟩

/-- At any time in a session, the trampoline of each hook whose handle is there can be called, and
so can the proxy of each method that is detoured. -/
theorem trampolines_and_proxies_can_be_called (session : Session μ w added)
    (words : ∀ b ∈ w.machine.memory.places, b + pageSize ≤ wordCount) :
    (∀ h ∈ w.hooks, w.Serves added h.node.trampoline) ∧
      ∀ k, k.manager = μ → (w.patched? k).isSome → ∃ p, w.front? k = some p ∧ w.Serves added p := by
  obtain ⟨S, g, l⟩ := session.inService
  have small := session.words
  refine ⟨fun h mh => ?_, fun k ours patched => ?_⟩
  · have me := g.handles h mh
    have ms : h.node.trampoline ∈ S.stubs := Store.mem_of_hook (e := (h.chain, h.node)) me
    exact g.serves words small ms (l.hooks (h.chain, h.node) me)
  · obtain ⟨r, there⟩ := Option.isSome_iff_exists.mp patched
    obtain ⟨p, front, mp⟩ := g.exists_front ours there
    exact ⟨p, front, g.serves words small (Store.mem_of_proxy mp) (l.fronts k p ours patched front)⟩

deriving instance DecidableEq for Stub
deriving instance DecidableEq for ChainNode
deriving instance DecidableEq for Hook

/-- A second hook of the function on the first page. -/
def secondHook : World := firstHook.after 0 (.add (.function 4096) 4104 none)

def firstHandle : Hook := ⟨firstKey, ⟨1, none, 4100, ⟨⟨8192, 16, true, 0⟩, 8⟩⟩, true⟩

theorem fresh_firstPage : Fresh 0 firstPage := by
  have regular : firstPage.machine.memory.Regular := ⟨by decide, by decide⟩
  exact ⟨by decide, rfl, ⟨_, rfl, rfl⟩, rfl, rfl,
    ⟨List.nodup_nil, ∅, .fresh rfl regular (by decide), fun _ mb => (by cases mb)⟩,
    fun p mp => (by cases mp)⟩

/-- The jump of five bytes at the start of the first page lies in code of others. -/
theorem covered_firstPage {w w' : World} {k : ChainKey}
    (jump : (w'.patched? k).map (fun r => (r.source, r.patch.jump.size)) = some (4096, 5))
    (mapped : 4096 ∈ w.machine.memory.places) (away : ∀ p ∈ w.machine.arena.pages, p.base ≠ 4096) :
    w'.Covered w.codeOfOthers k :=
  .of_jump jump fun _ _ =>
    foreign_of_page (by decide) mapped away (by omega) (by unfold pageSize; omega)

/-- The first of two hooks is undone. Its handle is still there, and its trampoline can be called;
so can the proxy. -/
theorem an_undone_hook_can_be_called : ∃ w added h, Session 0 w added ∧ h ∈ w.hooks ∧
    h.applied = false ∧ w.Serves added h.node.trampoline ∧ (w.patched? firstKey).isSome ∧
      ∃ p, w.front? firstKey = some p ∧ w.Serves added p := by
  have inland (w : World) : w.Inland (.function 4096) := inland_function (by decide) w
  have first : Fits 0 firstPage (.add (.function 4096) 4100 none) :=
    ⟨rfl, by decide, inland _, covered_firstPage (by decide +kernel) (by decide) (by decide)⟩
  have name : firstHook.nameOf (.function 4096) = .function 4096 := by decide +kernel
  have second : Fits 0 firstHook (.add (.function 4096) 4104 none) :=
    ⟨by decide +kernel, by decide, name.symm ▸ inland _,
      covered_firstPage (by decide +kernel) (by decide +kernel) (by decide +kernel)⟩
  have third : Fits 0 secondHook (.undo firstHandle) :=
    ⟨by decide +kernel, inland _,
      covered_firstPage (by decide +kernel) (by decide +kernel) (by decide +kernel)⟩
  have session := Session.act (.act (.act (.start fresh_firstPage) _ first) _ second) _ third
  have words : ∀ b ∈ (secondHook.after 0 (.undo firstHandle)).machine.memory.places,
      b + pageSize ≤ wordCount := by decide +kernel
  have there : { firstHandle with applied := false } ∈
      (secondHook.after 0 (.undo firstHandle)).hooks := by decide +kernel
  have patched : ((secondHook.after 0 (.undo firstHandle)).patched? firstKey).isSome := by
    decide +kernel
  obtain ⟨handles, proxies⟩ := trampolines_and_proxies_can_be_called session words
  exact ⟨_, _, _, session, there, rfl, handles _ there, patched, proxies firstKey rfl patched⟩

/-! ## Refused hooks -/

/-- The stub is still there, and it leads where it led. -/
structure Stays (s : Stub) (w w' : World) : Prop where
  live : w'.machine.Live s.block
  stands : s.Stands w'.machine.memory
  target : s.target w'.machine = s.target w.machine

/-- What a manager shows of its methods is as it was, and so are the handles, the stubs and the code
of others. -/
structure LeftAlone (μ : Nat) (w w' : World) : Prop where
  views : ∀ m, ((viewChain μ m).on w').1 = ((viewChain μ m).on w).1
  patched : ∀ k, k.manager = μ → w'.patched? k = w.patched? k
  handles : w'.hooks = w.hooks
  trampolines : ∀ h ∈ w.hooks, Stays h.node.trampoline w w'
  linked : ∀ k, k.manager = μ → ∀ n ∈ w.listed k, Stays n.trampoline w w'
  proxies : ∀ k p, k.manager = μ → w.front? k = some p → w'.front? k = some p ∧ Stays p w w'
  code : ∀ x, w.machine.Foreign x → w'.machine.memory.bytes x = w.machine.memory.bytes x
  patches : ∀ k r, k.manager = μ → w.patched? k = some r → ∀ i < r.patch.jump.size,
    w'.machine.memory.bytes (r.source + i) = w.machine.memory.bytes (r.source + i)

/-- What a manager shows of a method. -/
theorem viewChain_tells (w : World) (μ : Nat) (m : Method) :
    ((viewChain μ m).on w).1 = .ok ⟨w.nameOf m, w.listed ⟨μ, w.nameOf m⟩,
      (w.patched? ⟨μ, w.nameOf m⟩).bind Redirection.entry?,
      (w.patched? ⟨μ, w.nameOf m⟩).isSome⟩ := by
  rcases (viewChain_ends (w := w) (k := ⟨μ, w.nameOf m⟩) (m := m) rfl
    (E := fun _ => False)).run with ⟨view, ok, shown⟩ | ⟨_, _, never⟩
  · rw [ok, shown]
    unfold listed patched?
    rcases w.chain? ⟨μ, w.nameOf m⟩ with _ | c <;> rfl
  · exact never.elim

/-- What was left alone at one method, and at all others, was left alone. -/
theorem Unmoved.leftAlone {S' : Store} (u : Unmoved k S S' w w') (g : Kept μ S w)
    (g' : Kept μ S' w') (ours : k.manager = μ) (same : w'.listed k = w.listed k) : LeftAlone μ w w' := by
  have listed (k' : ChainKey) : w'.listed k' = w.listed k' := by
    by_cases it : k' = k
    · rw [it, same]
    · unfold World.listed
      rw [u.chains k' it]
  have patched (k' : ChainKey) (ours' : k'.manager = μ) : w'.patched? k' = w.patched? k' :=
    u.patched k' (ours'.trans ours.symm)
  have hooks : w'.hooks = w.hooks := (Prod.mk.inj u.held).1
  have stays {s : Stub} (ms : s ∈ S'.stubs) (target : s.target w'.machine = s.target w.machine) :
      Stays s w w' :=
    ⟨g'.posts.holds.live (Posts.mem ms), g'.posts.stands s ms, target⟩
  have kept {e : ChainKey × ChainNode} (me : e ∈ S'.hooks) : Stays e.2.trampoline w w' :=
    stays (Store.mem_of_hook me) (u.trampolines e me)
  have code (x : Nat) (f : w.machine.Foreign x) := (u.seeks.foreign f).2
  refine ⟨fun m => ?_, patched, hooks, fun h mh => ?_, fun k' ours' n mn => ?_,
    fun k' p ours' front => ⟨u.front k' p front, ?_⟩, code, fun k' r ours' there i hi => ?_⟩
  · rw [viewChain_tells, viewChain_tells, u.names, listed, patched _ rfl]
  · exact kept (g'.handles h (hooks.symm ▸ mh))
  · rw [← listed] at mn
    unfold World.listed at mn
    rcases here : w'.chain? k' with _ | c <;> rw [here] at mn
    · cases mn
    · exact kept ((g'.chains k' c ours' here).nodes n
        (List.mem_append_left _ (Chain.Books.mem_nodesOf mn)))
  · have mp := g.mem_of_front ours' front
    exact stays (Store.mem_of_proxy (u.proxies (k', p) mp)) (u.fronts (k', p) mp)
  · obtain ⟨c, _, patch⟩ := Option.bind_eq_some_iff.mp there
    obtain ⟨id, d, _, found, redirection⟩ := root_of_patchOf patch
    exact code _ (((g.found found).laid r redirection).1.foreign i hi)

/-- At any time in a session, a hook of a method that is detoured or that has no hooks may be
refused. Then nothing has changed. -/
theorem a_refused_hook_changes_nothing (session : Session μ w added) {source : Method}
    {target : Nat} {placement : Option Placement} {e : Fault}
    (canonical : w.nameOf (w.nameOf source) = w.nameOf source) (inland : w.Inland (w.nameOf source))
    (plain : (w.patched? ⟨μ, w.nameOf source⟩).isSome ∨
      ∀ c, w.chain? ⟨μ, w.nameOf source⟩ = some c → c.nodes = [])
    (refused : ((addHook μ source target placement).on w).1 = .error e) :
    LeftAlone μ w ((addHook μ source target placement).on w).2 := by
  obtain ⟨S, g, _⟩ := session.inService
  rcases (addHook_serves (k := ⟨μ, w.nameOf source⟩) g rfl rfl canonical
    (fun _ (ma : _ ∈ (∅ : Set Nat)) => ma.elim) (fun _ => inland) target placement).run with
    ⟨h, ok, _⟩ | ⟨_, _, _, spared⟩
  · cases ok.symm.trans refused
  · obtain ⟨S', futile⟩ := spared plain
    exact futile.unmoved.leftAlone g futile.kept rfl futile.listed

/-- Where no code is mapped, nothing can be hooked. -/
theorem a_hook_of_unmapped_code_changes_nothing : ∃ w added e, Session 0 w added ∧
    (w.patched? firstKey).isSome ∧
      ((addHook 0 (.function 65536) 4100 none).on w).1 = .error e ∧
        LeftAlone 0 w ((addHook 0 (.function 65536) 4100 none).on w).2 := by
  have first : Fits 0 firstPage (.add (.function 4096) 4100 none) :=
    ⟨rfl, by decide, inland_function (by decide) _,
      covered_firstPage (by decide +kernel) (by decide) (by decide)⟩
  have session : Session 0 firstHook _ := .act (.start fresh_firstPage) _ first
  have failed : ((addHook 0 (.function 65536) 4100 none).on firstHook).1.toOption.isNone := by
    decide +kernel
  have name : firstHook.nameOf (.function 65536) = .function 65536 := by decide +kernel
  have bare : (firstHook.chain? ⟨0, firstHook.nameOf (.function 65536)⟩).isNone := by decide +kernel
  rcases refused : ((addHook 0 (.function 65536) 4100 none).on firstHook).1 with e | h
  · refine ⟨firstHook, _, e, session, by decide +kernel, refused,
      a_refused_hook_changes_nothing session (by decide +kernel)
        (name.symm ▸ inland_function (by decide) _) (Or.inr fun c here => ?_) refused⟩
    rw [here] at bare
    cases bare
  · rw [refused] at failed
    cases failed

end Detouring.World
