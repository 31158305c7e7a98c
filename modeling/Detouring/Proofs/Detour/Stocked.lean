-- Detours that have the cells of their jumps, whatever others write over their code. A notice moves
-- the detours of the method that was compiled; all other jumps stay where they are, each with its
-- cell.
import Detouring.Proofs.Detour.Following
import Detouring.Proofs.Jump.Keeping

namespace Detouring

open Op Machine

variable {K L : List Block} {d d' : MethodDetour} {r : Redirection} {S : Set Method}
  {w w' w'' w₀ : World} {id : Nat} {E : World → Prop}

/-- No chain of hooks watches the detour, and its jump has kept the bytes that it covers. -/
structure MethodDetour.Fit (d : MethodDetour) : Prop where
  unchained : ∀ k, d.watcher ≠ .chain k
  whole : ∀ r, d.redirection = some r → r.patch.Whole

theorem MethodDetour.Fit.of_bare (unchained : ∀ k, d.watcher ≠ .chain k)
    (bare : d.redirection = none) : d.Fit :=
  ⟨unchained, fun _ hr => (by cases bare.symm.trans hr)⟩

theorem MethodDetour.Fit.of_patched (unchained : ∀ k, d.watcher ≠ .chain k)
    (patched : d.redirection = some r) (whole : r.patch.Whole) : d.Fit := by
  refine ⟨unchained, fun r' hr => ?_⟩
  obtain rfl := Option.some.inj (patched.symm.trans hr)
  exact whole

namespace World

/-! ## Blocks -/

/-- Each detour has blocks of its own, and somebody else has `K`. -/
structure Stocked (K : List Block) (w : World) : Prop extends Numbered w where
  holds : w.machine.Holds (w.holdings ++ K)
  fit : ∀ d ∈ w.detours, d.Fit

namespace Stocked

/-- The blocks of one detour, of the others, and of somebody else. -/
theorem holds_of (s : w.Stocked K) (md : d ∈ w.detours) :
    w.machine.Holds (d.blocks ++ ((w.without d.id).holdings ++ K)) := by
  rw [← List.append_assoc]
  exact s.holds.mono ((holdings_perm s.ids md).append_right K).symm.subperm

theorem becomes (s : w.Stocked K) (b : w.Becomes d w') (found : w.detour? d.id = some d')
    (holds : w'.machine.Holds (d.blocks ++ ((w.without d.id).holdings ++ L))) (fit : d.Fit) :
    w'.Stocked L := by
  refine ⟨s.toNumbered.becomes b found, holds.mono ?_, fun x mx => ?_⟩
  · rw [← List.append_assoc]
    exact ((b.holdings_perm s.toNumbered found).append_right L).subperm
  · rcases mem_put ((show w'.detours = (w.put d).detours from b.detours) ▸ mx) with rfl | mx
    · exact fit
    · exact s.fit x mx

theorem beside (s : w.Stocked K) (b : w.Beside w')
    (holds : w'.machine.Holds (w.holdings ++ L)) : w'.Stocked L := by
  refine ⟨s.toNumbered.beside b, ?_, fun x mx => s.fit x (b.detours ▸ mx)⟩
  unfold holdings
  rw [b.detours]
  exact holds

theorem quiet (s : w.Stocked K) (q : w.Quiet w') : w'.Stocked K :=
  s.beside q.toBeside (s.holds.of_arena q.arena)

theorem loses (s : w.Stocked K) (l : w.Loses id w')
    (holds : w'.machine.Holds ((w.without id).holdings ++ L)) : w'.Stocked L := by
  have sub : (w.without id).detours.Sublist w.detours := List.filter_sublist
  refine beside (w := w.without id) (K := K) ⟨s.toNumbered.without id, s.holds.mono ?_,
    fun x mx => s.fit x (sub.subset mx)⟩ l holds
  exact ((sub.flatMap _).append (List.Sublist.refl K)).subperm

/-- A new detour has nothing yet. -/
theorem register (s : w.Stocked K) (next : d.id = w.nextDetour) (bare : d.redirection = none)
    (empty : d.retired = []) (unchained : ∀ k, d.watcher ≠ .chain k) :
    (w.register d).Stocked K := by
  refine ⟨s.toNumbered.register next, ?_, fun x mx => ?_⟩
  · rw [holdings_register w ((MethodDetour.blocks_of_bare bare).trans empty)]
    exact s.holds
  · rcases List.mem_append.mp mx with mx | mx
    · exact s.fit x mx
    · obtain rfl := List.mem_singleton.mp mx
      exact .of_bare unchained bare

end Stocked

/-! ## Jumps that stay -/

/-- The source of the detour is one of the methods. -/
def Renewed (w : World) (S : Set Method) (id : Nat) : Prop :=
  ∃ source ∈ S, ∃ target factory, w.methods? id = some (source, target, factory)

/-- Fresh code of methods may have been announced. The jumps of detours of other methods stay where
they are, and no detour was applied. -/
structure Passes (S : Set Method) (w w' : World) : Prop where
  names : ∀ m, w'.nameOf m = w.nameOf m
  silent : ∀ m, w.runtime.Silent m → w'.runtime.Silent m
  methods : ∀ id names, w.methods? id = some names → w'.methods? id = some names
  bare : ∀ id, w.redirection? id = none → w'.redirection? id = none
  stays : ∀ id r, w.redirection? id = some r →
    w.Renewed S id ∨ ∃ r', w'.redirection? id = some r' ∧ r.patch.Stays r'.patch

/-- Each jump through a cell stays where it is, or it is gone, unless fresh code of its method may
have been announced. -/
def Upholds (S : Set Method) (w w' : World) : Prop :=
  ∀ id r c, w.redirection? id = some r → r.patch.jump.cell? = some c → w.Renewed S id ∨
    (∃ r', w'.redirection? id = some r' ∧ r.patch.Stays r'.patch) ∨
    r.patch.Gone w'.machine.memory

namespace Passes

theorem of_beside (b : w.Beside w') : w.Passes S w' := by
  refine ⟨b.names, b.silent, fun id names h => ?_, fun id h => ?_,
    fun id r h => Or.inr ⟨r, ?_, .refl _⟩⟩
  · rw [b.methods?]
    exact h
  · rw [b.redirection?]
    exact h
  · rw [b.redirection?]
    exact h

theorem renewed (p : w.Passes S w') (there : w.redirection? id = some r)
    (h : w'.Renewed S id) : w.Renewed S id := by
  obtain ⟨source, ms, target, factory, names⟩ := h
  obtain ⟨source', target', factory', names'⟩ := exists_methods there
  obtain ⟨rfl, _⟩ := Prod.mk.inj (Option.some.inj ((p.methods id _ names').symm.trans names))
  exact ⟨_, ms, _, _, names'⟩

theorem trans (p : w.Passes S w') (p' : w'.Passes S w'') : w.Passes S w'' := by
  refine ⟨fun m => (p'.names m).trans (p.names m), fun m h => p'.silent m (p.silent m h),
    fun id names h => p'.methods id names (p.methods id names h),
    fun id h => p'.bare id (p.bare id h), fun id r h => ?_⟩
  rcases p.stays id r h with renewed | ⟨r', there, stays⟩
  · exact Or.inl renewed
  · exact (p'.stays id r' there).imp (p.renewed h)
      fun ⟨r'', there', stays'⟩ => ⟨r'', there', stays.trans stays'⟩

theorem upholds (p : w.Passes S w') : w.Upholds S w' := fun id r _ h _ =>
  (p.stays id r h).imp_right Or.inl

/-- What is upheld later on was upheld all along. -/
theorem andUpholds (p : w.Passes S w') (u : w'.Upholds S w'') : w.Upholds S w'' := by
  intro id r c h hc
  rcases p.stays id r h with renewed | ⟨r', there, stays⟩
  · exact Or.inl renewed
  · rcases u id r' c there (stays.cell c hc).1 with renewed | ⟨r'', there', stays'⟩ | gone
    · exact Or.inl (p.renewed h renewed)
    · exact Or.inr (Or.inl ⟨r'', there', stays.trans stays'⟩)
    · exact Or.inr (Or.inr (stays.gone hc gone))

/-- One record has changed. -/
theorem of_becomes (b : w.Becomes d' w') (found : w.detour? d'.id = some d)
    (names : (d'.source, d'.target, d'.factory) = (d.source, d.target, d.factory))
    (bare : d.redirection = none → d'.redirection = none)
    (stays : ∀ r, d.redirection = some r →
      d.source ∈ S ∨ ∃ r', d'.redirection = some r' ∧ r.patch.Stays r'.patch) :
    w.Passes S w' := by
  have redirections := b.redirection? found
  refine ⟨b.names, b.silent, fun id _ h => ?_, fun id h => ?_, fun id r h => ?_⟩
  · rw [b.methods?_of_names found names]
    exact h
  · rw [redirections]
    by_cases it : id = d'.id
    · subst it
      rw [Function.update_self]
      exact bare ((redirection?_of_found found).symm.trans h)
    · rw [Function.update_of_ne it]
      exact h
  · rw [redirections]
    by_cases it : id = d'.id
    · subst it
      rw [Function.update_self]
      refine (stays r ((redirection?_of_found found).symm.trans h)).imp_left fun ms => ?_
      exact ⟨d.source, ms, d.target, d.factory, methods?_of_found found⟩
    · rw [Function.update_of_ne it]
      exact Or.inr ⟨r, h, .refl _⟩

end Passes

/-! ## Notices -/

/-- The detours were told of fresh code, and they have their blocks. -/
structure Heeds (K : List Block) (S : Set Method) (w w' : World) : Prop where
  stocked : w'.Stocked K
  passes : w.Passes S w'

theorem Heeds.refl (s : w.Stocked K) : w.Heeds K S w := ⟨s, .of_beside (Quiet.refl w).toBeside⟩

theorem Heeds.trans (h : w.Heeds K S w') (h' : w'.Heeds K S w'') : w.Heeds K S w'' :=
  ⟨h'.stocked, h.passes.trans h'.passes⟩

theorem Heeds.quiet (h : w.Heeds K S w') (q : w'.Quiet w'') : w.Heeds K S w'' :=
  ⟨h.stocked.quiet q, h.passes.trans (.of_beside q.toBeside)⟩

theorem followSource_heeds {start size : Nat} (s : w.Stocked K) (found : w.detour? d.id = some d)
    (patched : d.redirection = some r) (renewed : d.source ∈ S) :
    (followSource d r start size (tellWatcher d.watcher)).Ends w (fun _ => w.Heeds K S)
      (w.Heeds K S) := by
  have md := List.mem_of_find?_eq_some found
  have unchained := (s.fit d md).unchained
  have holds := s.holds_of md
  rw [MethodDetour.blocks_of_patched patched, List.append_assoc] at holds
  have given := Redirection.abandon_gains holds
  have bare (none : d.redirection = none) : False := by cases patched.symm.trans none
  apply (followSource_becomes found unchained
    (Redirection.create_keeps given.holds _ _ start r.target (some size))).mono
  · rintro ⟨⟩ w' ⟨fresh, m₁, becomes, ⟨whole, held⟩, same⟩
    refine ⟨s.becomes becomes found ?_ (.of_patched unchained rfl whole), .of_becomes becomes found
      rfl (fun none => (bare none).elim) fun _ _ => Or.inl renewed⟩
    rw [MethodDetour.blocks_of_patched rfl, List.append_assoc]
    exact (held.mono ((d.perm_withdrawn r _).append_left _).subperm).of_arena same
  · rintro w' ⟨becomes, held⟩
    refine ⟨s.becomes becomes found ?_ (.of_bare unchained rfl), .of_becomes becomes found rfl
      (fun _ => rfl) fun _ _ => Or.inl renewed⟩
    rw [MethodDetour.blocks_of_bare rfl]
    exact held.mono (d.perm_withdrawn r _).subperm

theorem followTarget_heeds {start : Nat} (s : w.Stocked K) (found : w.detour? d.id = some d)
    (patched : d.redirection = some r) :
    (followTarget d r start).Ends w (fun _ => w.Heeds K S) (w.Heeds K S) := by
  have md := List.mem_of_find?_eq_some found
  have fit := s.fit d md
  have holds := s.holds_of md
  rw [MethodDetour.blocks_of_patched patched, List.append_assoc] at holds
  apply (followTarget_becomes
    (Redirection.retarget_keeps (fit.whole r patched) holds start)).mono
  · rintro ⟨⟩ w' ⟨r', becomes, whole, stays, held⟩
    refine ⟨s.becomes becomes found ?_ (.of_patched fit.unchained rfl whole), .of_becomes becomes
      found rfl (fun none => (by cases patched.symm.trans none)) ?_⟩
    · rw [MethodDetour.blocks_of_patched rfl, List.append_assoc]
      exact held
    · intro r'' hr
      obtain rfl := Option.some.inj (patched.symm.trans hr)
      exact Or.inr ⟨r', rfl, stays⟩
  · rintro w' ⟨beside, held⟩
    refine ⟨s.beside beside (held.mono ?_), .of_beside beside⟩
    have parts := (holdings_perm s.ids md).append_right K
    rw [MethodDetour.blocks_of_patched patched, List.append_assoc, List.append_assoc] at parts
    exact parts.subperm

theorem followOrReport_heeds {method : Method} {start size : Nat} (s : w.Stocked K)
    (renewed : method ∈ S) :
    (followOrReport method start size id).Ends w (fun _ => w.Heeds K S) E := by
  have followed : (follow (fun d => tellWatcher d.watcher) id method start size).Ends w
      (fun _ => w.Heeds K S) (w.Heeds K S) := by
    refine follow_ends (fun _ => .refl s) (fun _ _ _ => .refl s) ?_ ?_
    · intro d r found patched _ ofSource
      obtain rfl := id_of_detour found
      exact followSource_heeds s found patched (ofSource ▸ renewed)
    · intro d r found patched _ _ _
      obtain rfl := id_of_detour found
      exact followTarget_heeds s found patched
  exact followOrReport_left followed fun _ _ heeds quiet => heeds.quiet quiet

theorem Heeds.deliver {n : CompiledMethod} (h : w₀.Heeds K S w) (renewed : w₀.nameOf n.method ∈ S) :
    (World.deliver n).Ends w (fun _ => w₀.Heeds K S) E := by
  have named (w : World) (h : w₀.Heeds K S w) : w.nameOf n.method = w₀.nameOf n.method :=
    h.passes.names _
  refine deliver_keeps h (fun _ _ quiet h => h.quiet quiet) named fun other w h => ?_
  exact (followOrReport_heeds h.stocked renewed).mono (fun _ _ more => h.trans more) fun _ h => h

/-- Compiling a method that has fresh code to announce brings a notice about it. -/
theorem lasts_heeds {m : Method} (renewed : ¬ w₀.runtime.Silent m → w₀.nameOf m ∈ S) :
    Lasts m (w₀.Heeds K S) := by
  refine ⟨fun _ _ calm h => h.quiet calm.toQuiet,
    fun w token start size before tells known w' h => h.deliver ?_⟩
  show w₀.nameOf (.token token) ∈ S
  rw [← known, nameOf_canonical]
  exact renewed fun silent => tells.not_silent (before.passes.silent m silent)

end World

end Detouring
