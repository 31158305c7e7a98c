-- Detours that are in order: each has a number and blocks of its own, and a redirection that was
-- laid over code of others. They stay in order when one record changes, comes or goes.
import Detouring.Proofs.Detour.Operating
import Detouring.Proofs.Keyed
import Mathlib.Data.List.Flatten
import Mathlib.Logic.Function.Basic

namespace Detouring

open Machine

variable {m m' : Machine} {d d' : MethodDetour} {r : Redirection} {w w' : World} {id : Nat}

/-- The jumps of two redirections have no byte in common. -/
def Redirection.Apart (r r' : Redirection) : Prop :=
  r.source + r.patch.jump.size ≤ r'.source ∨ r'.source + r'.patch.jump.size ≤ r.source

/-- Foreign memory that was written over stays foreign. -/
theorem Redirection.Laid.later (h : r.Laid m) (foreign : ∀ x, m.Foreign x → m'.Foreign x) :
    r.Laid m' := { h with foreign := fun i hi => foreign _ (h.foreign i hi) }

/-- The detour is not at work, no chain of hooks watches it, and where it is applied, it was laid
over code of others. -/
structure MethodDetour.Settled (d : MethodDetour) (w : World) : Prop where
  idle : d.busy = false
  unchained : ∀ k, d.watcher ≠ .chain k
  laid : ∀ r, d.redirection = some r → r.Laid w.machine
  callable : w.platform.keepsReplacedCode = true → ∀ r, d.redirection = some r →
    r.alternate.isSome

theorem MethodDetour.Settled.later (h : d.Settled w)
    (foreign : ∀ x, w.machine.Foreign x → w'.machine.Foreign x)
    (platform : w'.platform = w.platform) : d.Settled w' :=
  ⟨h.idle, h.unchained, fun r hr => (h.laid r hr).later foreign,
    fun keeps => h.callable (platform ▸ keeps)⟩

theorem MethodDetour.Settled.of_bare (bare : d.redirection = none) (idle : d.busy = false)
    (unchained : ∀ k, d.watcher ≠ .chain k) : d.Settled w :=
  ⟨idle, unchained, fun _ hr => (by cases bare.symm.trans hr),
    fun _ _ hr => (by cases bare.symm.trans hr)⟩

theorem MethodDetour.Settled.of_patched (patched : d.redirection = some r) (idle : d.busy = false)
    (unchained : ∀ k, d.watcher ≠ .chain k) (laid : r.Laid w.machine)
    (callable : w.platform.keepsReplacedCode = true → r.alternate.isSome) : d.Settled w := by
  refine ⟨idle, unchained, fun r' hr => ?_, fun keeps r' hr => ?_⟩ <;>
    obtain rfl := Option.some.inj (patched.symm.trans hr)
  · exact laid
  · exact callable keeps

namespace World

/-! ## Lists of records -/

/-- The blocks that detours have. -/
def holdings (w : World) : List Block := w.detours.flatMap MethodDetour.blocks

/-- The redirection of a detour, while it is applied. -/
def redirection? (w : World) (id : Nat) : Option Redirection :=
  (w.detour? id).bind MethodDetour.redirection

/-- The methods of a detour, and its factory. -/
def methods? (w : World) (id : Nat) : Option (Method × Method × Nat) :=
  (w.detour? id).map fun d => (d.source, d.target, d.factory)

/-- A record and the others make up the list. -/
theorem perm_without {l : List MethodDetour} (ids : (l.map MethodDetour.id).Nodup) (md : d ∈ l) :
    l.Perm (d :: l.filter (·.id != d.id)) := by
  induction l with
  | nil => cases md
  | cons x rest ih =>
    obtain ⟨new, ids⟩ := List.nodup_cons.mp ids
    rcases List.mem_cons.mp md with rfl | md
    · have others : rest.filter (·.id != d.id) = rest := by
        refine List.filter_eq_self.mpr fun y my => ?_
        have : y.id ≠ d.id := fun same => new (same ▸ List.mem_map_of_mem my)
        simpa using this
      simp [others]
    · have other : x.id ≠ d.id := fun same => new (same ▸ List.mem_map_of_mem md)
      rw [List.filter_cons_of_pos (by simpa using other)]
      exact ((ih ids md).cons x).trans (List.Perm.swap d x _)

theorem ids_put (w : World) (d : MethodDetour) :
    (w.put d).detours.map MethodDetour.id = w.detours.map MethodDetour.id := by
  unfold put
  rw [List.map_map]
  refine List.map_congr_left fun x _ => ?_
  by_cases it : x.id = d.id <;> simp [it]

theorem mem_put (md : d' ∈ (w.put d).detours) : d' = d ∨ d' ∈ w.detours := by
  obtain ⟨x, mx, rfl⟩ := List.mem_map.mp md
  split
  · exact Or.inl rfl
  · exact Or.inr mx

theorem detour?_without (w : World) (id other : Nat) :
    (w.without id).detour? other = if other = id then none else w.detour? other := by
  unfold detour? without
  dsimp only
  induction w.detours with
  | nil => simp
  | cons x rest ih =>
    by_cases gone : x.id = id
    · have out : (x.id != id) = false := by simpa using gone
      rw [List.filter_cons_of_neg (by simp [out]), ih]
      split
      · rfl
      · have : (x.id == other) = false := by simpa [gone] using Ne.symm ‹¬other = id›
        rw [List.find?_cons_of_neg (by simp [this])]
    · rw [List.filter_cons_of_pos (by simpa using gone)]
      by_cases it : x.id = other
      · have : other ≠ id := it ▸ gone
        simp [it, this]
      · have this : (x.id == other) = false := by simpa using it
        rw [List.find?_cons_of_neg (by simp [this]), List.find?_cons_of_neg (by simp [this]), ih]

/-- The blocks of one detour, and those of the others. -/
theorem holdings_perm (ids : (w.detours.map MethodDetour.id).Nodup) (md : d ∈ w.detours) :
    w.holdings.Perm (d.blocks ++ (w.without d.id).holdings) :=
  (perm_without ids md).flatMap_right MethodDetour.blocks

theorem holdings_register (w : World) (nothing : d.blocks = []) :
    (w.register d).holdings = w.holdings := by
  unfold holdings World.register
  rw [List.flatMap_append, List.flatMap_singleton, nothing, List.append_nil]

/-! ## Numbers -/

/-- Each detour has a number of its own, and there are more numbers. -/
structure Numbered (w : World) : Prop where
  ids : (w.detours.map MethodDetour.id).Nodup
  numbered : ∀ d ∈ w.detours, d.id < w.nextDetour

namespace Numbered

theorem found_iff (n : w.Numbered) : w.detour? id = some d ↔ d ∈ w.detours ∧ d.id = id :=
  Keyed.find?_eq_some_iff n.ids

/-- A detour that has yet to be made is none of those that there are. -/
theorem detour?_next (n : w.Numbered) : w.detour? w.nextDetour = none := by
  refine List.find?_eq_none.mpr fun x mx => ?_
  have := n.numbered x mx
  simp only [beq_iff_eq]
  omega

/-- Putting a record where it is changes nothing. -/
theorem put_self (n : w.Numbered) (found : w.detour? d.id = some d) : w.put d = w := by
  have here := (n.found_iff.mp found).1
  have same : w.detours.map (fun x => if x.id = d.id then d else x) = w.detours := by
    refine (List.map_congr_left fun x mx => ?_).trans (List.map_id _)
    split
    · rename_i it
      exact Option.some.inj (found.symm.trans (n.found_iff.mpr ⟨mx, it⟩))
    · rfl
  unfold put
  rw [same]

theorem beside (n : w.Numbered) (b : w.Beside w') : w'.Numbered :=
  ⟨b.detours ▸ n.ids, fun x mx => b.nextDetour ▸ n.numbered x (b.detours ▸ mx)⟩

theorem becomes (n : w.Numbered) (b : w.Becomes d w') (found : w.detour? d.id = some d') :
    w'.Numbered := by
  refine beside (w := w.put d) ⟨?_, fun x mx => ?_⟩ b
  · rw [ids_put]
    exact n.ids
  · rcases mem_put mx with rfl | mx
    · have old := n.numbered d' (List.mem_of_find?_eq_some found)
      rwa [id_of_detour found] at old
    · exact n.numbered x mx

theorem without (n : w.Numbered) (id : Nat) : (w.without id).Numbered :=
  ⟨n.ids.sublist (List.filter_sublist.map _), fun x mx => n.numbered x (List.mem_of_mem_filter mx)⟩

theorem register (n : w.Numbered) (next : d.id = w.nextDetour) : (w.register d).Numbered := by
  refine ⟨?_, fun x mx => ?_⟩
  · unfold World.register
    rw [List.map_append, List.nodup_append]
    refine ⟨n.ids, List.nodup_singleton _, fun a ma b mb => ?_⟩
    obtain ⟨x, mx, rfl⟩ := List.mem_map.mp ma
    obtain rfl := List.mem_singleton.mp mb
    have := n.numbered x mx
    omega
  · show x.id < d.id + 1
    rcases List.mem_append.mp mx with mx | mx
    · have := n.numbered x mx
      omega
    · obtain rfl := List.mem_singleton.mp mx
      exact Nat.lt_succ_self _

end Numbered

theorem Becomes.holdings_perm (b : w.Becomes d w') (n : w.Numbered)
    (found : w.detour? d.id = some d') :
    w'.holdings.Perm (d.blocks ++ (w.without d.id).holdings) := by
  have here : d ∈ w'.detours := List.mem_of_find?_eq_some (b.detour? found)
  have others : (w'.without d.id).holdings = (w.without d.id).holdings := by
    have gone := (Beside.without b d.id).detours
    rw [without_put] at gone
    exact congrArg (List.flatMap MethodDetour.blocks) gone
  rw [← others]
  exact World.holdings_perm (n.becomes b found).ids here

/-! ## Redirections -/

theorem redirection?_of_found (found : w.detour? id = some d) :
    w.redirection? id = d.redirection := by
  unfold redirection?
  rw [found]
  rfl

theorem methods?_of_found (found : w.detour? id = some d) :
    w.methods? id = some (d.source, d.target, d.factory) := by
  unfold methods?
  rw [found]
  rfl

theorem exists_of_redirection (h : w.redirection? id = some r) :
    ∃ d ∈ w.detours, d.id = id ∧ d.redirection = some r := by
  obtain ⟨d, found, patched⟩ := Option.bind_eq_some_iff.mp h
  exact ⟨d, List.mem_of_find?_eq_some found, id_of_detour found, patched⟩

theorem mem_holdings (there : w.redirection? id = some r) {b : Block} (mb : b ∈ r.blocks) :
    b ∈ w.holdings := by
  obtain ⟨d, md, _, patched⟩ := exists_of_redirection there
  refine List.mem_flatMap.mpr ⟨d, md, ?_⟩
  rw [MethodDetour.blocks_of_patched patched]
  exact List.mem_append_left _ mb

/-- The blocks of another redirection. -/
theorem mem_holdings_without {other : Nat} (beside : other ≠ id)
    (there : w.redirection? other = some r) {b : Block} (mb : b ∈ r.blocks) :
    b ∈ (w.without id).holdings := by
  obtain ⟨d, md, rfl, patched⟩ := exists_of_redirection there
  have kept : d ∈ (w.without id).detours := List.mem_filter.mpr ⟨md, by simpa using beside⟩
  refine List.mem_flatMap.mpr ⟨d, kept, ?_⟩
  rw [MethodDetour.blocks_of_patched patched]
  exact List.mem_append_left _ mb

theorem redirection?_of_none (none : w.detour? id = none) : w.redirection? id = .none := by
  unfold redirection?
  rw [none]
  rfl

theorem Beside.redirection? (b : w.Beside w') : w'.redirection? = w.redirection? :=
  funext fun id => congrArg (·.bind MethodDetour.redirection) (b.detour? id)

theorem Becomes.redirection? (b : w.Becomes d w') (found : w.detour? d.id = some d') :
    w'.redirection? = Function.update w.redirection? d.id d.redirection := by
  funext other
  unfold World.redirection?
  by_cases it : other = d.id
  · subst it
    rw [b.detour? found, Function.update_self]
    rfl
  · rw [b.detour?_of_ne it, Function.update_of_ne it]

theorem Beside.methods? (b : w.Beside w') : w'.methods? = w.methods? :=
  funext fun id => congrArg (Option.map _) (b.detour? id)

theorem Becomes.methods?_of_names (b : w.Becomes d w') (found : w.detour? d.id = some d')
    (names : (d.source, d.target, d.factory) = (d'.source, d'.target, d'.factory)) :
    w'.methods? = w.methods? := by
  funext other
  unfold World.methods?
  by_cases it : other = d.id
  · subst it
    rw [b.detour? found, found]
    exact congrArg some names
  · rw [b.detour?_of_ne it]

theorem Becomes.methods? (b : w.Becomes d w') (found : w.detour? d.id = some d')
    (same : d'.Alike d) : w'.methods? = w.methods? :=
  b.methods?_of_names found (by rw [same.source, same.target, same.factory])

theorem exists_methods (h : w.redirection? id = some r) :
    ∃ source target factory, w.methods? id = some (source, target, factory) := by
  obtain ⟨d, found, _⟩ := Option.bind_eq_some_iff.mp h
  exact ⟨d.source, d.target, d.factory, methods?_of_found found⟩

theorem Loses.redirection? (l : w.Loses id w') :
    w'.redirection? = Function.update w.redirection? id none := by
  funext other
  unfold World.redirection?
  rw [Beside.detour? l, detour?_without]
  by_cases it : other = id
  · subst it
    rw [if_pos rfl, Function.update_self]
    rfl
  · rw [if_neg it, Function.update_of_ne it]

/-- A new detour is not applied. -/
theorem Numbered.redirection?_register (n : w.Numbered) (next : d.id = w.nextDetour)
    (bare : d.redirection = none) : (w.register d).redirection? = w.redirection? := by
  funext id
  unfold World.redirection? detour? World.register
  rw [List.find?_append]
  by_cases it : d.id = id
  · have new : w.detours.find? (·.id == id) = none := it ▸ next ▸ n.detour?_next
    simp [new, it, bare]
  · simp [it]

/-! ## Order -/

/-- Each detour has a number and blocks of its own. -/
structure Orderly (w : World) : Prop where
  ids : (w.detours.map MethodDetour.id).Nodup
  numbered : ∀ d ∈ w.detours, d.id < w.nextDetour
  holds : w.machine.Holds w.holdings
  settled : ∀ d ∈ w.detours, d.Settled w

namespace Orderly

theorem toNumbered (o : w.Orderly) : w.Numbered := ⟨o.ids, o.numbered⟩

theorem found_iff (o : w.Orderly) : w.detour? id = some d ↔ d ∈ w.detours ∧ d.id = id :=
  o.toNumbered.found_iff

theorem redirection? (o : w.Orderly) (md : d ∈ w.detours) :
    w.redirection? d.id = d.redirection :=
  redirection?_of_found (o.found_iff.mpr ⟨md, rfl⟩)

theorem exists_of_redirection (_ : w.Orderly) (h : w.redirection? id = some r) :
    ∃ d ∈ w.detours, d.id = id ∧ d.redirection = some r := World.exists_of_redirection h

theorem methods? (o : w.Orderly) (md : d ∈ w.detours) :
    w.methods? d.id = some (d.source, d.target, d.factory) :=
  methods?_of_found (o.found_iff.mpr ⟨md, rfl⟩)

theorem exists_of_methods {source target : Method} {factory : Nat} (o : w.Orderly)
    (h : w.methods? id = some (source, target, factory)) :
    ∃ d ∈ w.detours, d.id = id ∧ d.source = source ∧ d.target = target ∧ d.factory = factory := by
  obtain ⟨d, found, same⟩ := Option.map_eq_some_iff.mp h
  obtain ⟨md, it⟩ := o.found_iff.mp found
  obtain ⟨ofSource, rest⟩ := Prod.mk.inj same
  exact ⟨d, md, it, ofSource, Prod.mk.inj rest⟩

theorem detour?_next (o : w.Orderly) : w.detour? w.nextDetour = none := o.toNumbered.detour?_next

/-- The blocks of one detour and those of the others are held. -/
theorem holds_of (o : w.Orderly) (md : d ∈ w.detours) :
    w.machine.Holds (d.blocks ++ (w.without d.id).holdings) :=
  o.holds.mono (holdings_perm o.ids md).symm.subperm

/-- Of the detours, one has changed. -/
theorem becomes (o : w.Orderly) (b : w.Becomes d w') (found : w.detour? d.id = some d')
    (holds : w'.machine.Holds (d.blocks ++ (w.without d.id).holdings))
    (foreign : ∀ x, w.machine.Foreign x → w'.machine.Foreign x) (settled : d.Settled w') :
    w'.Orderly := by
  have n := o.toNumbered.becomes b found
  refine ⟨n.ids, n.numbered, holds.mono (b.holdings_perm o.toNumbered found).subperm,
    fun x mx => ?_⟩
  rcases mem_put ((show w'.detours = (w.put d).detours from b.detours) ▸ mx) with rfl | mx
  · exact settled
  · exact (o.settled x mx).later foreign b.platform

theorem beside (o : w.Orderly) (b : w.Beside w') (holds : w'.machine.Holds w.holdings)
    (foreign : ∀ x, w.machine.Foreign x → w'.machine.Foreign x) : w'.Orderly := by
  have n := o.toNumbered.beside b
  refine ⟨n.ids, n.numbered, ?_, fun x mx => ?_⟩
  · unfold holdings
    rw [b.detours]
    exact holds
  · exact (o.settled x (b.detours ▸ mx)).later foreign b.platform

theorem quiet (o : w.Orderly) (q : w.Quiet w') : w'.Orderly :=
  have still := Gains.of_arena o.holds q.arena
  o.beside q.toBeside still.holds still.foreign

theorem loses (o : w.Orderly) (l : w.Loses id w')
    (holds : w'.machine.Holds (w.without id).holdings)
    (foreign : ∀ x, w.machine.Foreign x → w'.machine.Foreign x) : w'.Orderly := by
  have n := o.toNumbered.without id
  refine beside (w := w.without id) ⟨n.ids, n.numbered, o.holds.mono ?_, fun x mx => ?_⟩ l holds
    foreign
  · exact (List.filter_sublist.flatMap _).subperm
  · exact (o.settled x (List.mem_of_mem_filter mx)).later (fun _ f => f) rfl

/-- A new detour has nothing yet. -/
theorem register (o : w.Orderly) (next : d.id = w.nextDetour) (bare : d.redirection = none)
    (empty : d.retired = []) (idle : d.busy = false) (unchained : ∀ k, d.watcher ≠ .chain k) :
    (w.register d).Orderly := by
  have n := o.toNumbered.register next
  refine ⟨n.ids, n.numbered, ?_, fun x mx => ?_⟩
  · rw [holdings_register w ((MethodDetour.blocks_of_bare bare).trans empty)]
    exact o.holds
  · rcases List.mem_append.mp mx with mx | mx
    · exact (o.settled x mx).later (fun _ f => f) rfl
    · obtain rfl := List.mem_singleton.mp mx
      exact .of_bare bare idle unchained

end Orderly

end World

end Detouring
