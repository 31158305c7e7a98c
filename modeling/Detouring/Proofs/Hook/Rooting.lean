-- Detouring the method of a chain to its proxy, and undoing that. The hooks are linked before the
-- jump is written; if the jump cannot be written the method is as it was.
import Detouring.Proofs.Detour.Operating
import Detouring.Proofs.Hook.Upkeep

namespace Detouring.World

open Op Machine

variable {k : ChainKey} {code : Set Nat} {kept nodes : List ChainNode} {c : Chain}
  {w w' : World} {d : MethodDetour} {proxy : Stub} {x : Rig} {r : Redirection} {id : Nat}

/-! ## Writing the jump -/

/-- A method was redirected to the proxy of a chain, with these hooks linked. -/
structure Redirected (code : Set Nat) (x : Rig) (proxy : Stub) (nodes : List ChainNode) (w : World)
    (r : Redirection) (w' : World) : Prop where
  beside : w.Beside w'
  target : r.target = proxy.entry
  callable : r.alternate.isSome
  done : (∀ i < r.patch.jump.size, r.source + i ∈ code) →
    Rig.Stands code { x with patch := some r } w'.machine ∧
      ∀ entry, r.entry? = some entry → Chain.Linked w'.machine.memory proxy nodes entry

theorem redirect_ends (keeps : w.platform.keepsReplacedCode = true)
    (s : x.Stands code w.machine) (bare : x.patch = none) (hp : x.proxy = some proxy)
    (sub : ∀ n ∈ nodes, n ∈ x.kept) (once : nodes.Nodup) (source : Nat) :
    (redirect source proxy.entry (linkTo nodes proxy)).Ends w
      (Redirected code x proxy nodes w) (fun w' => w.Beside w' ∧ x.Stands code w'.machine) := by
  have same : { x with patch := none } = x := by rw [← bare]
  have stubs : x.blocks = x.stubBlocks := Rig.blocks_bare bare
  apply redirect_rule
  apply (RedirectionPlan.make_ends s.holds _ _ source proxy.entry none).mono
  · rintro p m₁ ⟨gained, leads, callable⟩
    obtain ⟨alternate, callable⟩ := Option.isSome_iff_exists.mp (callable keeps)
    have entry : p.entry? = some alternate.base := by
      unfold RedirectionPlan.entry?
      rw [callable]
      rfl
    obtain ⟨memory, linked, places, leads₁, stands⟩ :=
      (s.gains gained).link hp sub once alternate.base
    have holds : (m₁.withMemory memory).Holds (p.blocks ++ x.stubBlocks) :=
      stubs ▸ gained.holds.withMemory places
    unfold linkTo
    rw [entry]
    apply changeMachine_ends
    rw [linked]
    apply (Redirection.ofPlan_ends holds leads).mono
    · rintro r m₂ ⟨kept, carried⟩
      refine ⟨w.beside_machine m₂, carried.leads, ?_, fun covered => ?_⟩
      · rw [kept, callable]
        rfl
      rw [carried.here] at covered
      obtain ⟨stands₂, spares⟩ := (same.symm ▸ stands).repatch carried covered
      refine ⟨stands₂, fun entry' here => ?_⟩
      have here' : some alternate.base = some entry' := by
        rw [← here, Redirection.entry?, kept, callable]
        rfl
      obtain rfl := Option.some.inj here'
      exact stands.linked spares.blocks hp sub leads₁
    · intro m₂ back
      exact ⟨w.beside_machine m₂, stands.gains (stubs ▸ back)⟩
  · intro m₁ back
    exact ⟨w.beside_machine m₁, s.gains back⟩

/-! ## Applying the detour -/

theorem establish_ends (setting : Setting k w) (unapplied : w.Unapplied k.method)
    (s : x.Stands code w.machine) (bare : x.patch = none) (hp : x.proxy = some proxy)
    (sub : ∀ n ∈ nodes, n ∈ x.kept) (once : nodes.Nodup) (source : d.source = k.method)
    (target : d.target = .function proxy.entry) :
    (establish d (linkTo nodes proxy)).Ends w
      (fun result w' => Redirected code x proxy nodes w result.2 w')
      (fun w' => w.Beside w' ∧ x.Stands code w'.machine) := by
  have still {w' : World} (quiet : w.Quiet w') : w.Beside w' ∧ x.Stands code w'.machine :=
    ⟨quiet.toBeside, s.of_arena quiet.arena⟩
  apply establish_rule fun w' told _ => still told.quiet
  intro pins w₁ inPlace
  have quiet₁ := inPlace.told.quiet
  rw [source, target]
  apply (resolve_ends (w := w₁) (Or.inr (Or.inr ⟨by rw [quiet₁.names, setting.name],
    unapplied.congr quiet₁.toBeside⟩))).mono _ fun w' quiet =>
      still ((quiet₁.trans quiet).trans (w'.quiet_tell _))
  intro body w₂ quiet
  have quiet₂ := quiet₁.trans quiet
  apply (resolve_function w₂ proxy.entry).mono (F := fun _ => False) _ fun _ h => h.elim
  rintro _ _ ⟨rfl, rfl⟩
  apply (redirect_ends (quiet₂.platform ▸ setting.keeps) (still quiet₂).2 bare hp sub once
    body).mono
  · exact fun r w₃ redirected => ⟨quiet₂.toBeside.trans redirected.beside, redirected.target,
      redirected.callable, redirected.done⟩
  · exact fun w₃ ⟨beside, stands⟩ =>
      ⟨(quiet₂.toBeside.trans beside).trans (w₃.quiet_tell _).toBeside, stands⟩

/-- A chain whose detour has a new record is in order, if its rig is. -/
theorem InOrder.of_becomes (b : Booked k kept c w) (root : c.root = some d.id)
    (found : w.detour? d.id = some d) (d' : MethodDetour) (same : d.Alike d') (idle : d'.busy = false)
    (becomes : w.Becomes d' w')
    (leads : ∀ r, d'.redirection = some r → r.alternate.isSome ∧
      ∃ proxy, c.proxy = some proxy ∧ r.target = proxy.entry)
    (stands : Rig.Stands code { kept, proxy := c.proxy, patch := d'.redirection } w'.machine) :
    InOrder k code kept c w' ∧ w'.patchOf c = d'.redirection := by
  have there : w'.detour? d'.id = some d' := becomes.detour? (same.id.symm ▸ found)
  have root' : c.root = some d'.id := same.id.symm ▸ root
  have patch := patchOf_eq root' there
  refine ⟨⟨(b.put root found d' same).beside becomes, ?_, fun r hr => leads r (patch ▸ hr),
    fun id x here found' => ?_⟩, patch⟩
  · unfold rig
    rw [patch]
    exact stands
  · obtain rfl := Option.some.inj (root'.symm.trans here)
    obtain rfl := Option.some.inj (there.symm.trans found')
    exact idle

/-- What a chain is left with when its method is not detoured any more. -/
theorem InOrder.of_bare (b : Booked k kept c w) (root : c.root = some d.id)
    (found : w.detour? d.id = some d) (d' : MethodDetour) (same : d.Alike d')
    (idle : d'.busy = false) (bare : d'.redirection = none) (becomes : w.Becomes d' w')
    (stands : Rig.Stands code { kept, proxy := c.proxy, patch := none } w'.machine) :
    InOrder k code kept c w' ∧ w'.patchOf c = none := by
  rw [← bare] at stands
  obtain ⟨done, patch⟩ := InOrder.of_becomes b root found d' same idle becomes
    (fun r hr => (by cases bare.symm.trans hr)) stands
  exact ⟨done, patch.trans bare⟩

/-- The detour of a chain is applied with these hooks linked, or the chain is as it was. -/
theorem applyDetour_ends (o : InOrder k code kept c w) (root : c.root = some id)
    (hp : c.proxy = some proxy) (bare : w.patchOf c = none) (sub : ∀ n ∈ nodes, n ∈ kept)
    (once : nodes.Nodup) :
    (applyDetour id (linkTo nodes proxy)).Ends w
      (fun _ w' => w'.chain? k = some c ∧ w'.held = w.held ∧ ∃ r, w'.patchOf c = some r ∧
        ((∀ i < r.patch.jump.size, r.source + i ∈ code) → InOrder k code kept c w' ∧
          ∀ entry, r.entry? = some entry → Chain.Linked w'.machine.memory proxy nodes entry))
      (fun w' => InOrder k code kept c w' ∧ w'.patchOf c = none ∧ w'.held = w.held) := by
  obtain ⟨d, proxy', found, hp', source, target, _⟩ := o.booked.rooted.root id root
  obtain rfl := Option.some.inj (hp.symm.trans hp')
  obtain rfl := id_of_detour found
  have redirection : d.redirection = none := (patchOf_eq root found).symm.trans bare
  have busy : d.busy = false := o.idle _ d root found
  have begun := o.booked.put root found { d with busy := true } ⟨rfl, rfl, rfl, rfl, rfl⟩
  have bare₁ := (patchOf_put { d with busy := true } root found).trans redirection
  have established := establish_ends (w := w.put { d with busy := true }) begun.setting
    (begun.unapplied bare₁) o.stands bare hp sub once source target
  apply (applyDetour_beside found redirection busy (established.mono
    (fun _ _ redirected => ⟨redirected.beside, redirected⟩) fun _ left => left)).mono
  · rintro ⟨⟩ w' ⟨w₁, pins, r, redirected, becomes, machine⟩
    let d' : MethodDetour := { d.redirected r with busy := false, pins }
    have alike : d.Alike d' := ⟨rfl, rfl, rfl, rfl, rfl⟩
    refine ⟨((o.booked.put root found d' alike).beside becomes).chain, becomes.held, r,
      (becomes.patchOf c).trans (patchOf_put d' root found), fun covered => ?_⟩
    obtain ⟨stands, linked⟩ := redirected.done covered
    have leads (r' : Redirection) (hr : some r = some r') : r'.alternate.isSome ∧
        ∃ proxy, c.proxy = some proxy ∧ r'.target = proxy.entry := by
      obtain rfl := Option.some.inj hr
      exact ⟨redirected.callable, proxy, hp, redirected.target⟩
    rw [machine]
    exact ⟨(InOrder.of_becomes o.booked root found d' alike rfl becomes leads
      (machine ▸ stands)).1, linked⟩
  · rintro _ ⟨w₁, stands, becomes, rfl⟩
    obtain ⟨done, patch⟩ := InOrder.of_bare o.booked root found { d with busy := false }
      ⟨rfl, rfl, rfl, rfl, rfl⟩ rfl redirection becomes (rig_of_bare bare ▸ stands)
    exact ⟨done, patch, becomes.held⟩

/-! ## Undoing it -/

/-- The jump of a chain is given up. Its stubs are spared. -/
theorem InOrder.abandoned (o : InOrder k code kept c w) {m : Machine}
    (holds : m.Holds (r.blocks ++ (w.rig c kept).stubBlocks))
    (spares : Spares (w.rig c kept).stubBlocks w.machine m) :
    Rig.Stands code { kept, proxy := c.proxy, patch := none } (r.abandon m) := by
  have bare : Rig.Stands code { kept, proxy := c.proxy, patch := none } m :=
    o.stands.unpatch.spared spares.blocks spares.foreign
      (holds.mono (List.sublist_append_right _ _).subperm)
      fun _ hr => (by cases hr)
  exact bare.gains (Redirection.holds_abandon holds)

/-- The detour of a chain is undone: the code can always be written back. -/
theorem undoDetour_ends (o : InOrder k code kept c w) (root : c.root = some id)
    (patched : w.patchOf c = some r) {E : World → Prop} :
    (undoDetour id).Ends w
      (fun _ w' => InOrder k code kept c w' ∧ w'.patchOf c = none ∧ w'.held = w.held) E := by
  obtain ⟨d, _, found, _⟩ := o.booked.rooted.root id root
  obtain rfl := id_of_detour found
  have redirection : d.redirection = some r := (patchOf_eq root found).symm.trans patched
  have holds := o.stands.holds
  rw [Rig.blocks_patch patched] at holds
  have idle := o.idle _ d root found
  have undone := Redirection.undo_ends holds (o.stands.patch r patched).toLaid (E := fun _ => False)
  apply (undoDetour_becomes found redirection idle undone).mono
  · rintro ⟨⟩ w' ⟨becomes, m, ⟨there, spares, _⟩, machine⟩
    obtain ⟨done, bare⟩ := InOrder.of_bare o.booked root found { d.withdrawn r with pins := [] }
      ⟨rfl, rfl, rfl, rfl, rfl⟩ idle rfl becomes
      (machine ▸ o.abandoned there (spares.mono (List.subset_append_right _ _)))
    exact ⟨done, bare, becomes.held⟩
  · exact fun _ ⟨_, _, never, _⟩ => never.elim

end Detouring.World
