-- Applying and undoing a detour whose code no other detour touches. Finding the bodies may bring
-- notices, and whoever is asked before the patch may do as he likes beside that code. An attempt that
-- fails leaves the detour, the code, and who is pinned, as they were.
import Detouring.Proofs.Detour.Fences

namespace Detouring

open Op Machine

variable {stubs : List Stub} {K L : List Block} {r : Redirection} {id start size : Nat}
  {code : Set Nat} {method : Method} {d d' : MethodDetour} {w w' w'' w₀ : World}
  {beforePatch : Option Nat → Op World Unit} {E : World → Prop}

namespace World

/-! ## Notices on the way -/

/-- While methods are compiled, others may be told of fresh code. Nothing happens to the detour. -/
structure Abides (stubs : List Stub) (K : List Block) (id : Nat) (code : Set Nat)
    (w w' : World) : Prop where
  fenced : w'.Fenced stubs K id code
  unharmed : Unharmed id code w w'
  onward : w.Onward w'
  pinned : w'.pinned = w.pinned
  announces : ∀ m start size, w'.runtime.Announces m start size →
    w.runtime.Announces m start size

theorem Abides.refl (f : w.Fenced stubs K id code) : Abides stubs K id code w w :=
  ⟨f, .refl w, .refl w, rfl, fun _ _ _ h => h⟩

theorem deliver_abides {n : CompiledMethod} (bare : w₀.redirection? id = none)
    (clear : w₀.Clear id code (w₀.nameOf n.method) n.start) (a : Abides stubs K id code w₀ w) :
    (deliver n).Ends w (fun _ => Abides stubs K id code w₀) E := by
  let I (v : World) : Prop :=
    v.Fenced stubs K id code ∧ Unharmed id code w₀ v ∧ w₀.Onward v
  have kept : (deliver n).Ends w (fun _ => I) fun _ => False := by
    have named (v : World) (i : I v) : v.nameOf n.method = w₀.nameOf n.method :=
      i.2.2.along.names _
    refine deliver_keeps (I := I) ⟨a.fenced, a.unharmed, a.onward⟩ ?_ named ?_
    · exact fun v v' q ⟨f, still, onward⟩ =>
        ⟨f.quiet q, still.trans (.quiet q), onward.trans (.quiet q)⟩
    · rintro other v ⟨f, still, onward⟩
      by_cases it : other = id
      -- The detour is told as well, but it is not applied.
      · subst it
        have none := onward.bare other bare
        refine (followOrReport_quiet fun d found => ?_).mono (F := fun _ => False) ?_ fun _ h => h
        · exact (redirection?_of_found found).symm.trans none
        · rintro ⟨⟩ _ rfl
          exact ⟨f, still, onward⟩
      · exact (followOrReport_aside it f (clear.onward onward)).mono
          (fun _ _ ⟨f', still', onward'⟩ => ⟨f', still.trans still', onward.trans onward'⟩)
          fun _ h => h
  apply (kept.and ((aloof_pinned_runtime w).deliver n w ⟨rfl, rfl⟩)).mono _ fun _ h => h.1.elim
  rintro ⟨⟩ w' ⟨⟨f, still, onward⟩, pinned, runtime⟩
  exact ⟨f, still, onward, pinned.trans a.pinned, runtime ▸ a.announces⟩

theorem lasts_abides {m : Method} (bare : w₀.redirection? id = none)
    (clear : ∀ start size, w₀.runtime.Announces m start size →
      w₀.Clear id code (w₀.nameOf m) start) : Lasts m (Abides stubs K id code w₀) := by
  refine ⟨fun w w' calm a => ?_, fun w token start size a tells known w' a' => ?_⟩
  · have q := calm.toQuiet
    exact ⟨a.fenced.quiet q, a.unharmed.trans (.quiet q), a.onward.trans (.quiet q),
      calm.pinned.trans a.pinned, fun m start size later =>
        a.announces m start size (calm.announces m start size later)⟩
  · refine deliver_abides bare ?_ a'
    show w₀.Clear id code (w₀.nameOf (.token token)) start
    rw [← known, nameOf_canonical]
    exact clear start size (a.announces m start size tells)

/-! ## Redirecting -/

/-- Nothing was done to the detour, and no method was pinned or let go. -/
structure Spared (K : List Block) (id : Nat) (code : Set Nat) (w w' : World) : Prop where
  fenced : ∃ stubs, w'.Fenced stubs K id code
  unharmed : Unharmed id code w w'
  pinned : w'.pinned = w.pinned

/-- The operation may fail. It leaves the detour, its code and who is pinned alone, whatever else it
does. -/
def Harmless (id : Nat) (code : Set Nat) (act : Op World Unit) : Prop :=
  ∀ stubs K w, w.Fenced stubs K id code →
    act.Ends w (fun _ => Spared K id code w) (Spared K id code w)

theorem Spared.refl (f : w.Fenced stubs K id code) : Spared K id code w w :=
  ⟨⟨stubs, f⟩, .refl w, rfl⟩

theorem harmless_pure : Harmless id code (pure ()) := fun _ _ _ f => Ends.pure (.refl f)

theorem Abides.spared (a : Abides stubs K id code w w') : Spared K id code w w' :=
  ⟨⟨stubs, a.fenced⟩, a.unharmed, a.pinned⟩

theorem Spared.trans (h : Spared K id code w w') (h' : Spared L id code w' w'') :
    Spared L id code w w'' :=
  ⟨h'.fenced, h.unharmed.trans h'.unharmed, h'.pinned.trans h.pinned⟩

/-- The jump of the detour was written, and beside it nothing was done to the detour. -/
structure Diverted (K : List Block) (id : Nat) (code : Set Nat) (r : Redirection)
    (w w' : World) : Prop where
  carried : ∃ stubs w₁, w₁.Fenced stubs K id code ∧ Unharmed id code w w₁ ∧ w₁.Beside w' ∧
    Redirection.Carried (stubs.map Stub.block ++ (w₁.holdings ++ K)) r.source r.target w₁.machine r
      w'.machine

theorem Diverted.since (h : Diverted K id code r w' w'') (still : Unharmed id code w w') :
    Diverted K id code r w w'' := by
  obtain ⟨stubs, w₁, f, still', done⟩ := h.carried
  exact ⟨stubs, w₁, f, still.trans still', done⟩

/-- Blocks were taken or given back, and no code of others has changed. -/
theorem Fenced.gains (f : w.Fenced stubs K id code) (b : w.Beside w')
    (gains : Gains (stubs.map Stub.block ++ (w.holdings ++ K)) [] w.machine w'.machine)
    (holds : w'.machine.Holds (stubs.map Stub.block ++ (w.holdings ++ L))) :
    w'.Fenced stubs L id code ∧ Unharmed id code w w' := by
  refine ⟨f.later (f.toEquipped.beside b (f.posts.spared (gains.toSpares.mono
    (List.subset_append_left _ _)) holds)) gains.foreign fun other _ =>
      congrFun b.redirection? other, b.detour? id, fun x mx => gains.code x (f.ground x mx),
      fun r there c mc => gains.blocks c ?_⟩
  exact List.mem_append_right _ (List.mem_append_left _ (mem_holdings there mc))

theorem Fenced.fewer (f : w.Fenced stubs (L ++ K) id code) : w.Fenced stubs K id code := by
  refine f.later ⟨f.toNumbered, f.posts.recount (List.Sublist.subperm ?_), f.trampolines⟩
    (fun _ h => h) fun _ _ => rfl
  exact ((List.sublist_append_right L K).append_left _).append_left _

theorem redirect_spared (f : w.Fenced stubs K id code)
    (harmless : ∀ entry, Harmless id code (beforePatch entry)) (source target : Nat) :
    (redirect source target beforePatch).Ends w (fun r w' => Diverted K id code r w w')
      (Spared K id code w) := by
  apply redirect_rule
  apply (RedirectionPlan.make_ends f.posts.holds w.platform.architecture w.platform.settings source
    target none).mono
  · rintro plan m₁ ⟨gained, leads, _⟩
    have taken (K' H : List Block) : (plan.blocks ++ (K' ++ (H ++ K))).Perm
        (K' ++ (H ++ (plan.blocks ++ K))) :=
      (List.perm_append_comm_assoc _ _ _).trans ((List.perm_append_comm_assoc _ _ _).append_left _)
    obtain ⟨f₁, still₁⟩ := f.gains (w.beside_machine m₁) (gained.mono (List.nil_sublist _))
      (gained.holds.mono (taken _ _).symm.subperm)
    have planned : Unharmed id code w { w with machine := m₁ } := still₁
    apply (harmless plan.entry? stubs (plan.blocks ++ K) _ f₁).mono
    · rintro ⟨⟩ w₂ ⟨⟨stubs₂, f₂⟩, still₂, pinned₂⟩
      have held := f₂.posts.holds.mono (taken _ _).subperm
      apply (Redirection.ofPlan_ends held leads).mono
      · rintro r m₃ ⟨_, carried⟩
        obtain rfl := carried.here
        obtain rfl := carried.leads
        exact ⟨stubs₂, w₂, f₂.fewer, planned.trans still₂, w₂.beside_machine m₃, carried⟩
      · intro m₃ same
        obtain ⟨f₃, still₃⟩ := f₂.fewer.gains (w₂.beside_machine m₃) same same.holds
        exact ⟨⟨stubs₂, f₃⟩, (planned.trans still₂).trans still₃, pinned₂⟩
    · rintro w₂ ⟨⟨stubs₂, f₂⟩, still₂, pinned₂⟩
      have back := RedirectionPlan.discard_gains (f₂.posts.holds.mono (taken _ _).subperm)
      obtain ⟨f₃, still₃⟩ := f₂.fewer.gains (w₂.beside_machine _) back back.holds
      exact ⟨⟨stubs₂, f₃⟩, (planned.trans still₂).trans still₃, pinned₂⟩
  · intro m₁ same
    obtain ⟨f₁, still₁⟩ := f.gains (w.beside_machine m₁) same same.holds
    exact ⟨⟨stubs, f₁⟩, still₁, rfl⟩

/-! ## Applying -/

/-- Fresh code of the method that may be announced on the way is clear of the code. -/
def Awaits (id : Nat) (code : Set Nat) (m : Method) (w : World) : Prop :=
  ∀ start size, w.runtime.Announces m start size → w.Clear id code (w.nameOf m) start

theorem establish_spared (f : w.Fenced stubs K id code) (bare : w.redirection? id = none)
    (source : w.Awaits id code d.source) (target : w.Awaits id code d.target)
    (harmless : ∀ entry, Harmless id code (beforePatch entry)) :
    (establish d beforePatch).Ends w (fun result w' => Diverted K id code result.2 w w')
      (Spared K id code w) := by
  apply establish_rule fun w' told pinned => ⟨⟨stubs, f.quiet told.quiet⟩, .quiet told.quiet, pinned⟩
  intro pins w₁ inPlace
  have told := inPlace.told
  -- The methods that were pinned are let go when something fails.
  have released {w₂ : World} (h : Spared K id code w₁ w₂) : Spared K id code w (unpin pins w₂) := by
    obtain ⟨⟨stubs₂, f₂⟩, still, same⟩ := h
    refine ⟨⟨stubs₂, f₂.quiet (w₂.quiet_tell _)⟩, ?_, (pinned_unpin_congr same).trans inPlace.pinned⟩
    exact (Unharmed.quiet told.quiet).trans (still.trans (.quiet (w₂.quiet_tell _)))
  have same : w₁.redirection? id = w.redirection? id :=
    congrFun told.quiet.toBeside.redirection? id
  have awaits {m : Method} (h : w.Awaits id code m) : w₁.Awaits id code m := by
    obtain ⟨_, rfl⟩ := told
    exact fun start size tells => (h start size tells).onward (.quiet (w.quiet_tell _))
  have begun : Abides stubs K id code w₁ w₁ := .refl (f.quiet told.quiet)
  apply (resolve_lasts (lasts_abides (same.trans bare) (awaits source)) begun).mono _ fun _ a =>
    released a.spared
  intro body w₂ a₂
  apply (resolve_lasts (lasts_abides (same.trans bare) (awaits target)) a₂).mono _ fun _ a =>
    released a.spared
  intro goal w₃ a₃
  apply (redirect_spared a₃.fenced harmless body goal).mono _ fun _ left =>
    released (a₃.spared.trans left)
  exact fun r w₄ redirected => redirected.since ((Unharmed.quiet told.quiet).trans a₃.unharmed)

/-- The detour can be applied without touching what others have. -/
structure Attempt (id : Nat) (code : Set Nat) (beforePatch : Option Nat → Op World Unit)
    (w : World) : Prop where
  harmless : ∀ entry, Harmless id code (beforePatch entry)
  source : ∀ d, w.detour? id = some d → w.Awaits id code d.source
  target : ∀ d, w.detour? id = some d → w.Awaits id code d.target

/-- The detour leads to a place in memory, and all the room that its jump may ever take up is in the
code. -/
def LandsIn (id : Nat) (code : Set Nat) (w : World) : Prop :=
  ∀ r, w.redirection? id = some r →
    r.target < wordCount ∧ ∀ i < r.room, r.source + i ∈ code

/-- A record has changed, and the others have not. -/
theorem Fenced.becomes (f : w.Fenced stubs K id code) (b : w.Becomes d' w')
    (found : w.detour? d'.id = some d) (it : d'.id = id)
    (posts : w'.machine.Posts stubs (d'.blocks ++ ((w.without d'.id).holdings ++ L)))
    (foreign : ∀ x, w.machine.Foreign x → w'.machine.Foreign x) : w'.Fenced stubs L id code := by
  refine f.later (f.toEquipped.becomes b found posts) foreign fun other away => ?_
  rw [b.redirection? found, Function.update_of_ne (it ▸ away)]

/-- The detour is put to work or to rest. -/
theorem Fenced.put_busy (f : w.Fenced stubs K id code) (found : w.detour? id = some d) (busy : Bool) :
    (w.put { d with busy }).Fenced stubs K id code := by
  obtain rfl := id_of_detour found
  refine f.becomes ((Quiet.refl w).toBeside.becomes { d with busy }) found rfl
    (f.posts.recount (List.Perm.subperm (List.Perm.append_left _ ?_))) fun _ h => h
  rw [← List.append_assoc]
  exact (holdings_perm f.ids (List.mem_of_find?_eq_some found)).symm.append_right K

/-- A redirection goes into the record of a detour that had none. -/
theorem Diverted.applied (h : Diverted K d.id code r w w') (found : w.detour? d.id = some d)
    (bare : d.redirection = none) {pins : List Method}
    (becomes : w'.Becomes { d.redirected r with busy := false, pins } w'')
    (machine : w''.machine = w'.machine) (word : r.target < wordCount)
    (within : ∀ i < r.room, r.source + i ∈ code) :
    (∃ stubs, w''.Fenced stubs K d.id code) ∧ w''.Tame d.id ∧ w''.Sits d.id code := by
  obtain ⟨stubs, v, f, still, beside, carried⟩ := h.carried
  let d' : MethodDetour := { d.redirected r with busy := false, pins }
  have found : v.detour? d'.id = some d := still.record.trans found
  have becomes : v.Becomes d' w'' := (beside.put d').trans becomes
  rw [← machine] at carried
  obtain ⟨holds, spares, stands, _⟩ := carried.done fun i hi =>
    f.ground _ (within i (Nat.lt_of_lt_of_le hi r.size_le_room))
  have posts : w''.machine.Posts stubs (d'.blocks ++ ((v.without d.id).holdings ++ K)) := by
    refine f.posts.spared (spares.mono (List.subset_append_left _ _))
      (holds.mono (List.Perm.subperm (List.perm_iff_count.mpr fun c => ?_)))
    have counts := (holdings_perm f.ids (List.mem_of_find?_eq_some found)).count_eq c
    rw [MethodDetour.blocks_of_bare bare] at counts
    rw [MethodDetour.blocks_of_patched (d := d') rfl]
    simp only [d', MethodDetour.redirected, List.count_append] at counts ⊢
    omega
  have here := becomes.detour? found
  have there {r' : Redirection} (hr : w''.redirection? d.id = some r') : r' = r :=
    Option.some.inj (hr.symm.trans (redirection?_of_found here))
  refine ⟨⟨stubs, f.becomes becomes found rfl posts spares.foreign⟩,
    ⟨⟨d', here, rfl⟩, fun r' hr => ?_, fun r' hr => ?_⟩, fun r' hr => ?_⟩
  all_goals obtain rfl := there hr
  · exact word
  · exact ⟨stands.applied, stands.backup⟩
  · exact ⟨stands, within⟩

/-- A detour that is applied stands in the code. An attempt that fails leaves it as it was. -/
theorem applyDetour_spared (f : w.Fenced stubs K id code) (tame : w.Tame id) (sits : w.Sits id code)
    (attempt : Attempt id code beforePatch w) :
    (applyDetour id beforePatch).Ends w
      (fun _ w' => LandsIn id code w' →
        (∃ stubs, w'.Fenced stubs K id code) ∧ w'.Tame id ∧ w'.Sits id code)
      (Spared K id code w) := by
  obtain ⟨d, found, idle⟩ := tame.idle
  rcases applied : d.redirection with _ | r
  · have bare := (redirection?_of_found found).trans applied
    obtain rfl := id_of_detour found
    let busy : MethodDetour := { d with busy := true }
    have starts : w.Becomes busy (w.put busy) := (Quiet.refl w).toBeside.becomes _
    have working : (w.put busy).detour? d.id = some busy := starts.detour? found
    have onward : w.Onward (w.put busy) := .of_becomes starts found rfl id fun _ h => h
    have awaits {m : Method} (h : w.Awaits d.id code m) : (w.put busy).Awaits d.id code m :=
      fun start size tells => (h start size tells).onward onward
    have established : (establish d beforePatch).Ends (w.put busy)
        (fun result w₁ => (∃ d₁, w₁.detour? d.id = some d₁) ∧
          w₁.detour? d.id = some busy ∧ Diverted K d.id code result.2 (w.put busy) w₁)
        (fun w₁ => (∃ d₁, w₁.detour? d.id = some d₁) ∧ Spared K d.id code (w.put busy) w₁) := by
      apply (establish_spared (f.put_busy found true) (onward.bare d.id bare)
        (awaits (attempt.source d found)) (awaits (attempt.target d found)) attempt.harmless).mono
      · intro result w₁ h
        obtain ⟨_, v, _, still, beside, _⟩ := h.carried
        have here := (beside.detour? d.id).trans (still.record.trans working)
        exact ⟨⟨_, here⟩, here, h⟩
      · exact fun w₁ h => ⟨⟨_, h.unharmed.record.trans working⟩, h⟩
    apply (applyDetour_becomes found applied idle established).mono
    · rintro ⟨⟩ w' ⟨w₁, d₁, pins, r, ⟨here, redirected⟩, found₁, becomes, machine⟩ lands
      obtain rfl := Option.some.inj (here.symm.trans found₁)
      obtain ⟨word, within⟩ := lands r (redirection?_of_found (becomes.detour? found₁))
      exact redirected.applied (d := busy) working applied becomes machine word within
    · rintro w' ⟨w₁, d₁, ⟨⟨stubs₁, f₁⟩, still, pinned⟩, found₁, rfl⟩
      obtain rfl := Option.some.inj ((still.record.trans working).symm.trans found₁)
      have rests := (Quiet.refl w₁).toBeside.becomes { d with busy := false }
      have back : ({ d with busy := false } : MethodDetour) = d := by rw [← idle]
      refine ⟨⟨stubs₁, f₁.put_busy found₁ false⟩, ⟨?_, still.code, fun r there => ?_⟩, pinned⟩
      · exact (rests.detour? found₁).trans ((congrArg some back).trans found.symm)
      · cases bare.symm.trans there
  · have refused : d.redirection ≠ none := by simp [applied]
    apply (applyDetour_refused found (Or.inl refused)).mono fun _ _ h => h
    rintro _ rfl
    exact .refl f

/-! ## Undoing -/

/-- A detour that has given up its jump, and who else has what. -/
theorem Fenced.withdrawn (f : w.Fenced stubs K d.id code) (found : w.detour? d.id = some d)
    (idle : d.busy = false) {pins : List Method} {m : Machine}
    (becomes : w.Becomes { d.withdrawn r with pins } w')
    (spares : Spares (r.blocks ++ (stubs.map Stub.block ++ (d.retired ++
      ((w.without d.id).holdings ++ K)))) w.machine m)
    (holds : m.Holds (r.blocks ++ (stubs.map Stub.block ++ (d.retired ++
      ((w.without d.id).holdings ++ K)))))
    (machine : w'.machine = r.abandon m) :
    w'.Fenced stubs K d.id code ∧ w'.Tame d.id ∧ w'.redirection? d.id = none := by
  let d' : MethodDetour := { d.withdrawn r with pins }
  have gained := Redirection.abandon_gains holds
  rw [← machine] at gained
  have sub : stubs.map Stub.block ⊆ stubs.map Stub.block ++ (d.retired ++
      ((w.without d.id).holdings ++ K)) := List.subset_append_left _ _
  have posts : w'.machine.Posts stubs (d'.blocks ++ ((w.without d.id).holdings ++ K)) := by
    refine f.posts.spared ((spares.mono (List.subset_append_of_subset_right _ sub)).trans
      (gained.toSpares.mono (List.subset_append_of_subset_right _ sub)))
      (gained.holds.mono (List.Perm.subperm (List.perm_iff_count.mpr fun c => ?_)))
    rw [MethodDetour.blocks_of_bare (d := d') rfl]
    simp only [d', MethodDetour.withdrawn, List.count_append, List.count_nil]
    omega
  have here : w'.detour? d.id = some d' := becomes.detour? found
  have bare : w'.redirection? d.id = none := redirection?_of_found here
  refine ⟨f.becomes becomes found rfl posts fun x h => gained.foreign x (spares.foreign x h),
    ⟨⟨d', here, idle⟩, fun r hr => ?_, fun r hr => ?_⟩, bare⟩
  · cases bare.symm.trans hr
  · cases bare.symm.trans hr

/-- Whether or not the code could be written back, the detour is not applied any more. Others may have
done as they like with its jump, but what is left there has to be theirs. -/
theorem undoDetour_bare (f : w.Fenced stubs K id code) (tame : w.Tame id)
    (others : ∀ r, w.redirection? id = some r → ∀ i < r.patch.jump.size,
      w.machine.memory.isMapped (r.source + i) = true → r.source + i ∈ code) :
    (undoDetour id).Ends w
      (fun _ w' => w'.Fenced stubs K id code ∧ w'.Tame id ∧ w'.redirection? id = none)
      (fun w' => w'.Fenced stubs K id code ∧ w'.Tame id ∧ w'.redirection? id = none) := by
  obtain ⟨d, found, idle⟩ := tame.idle
  obtain rfl := id_of_detour found
  rcases patched : d.redirection with _ | r
  · apply (undoDetour_refused found (Or.inl patched)).mono fun _ _ h => h
    rintro _ rfl
    exact ⟨f, tame, (redirection?_of_found found).trans patched⟩
  have there := (redirection?_of_found found).trans patched
  have whole := tame.whole r there
  have undone := Redirection.undo_within (f.holds_patched found patched) whole.applied
    fun i hi mapped => f.ground _ (others r there i (whole.backup ▸ hi) mapped)
  apply (undoDetour_becomes found patched idle undone).mono
  · rintro ⟨⟩ w' ⟨becomes, m, ⟨holds, spares, _⟩, machine⟩
    exact f.withdrawn found idle becomes spares holds machine
  · rintro w' ⟨becomes, m, ⟨gained, _⟩, machine⟩
    exact f.withdrawn found idle becomes gained.toSpares gained.holds machine

end World

end Detouring
