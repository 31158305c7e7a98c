-- What one detour makes of a notice of fresh code, whoever watches it and whether or not the code that
-- it replaces is kept. It moves, it is given up, it is pointed elsewhere, or it stays; nothing that
-- belongs to others is changed.
import Detouring.Proofs.Detour.Orderly
import Detouring.Proofs.Hook.Signposts
import Detouring.Proofs.Jump.Lengthening

namespace Detouring

open Op Machine

variable {stubs : List Stub} {K L : List Block} {m m' m'' : Machine} {d d' : MethodDetour}
  {r fresh : Redirection} {w w' w'' : World} {method : Method} {start size id : Nat} {own busy : Prop}

namespace Redirection

/-- The redirection was laid over code of others, and there is room for any jump that it may take. -/
structure Roomy (r : Redirection) (m : Machine) : Prop extends Laid r m where
  room : ∀ i < r.room, m.Foreign (r.source + i)

theorem Roomy.later (h : r.Roomy m) (foreign : ∀ x, m.Foreign x → m'.Foreign x) : r.Roomy m' :=
  ⟨h.toLaid.later foreign, fun i hi => foreign _ (h.room i hi)⟩

/-- What becomes of a redirection that is told of fresh code, be it of its `own` method or of the one
that it leads to. A detour that is `busy` does not follow. -/
inductive Answers (r : Redirection) (own busy : Prop) (start : Nat) (m m' : Machine) :
    Option Redirection → Prop where
  | stays (aside : own → busy) (code : ∀ x, m.Foreign x → m'.memory.bytes x = m.memory.bytes x)
      (blocks : ∀ b ∈ r.blocks, ∀ x, b.Has x → m'.memory.bytes x = m.memory.bytes x) :
      Answers r own busy start m m' (some r)
  | lost (ofSource : own)
      (code : ∀ x, m.Foreign x → m'.memory.bytes x = m.memory.bytes x) :
      Answers r own busy start m m' none
  | moved (ofSource : own) {fresh : Redirection} (here : fresh.source = start)
      (leads : fresh.target = r.target) (stands : fresh.Stands m')
      (code : ∀ x, m.Foreign x → x < start ∨ start + JumpForm.absolute.size ≤ x →
        m'.memory.bytes x = m.memory.bytes x) : Answers r own busy start m m' (some fresh)
  | led (other : ¬ own) {L : List Block} {r' : Redirection} (led : Led L r start m r' m') :
      Answers r own busy start m m' (some r')

/-- Of the machine only the arena counts. -/
theorem Answers.of_arena {left : Option Redirection} (h : r.Answers own busy start m m' left)
    (same : m''.arena = m'.arena) : r.Answers own busy start m m'' left := by
  have memory : m''.memory = m'.memory :=
    congrArg (fun a : Arena PageSupply => a.source.memory) same
  have foreign : ∀ x, m'.Foreign x → m''.Foreign x := (Extends.of_arena same).foreign
  rcases h with ⟨aside, code, blocks⟩ | ⟨ofSource, code⟩ | ⟨ofSource, here, leads, stands, code⟩ |
    ⟨other, source, leads, room, holds, spares, laid, jump, beside⟩
  · exact .stays aside (memory ▸ code) (memory ▸ blocks)
  · exact .lost ofSource (memory ▸ code)
  · exact .moved ofSource here leads ⟨stands.toLaid.later foreign, memory ▸ stands.jump⟩
      (memory ▸ code)
  · exact .led other ⟨source, leads, room, holds.of_arena same,
      spares.to_arena same, laid.later foreign,
      memory ▸ jump, memory ▸ beside⟩

end Redirection

namespace World

/-! ## Who has what -/

/-- Each detour has a number and blocks of its own, the trampolines of all chains are among the stubs,
and somebody else has `K`. -/
structure Equipped (stubs : List Stub) (K : List Block) (w : World) : Prop extends Numbered w where
  posts : w.machine.Posts stubs (w.holdings ++ K)
  trampolines : ∀ k c, w.chain? k = some c → ∀ n ∈ c.nodes, n.trampoline ∈ stubs

namespace Equipped

theorem beside (e : w.Equipped stubs K) (b : w.Beside w')
    (posts : w'.machine.Posts stubs (w.holdings ++ L)) : w'.Equipped stubs L := by
  refine ⟨e.toNumbered.beside b, ?_, fun k c there => ?_⟩
  · unfold holdings
    rw [b.detours]
    exact posts
  · rw [b.chain?] at there
    exact e.trampolines k c there

theorem quiet (e : w.Equipped stubs K) (q : w.Quiet w') : w'.Equipped stubs K :=
  e.beside q.toBeside (e.posts.of_arena q.arena)

/-- The record of one detour has changed. -/
theorem becomes (e : w.Equipped stubs K) (b : w.Becomes d' w') (found : w.detour? d'.id = some d)
    (posts : w'.machine.Posts stubs (d'.blocks ++ ((w.without d'.id).holdings ++ L))) :
    w'.Equipped stubs L := by
  refine ⟨e.toNumbered.becomes b found, posts.recount (List.Perm.subperm ?_), fun k c there => ?_⟩
  · rw [← List.append_assoc d'.blocks]
    exact ((b.holdings_perm e.toNumbered found).append_right L).append_left _
  · rw [Beside.chain? b] at there
    exact e.trampolines k c there

/-- The blocks of a detour that is applied, the stubs, and what the others have. -/
theorem holds_patched (e : w.Equipped stubs K) (found : w.detour? d.id = some d)
    (patched : d.redirection = some r) : w.machine.Holds (r.blocks ++ (stubs.map Stub.block ++
      (d.retired ++ ((w.without d.id).holdings ++ K)))) := by
  have parts := holdings_perm e.ids (List.mem_of_find?_eq_some found)
  rw [MethodDetour.blocks_of_patched patched, List.append_assoc] at parts
  refine e.posts.holds.mono (List.Perm.subperm (List.perm_iff_count.mpr fun c => ?_))
  have counts := parts.count_eq c
  simp only [List.count_append] at counts ⊢
  omega

end Equipped

/-! ## One detour -/

/-- A detour that was applied has answered a notice. What the others have is spared. -/
structure Answered (stubs : List Stub) (K : List Block) (own : Prop) (start : Nat)
    (d : MethodDetour) (r : Redirection) (w w' : World) : Prop where
  becomes : ∃ d', w.Becomes d' w' ∧ d.Alike d' ∧ (d.busy = false → d'.busy = false) ∧
    r.Answers own (d.busy = true) start w.machine w'.machine d'.redirection ∧
    w'.machine.Posts stubs (d'.blocks ++ ((w.without d.id).holdings ++ K))
  spares : Spares ((w.without d.id).holdings ++ K) w.machine w'.machine

namespace Answered

/-- A line in the log makes no difference. -/
theorem quiet (a : Answered stubs K own start d r w w') (q : w'.Quiet w'') :
    Answered stubs K own start d r w w'' := by
  obtain ⟨⟨d', becomes, alike, idle, answers, posts⟩, spares⟩ := a
  exact ⟨⟨d', becomes.beside q.toBeside, alike, idle, answers.of_arena q.arena, posts.of_arena q.arena⟩,
    spares.to_arena q.arena⟩

/-- A detour that has kept its redirection. -/
theorem of_gains (e : w.Equipped stubs K) (found : w.detour? d.id = some d)
    (patched : d.redirection = some r) (aside : own → d.busy = true) (b : w.Beside w')
    (gains : Gains (r.blocks ++ (stubs.map Stub.block ++ (d.retired ++
      ((w.without d.id).holdings ++ K)))) [] w.machine w'.machine) :
    Answered stubs K own start d r w w' := by
  have becomes : w.Becomes d w' := by
    unfold Becomes
    rw [e.put_self found]
    exact b
  refine ⟨⟨d, becomes, ⟨rfl, rfl, rfl, rfl, rfl⟩, id, ?_, e.posts.spared (gains.toSpares.mono ?_) ?_⟩,
    gains.toSpares.mono ?_⟩
  · rw [patched]
    exact .stays aside gains.code fun c mc => gains.blocks c (List.mem_append_left _ mc)
  · exact List.subset_append_of_subset_right _ (List.subset_append_left _ _)
  · refine gains.holds.mono (List.Perm.subperm (List.perm_iff_count.mpr fun c => ?_))
    rw [MethodDetour.blocks_of_patched patched]
    simp only [List.count_append, List.count_nil]
    omega
  · exact List.subset_append_of_subset_right _ (List.subset_append_of_subset_right _
      (List.subset_append_right _ _))

end Answered

theorem followSource_answers (e : w.Equipped stubs K) (found : w.detour? d.id = some d)
    (patched : d.redirection = some r) (room : w.machine.Code start) :
    (followSource d r start size (tellWatcher d.watcher)).Ends w
      (fun _ => Answered stubs K True start d r w) (Answered stubs K True start d r w) := by
  let others := (w.without d.id).holdings ++ K
  have held : w.machine.Holds (r.blocks ++ (stubs.map Stub.block ++ (d.retired ++ others))) :=
    e.holds_patched found patched
  have sub : stubs.map Stub.block ⊆ r.alternate.toList ++ (stubs.map Stub.block ++
      (d.retired ++ others)) :=
    List.subset_append_of_subset_right _ (List.subset_append_left _ _)
  have sub' : others ⊆ r.alternate.toList ++ (stubs.map Stub.block ++ (d.retired ++ others)) :=
    List.subset_append_of_subset_right _ (List.subset_append_of_subset_right _
      (List.subset_append_right _ _))
  have given := Redirection.abandon_gains held
  let moved (fresh : Redirection) (busy : Bool) : MethodDetour :=
    { (d.withdrawn r).redirected fresh with busy }
  apply (followSource_tells (R := fun fresh m => fresh.source = start ∧ fresh.target = r.target ∧
      fresh.Stands m ∧ Spares others w.machine m ∧
      (∀ x, w.machine.Foreign x → x < start ∨ start + JumpForm.absolute.size ≤ x →
        m.memory.bytes x = w.machine.memory.bytes x) ∧
      m.Posts stubs ((moved fresh false).blocks ++ others)) found
    (Redirection.create_ends given.holds _ _ start r.target (some size))
    fun fresh w₁ b ⟨carried, _⟩ => ?_).mono
  · rintro ⟨⟩ w' ⟨fresh, b, here, leads, stands, spares, code, posts⟩
    exact ⟨⟨moved fresh false, b, ⟨rfl, rfl, rfl, rfl, rfl⟩, fun _ => rfl, .moved trivial here leads stands code,
      posts⟩, spares⟩
  · rintro w' ⟨b, back⟩
    have gains := given.trans back
    refine ⟨⟨d.withdrawn r, b, ⟨rfl, rfl, rfl, rfl, rfl⟩, id, .lost trivial gains.code,
      e.posts.spared (gains.toSpares.mono sub) (gains.holds.mono (List.Perm.subperm
        (List.perm_iff_count.mpr fun c => ?_)))⟩, gains.toSpares.mono sub'⟩
    rw [MethodDetour.blocks_of_bare rfl]
    simp only [others, MethodDetour.withdrawn, List.count_append, List.count_nil]
    omega
  -- Where the fresh code was redirected, whoever watches is told.
  · have carried := carried.since given
    obtain ⟨holds, spares, stands, covers⟩ := carried.done fun i hi =>
      room i (Nat.lt_of_lt_of_le hi fresh.patch.jump.size_le)
    have posts : w₁.machine.Posts stubs ((moved fresh false).blocks ++ others) := by
      refine e.posts.spared (spares.mono sub) (holds.mono (List.Perm.subperm
        (List.perm_iff_count.mpr fun c => ?_)))
      rw [MethodDetour.blocks_of_patched (d := moved fresh false) rfl]
      simp only [moved, MethodDetour.redirected, MethodDetour.withdrawn, List.count_append]
      simp only [others, List.count_append, List.count_nil]
      omega
    apply (tellWatcher_points posts (fun key c _ here => ?_)
      fun _ _ _ _ => Set.mem_univ _).mono _ fun _ h => h
    · rintro ⟨⟩ w₂ ⟨beside, _, pointed⟩
      refine ⟨beside, carried.here, carried.leads, stands.congr (fun i hi =>
        ⟨pointed.foreign _ (stands.foreign i hi), pointed.code _ (stands.foreign i hi)⟩)
        fun c mc => pointed.blocks c ?_, ?_, fun x f out => ?_, pointed.posts⟩
      · rw [MethodDetour.blocks_of_patched (d := moved fresh false) rfl, List.append_assoc]
        exact List.mem_append_left _ mc
      · exact (spares.mono sub').trans (pointed.toSpares.mono (List.subset_append_right _ _))
      · have size := fresh.patch.jump.size_le
        have here : fresh.patch.jump.source = start := carried.here
        exact (pointed.code x (spares.foreign x f)).trans (covers.beside x f (by omega))
    · rw [Beside.chain? b] at here
      exact e.trampolines key c here

theorem followTarget_answers (e : w.Equipped stubs K) (found : w.detour? d.id = some d)
    (patched : d.redirection = some r) (roomy : r.Roomy w.machine) :
    (followTarget d r start).Ends w (fun _ => Answered stubs K False start d r w)
      (Answered stubs K False start d r w) := by
  let others := (w.without d.id).holdings ++ K
  have held : w.machine.Holds (r.blocks ++ (stubs.map Stub.block ++ (d.retired ++ others))) :=
    e.holds_patched found patched
  apply (followTarget_becomes (Redirection.retarget_led held roomy.toLaid roomy.room start)).mono
  · rintro ⟨⟩ w' ⟨r', b, led⟩
    refine ⟨⟨(d.redirected r'), b, ⟨rfl, rfl, rfl, rfl, rfl⟩, id, .led id led,
      e.posts.spared (led.spares.mono (List.subset_append_left _ _)) (led.holds.mono
        (List.Perm.subperm (List.perm_iff_count.mpr fun c => ?_)))⟩, led.spares.mono
      (List.subset_append_of_subset_right _ (List.subset_append_right _ _))⟩
    rw [MethodDetour.blocks_of_patched (d := (d.redirected r')) rfl]
    simp only [others, MethodDetour.redirected, List.count_append]
    omega
  · rintro w' ⟨b, gains⟩
    exact .of_gains e found patched False.elim b gains

/-- A detour that is told of fresh code follows; a failure goes to the log. -/
theorem followOrReport_answers (e : w.Equipped stubs K) (found : w.detour? id = some d)
    (patched : d.redirection = some r) (roomy : d.source ≠ method → r.Roomy w.machine)
    (room : d.source = method → w.machine.Code start) {E : World → Prop} :
    (followOrReport method start size id).Ends w
      (fun _ w' => Answered stubs K (d.source = method) start d r w w') E := by
  obtain rfl := id_of_detour found
  have stays (aside : d.source = method → d.busy = true) :
      Answered stubs K (d.source = method) start d r w w :=
    .of_gains e found patched aside (Quiet.refl w).toBeside (.refl (e.holds_patched found patched))
  have follows : (follow (fun d => tellWatcher d.watcher) d.id method start size).Ends w
      (fun _ => Answered stubs K (d.source = method) start d r w)
      (Answered stubs K (d.source = method) start d r w) := by
    have known {d' : MethodDetour} {r' : Redirection} (found' : w.detour? d.id = some d')
        (patched' : d'.redirection = some r') : d' = d ∧ r' = r := by
      obtain rfl := Option.some.inj (found'.symm.trans found)
      exact ⟨rfl, Option.some.inj (patched'.symm.trans patched)⟩
    apply follow_ends
    · intro none
      cases found.symm.trans none
    · rintro d' found' unconcerned
      obtain rfl := Option.some.inj (found'.symm.trans found)
      refine stays fun own => ?_
      rcases idle : d'.busy with _ | _
      · exact ((unconcerned r patched idle).1 own).elim
      · rfl
    · rintro d' r' found' patched' _ ofSource
      obtain ⟨rfl, rfl⟩ := known found' patched'
      rw [eq_true ofSource]
      exact followSource_answers e found patched (room ofSource)
    · rintro d' r' found' patched' _ other _
      obtain ⟨rfl, rfl⟩ := known found' patched'
      rw [eq_false other]
      exact followTarget_answers e found patched (roomy other)
  exact followOrReport_left follows fun _ _ answered quiet => answered.quiet quiet

end World

end Detouring
