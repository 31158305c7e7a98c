-- What a notice of fresh code does to the stubs of a manager. A detour that follows its method
-- keeps the alternate entry of the earlier code, and the last hook of its chain is pointed at the
-- new one. All other stubs lead where they led.
import Detouring.Proofs.Detour.Following
import Detouring.Proofs.Hook.Rerouting

namespace Detouring.World

open Op Machine

variable {μ : Nat} {S : Store} {k : ChainKey} {c : Chain} {d d' : MethodDetour} {w w' w'' : World}
  {stubs : List Stub} {K : List Block} {r : Redirection} {method : Method} {start size : Nat}
  {E : World → Prop}

/-! ## The last link -/

/-- Where replaced code can be called. -/
def entries (w : World) : Set Nat := {a | ∃ b ∈ w.alternates, a = b.base % wordCount}

theorem entry_mem_entries (md : d ∈ w.detours) {entry : Nat}
    (callable : d.alternateEntry? = some entry) : entry % wordCount ∈ w.entries := by
  obtain ⟨r, patched, enters⟩ := Option.bind_eq_some_iff.mp callable
  obtain ⟨b, alternate, rfl⟩ := Option.map_eq_some_iff.mp enters
  exact ⟨b, mem_alternates md patched alternate, rfl⟩

/-! ## One detour -/

/-- A notice was attended to. Stubs lead where they led, or to code that can be called. -/
structure Attended (μ : Nat) (S : Store) (w w' : World) : Prop extends w.Along w' where
  kept : Kept μ S w'
  guided : Guided μ ∅ S S w w'
  foreign : ∀ x, w.machine.Foreign x → w'.machine.Foreign x
  moves : ∀ m, w'.Moves m → w.Moves m

namespace Attended

theorem quiet (g : Kept μ S w) (q : w.Quiet w') : Attended μ S w w' := by
  refine ⟨q.toAlong, g.quiet q, .quiet g q, fun _ f => (q.code f).1, fun m moves => ?_⟩
  unfold World.Moves
  rw [← q.toBeside.redirection?, ← q.toBeside.methods?]
  exact moves

theorem refl (g : Kept μ S w) : Attended μ S w w := .quiet g (.refl w)

theorem trans (h : Attended μ S w w') (h' : Attended μ S w' w'') : Attended μ S w w'' :=
  ⟨h.toAlong.trans h'.toAlong, h'.kept, h.guided.trans h'.guided,
    fun x f => h'.foreign x (h.foreign x f), fun m moves => h.moves m (h'.moves m moves)⟩

/-- A detour that was applied has changed. -/
theorem of_becomes (d' : MethodDetour) (g : Kept μ S w) (found : w.detour? d.id = some d)
    (patched : d.redirection = some r) (alike : d.Alike d') (idle : d'.busy = false)
    (b : w.Becomes d' w')
    (posts : w'.machine.Posts S.stubs (d'.blocks ++ (w.without d.id).holdings))
    (packed : w'.machine.Packed) (foreign : ∀ x, w.machine.Foreign x → w'.machine.Foreign x)
    (laid : ∀ r, d'.redirection = some r → r.Laid w'.machine ∧ r.alternate.isSome)
    (more : ∀ x ∈ d.alternates, x ∈ d'.alternates)
    (leads : ∀ s ∈ S.stubs, s.target w'.machine = s.target w.machine ∨
      s.target w'.machine ∈ w'.entries) : Attended μ S w w' := by
  obtain ⟨c, here, root⟩ := (g.found found).root
  have before : d.redirection.isSome := Option.isSome_iff_exists.mpr ⟨r, patched⟩
  have found' : w.detour? d'.id = some d := alike.id.symm ▸ found
  refine ⟨b.along, g.becomes d' found alike idle b (alike.id.symm ▸ posts) packed foreign laid,
    .of_becomes d' g rfl here root found alike.id b more (fun s ms => (leads s ms).imp_right Or.inr)
      fun _ => Or.inl before, foreign, fun m ⟨id, r', target, factory, there, names⟩ => ?_⟩
  rw [b.methods? found' alike] at names
  rw [b.redirection? found'] at there
  by_cases it : id = d'.id
  · exact ⟨id, r, target, factory, it ▸ (redirection?_of_found found').trans patched, names⟩
  · rw [Function.update_of_ne it] at there
    exact ⟨id, r', target, factory, there, names⟩

end Attended

/-- Records with the same alternate entries make for the same entries. -/
theorem entries_put (d₁ d₂ : MethodDetour) (id : d₁.id = d₂.id)
    (same : d₁.alternates = d₂.alternates) : (w.put d₁).entries = (w.put d₂).entries := by
  have alternates : (w.put d₁).alternates = (w.put d₂).alternates := by
    unfold alternates put
    simp only [List.flatMap_map]
    refine List.flatMap_congr fun x _ => ?_
    rw [id]
    split
    · exact same
    · rfl
  unfold entries
  rw [alternates]

theorem Beside.entries (b : w.Beside w') : w'.entries = w.entries := by
  unfold World.entries
  rw [b.alternates]

/-- A detour follows its method, or it is not applied any more. -/
theorem followSource_attends (g : Kept μ S w) (found : w.detour? d.id = some d)
    (patched : d.redirection = some r) (room : w.machine.Code start) :
    (followSource d r start size (tellWatcher d.watcher)).Ends w (fun _ => Attended μ S w)
      (Attended μ S w) := by
  have anchored := g.found found
  -- The alternate entry of the earlier code is kept.
  obtain ⟨posts, target, ⟨_, spared, _⟩, _⟩ := posts_abandon g.posts g.numbered found patched
  have packed : (r.abandon w.machine).Packed := Redirection.abandon_packed g.packed r
  have created := (Redirection.create_ends posts.holds w.platform.architecture w.platform.settings
    start r.target (some size)).and (Redirection.create_packed posts.holds packed
      w.platform.architecture w.platform.settings start r.target (some size))
  let moved (fresh : Redirection) (busy : Bool) : MethodDetour :=
    { (d.withdrawn r).redirected fresh with busy }
  apply (followSource_tells (R := fun fresh m => m.Packed ∧ fresh.alternate.isSome ∧
      (∀ x, w.machine.Foreign x → m.Foreign x) ∧ fresh.Laid m ∧
      m.Posts S.stubs ((moved fresh false).blocks ++ (w.without d.id).holdings) ∧
      ∀ s ∈ S.stubs, s.target m = s.target w.machine ∨
        s.target m ∈ (w.put (moved fresh false)).entries) found created
    fun fresh w₁ b ⟨⟨carried, callable⟩, packed₁⟩ => ?_).mono
  · rintro ⟨⟩ w' ⟨fresh, b, packed', callable, foreign, laid, posts', leads⟩
    refine .of_becomes (moved fresh false) g found patched ⟨rfl, rfl, rfl, rfl, rfl⟩ rfl b
      posts' packed' foreign (fun r' hr => ?_)
      (fun _ mx => List.mem_append_right _ (MethodDetour.mem_retired patched mx)) fun s ms => ?_
    · obtain rfl := Option.some.inj hr
      exact ⟨laid, callable⟩
    · rw [Beside.entries b]
      exact leads s ms
  · rintro w' ⟨b, back, packed'⟩
    have posts' : w'.machine.Posts S.stubs ((d.withdrawn r).blocks ++ (w.without d.id).holdings) :=
      posts.gains back
    exact .of_becomes (d.withdrawn r) g found patched ⟨rfl, rfl, rfl, rfl, rfl⟩ anchored.idle
      b posts' packed' (fun x f => back.foreign x (spared x f)) (fun _ hr => by cases hr)
      (fun _ mx => List.mem_append_right _ (MethodDetour.mem_retired patched mx))
      fun s ms => Or.inl ((posts.target_gains ms back).trans (target s ms))
  · -- Where the fresh code was redirected, the chain is told.
    have foreign₁ (i : Nat) (hi : i < fresh.patch.jump.size) :
        (r.abandon w.machine).Foreign (start + i) :=
      spared _ (room i (Nat.lt_of_lt_of_le hi fresh.patch.jump.size_le))
    obtain ⟨holds, spares, stands, _⟩ := carried.done foreign₁
    have stubs := spares.mono (List.subset_append_left (S.stubs.map Stub.block)
      ((d.withdrawn r).retired ++ (w.without d.id).holdings))
    have posts₁ : w₁.machine.Posts S.stubs
        ((moved fresh false).blocks ++ (w.without d.id).holdings) := by
      refine posts.spared stubs (holds.mono (List.Perm.subperm ?_))
      rw [MethodDetour.blocks_of_patched (d := moved fresh false) rfl, List.append_assoc]
      exact (perm_between _ _ _).symm
    have chain (k : ChainKey) : w₁.chain? k = w.chain? k := (Beside.chain? b k).trans rfl
    have entries : w₁.entries = (w.put (moved fresh false)).entries :=
      (Beside.entries b).trans (entries_put (moved fresh true) (moved fresh false) rfl rfl)
    apply (tellWatcher_points (E := fun _ => False) posts₁ (fun key c watched here n mn => ?_)
      fun d₂ md₂ entry => entry_mem_entries md₂).mono
    · rintro ⟨⟩ w₂ ⟨beside, pages, pointed⟩
      refine ⟨beside, packed₁.of_pages pages, callable (b.platform ▸ g.keeps), fun x f => ?_,
        stands.toLaid.later pointed.foreign, pointed.posts, fun s ms => ?_⟩
      · exact pointed.foreign x (spares.foreign x (spared x f))
      · rw [← target s ms, ← posts.target_eq ms stubs, ← entries]
        exact pointed.leads s ms
    · exact fun _ h => h
    · rw [chain] at here
      exact Store.mem_of_hook ((g.chains key c (anchored.watched key watched) here).nodes n
        (List.mem_append_left _ mn))

/-- A detour follows its target, or nothing happens. No stub is concerned. -/
theorem followTarget_attends (g : Kept μ S w) (found : w.detour? d.id = some d)
    (patched : d.redirection = some r) :
    (followTarget d r start).Ends w (fun _ => Attended μ S w) (Attended μ S w) := by
  have anchored := g.found found
  obtain ⟨laid, callable⟩ := anchored.laid r patched
  have perm := holdings_perm g.numbered.ids (List.mem_of_find?_eq_some found)
  rw [MethodDetour.blocks_of_patched patched, List.append_assoc] at perm
  have holds : w.machine.Holds (r.blocks ++ (S.stubs.map Stub.block ++
      (d.retired ++ (w.without d.id).holdings))) :=
    g.posts.holds.mono ((perm_between _ _ _).trans (perm.symm.append_left _)).subperm
  apply (followTarget_becomes ((Redirection.retarget_ends holds laid callable start).and
    (Redirection.retarget_packed holds g.packed r start))).mono
  · rintro ⟨⟩ w' ⟨_, b, ⟨_, rfl, turned⟩, packed⟩
    have spares := turned.spares.mono (List.subset_append_left (S.stubs.map Stub.block) _)
    have posts : w'.machine.Posts S.stubs
        (MethodDetour.blocks (d.redirected (r.aimed start)) ++
          (w.without d.id).holdings) := by
      refine g.posts.spared spares (turned.holds.mono (List.Perm.subperm ?_))
      rw [MethodDetour.blocks_of_patched (d := (d.redirected (r.aimed start))) rfl,
        List.append_assoc]
      exact (perm_between _ _ _).symm
    refine .of_becomes (d.redirected (r.aimed start)) g found patched
      ⟨rfl, rfl, rfl, rfl, rfl⟩ anchored.idle b posts packed turned.spares.foreign
      (fun r' hr => ?_) (fun x mx => ?_) fun s ms => Or.inl (g.posts.target_eq ms spares)
    · obtain rfl := Option.some.inj hr
      exact ⟨turned.laid, callable⟩
    · unfold MethodDetour.alternates at mx ⊢
      rw [patched] at mx
      exact mx
  · rintro w' ⟨beside, ⟨_, same⟩, _⟩
    exact .quiet g ⟨beside, same⟩

/-! ## All detours -/

/-- A detour that is told of fresh code follows; a failure goes to the log. -/
theorem followOrReport_attends (g : Kept μ S w) (room : w.Moves method → w.machine.Code start)
    (id : Nat) : (followOrReport method start size id).Ends w (fun _ => Attended μ S w) E := by
  have still : Attended μ S w w := .refl g
  have follows : (follow (fun d => tellWatcher d.watcher) id method start size).Ends w
      (fun _ => Attended μ S w) (Attended μ S w) := by
    refine follow_ends (fun _ => still) (fun _ _ _ => still) ?_ ?_
    · intro d r found patched _ ofSource
      obtain rfl := id_of_detour found
      obtain rfl := ofSource
      exact followSource_attends g found patched (room ⟨d.id, r, d.target, d.factory,
        (redirection?_of_found found).trans patched, methods?_of_found found⟩)
    · intro d r found patched _ _ _
      obtain rfl := id_of_detour found
      exact followTarget_attends g found patched
  apply Ends.bind
  apply Ends.outcome
  apply follows.mono
  · exact fun _ _ attended => Ends.pure attended
  · intro w₁ attended e
    apply withDetour_ends
    · exact fun _ _ => report_ends fun _ quiet => attended.trans (.quiet attended.kept quiet)
    · exact fun _ => attended

/-- Fresh code is announced. Stubs lead where they led, or to code that can be called. -/
theorem deliver_attends (g : Kept μ S w) {n : CompiledMethod}
    (room : w.Moves (w.nameOf n.method) → w.machine.Code n.start) :
    (deliver n).Ends w (fun _ => Attended μ S w) E := by
  refine deliver_keeps (I := Attended μ S w) (.refl g)
    (fun w₁ w₂ quiet attended => attended.trans (.quiet attended.kept quiet))
    (fun w₁ attended => attended.names _) fun id w₁ attended => ?_
  refine (followOrReport_attends attended.kept (fun moves i hi => ?_) id).mono
    (fun _ _ later => attended.trans later) fun _ h => h
  exact attended.foreign _ (room (attended.moves _ moves) i hi)

end Detouring.World
