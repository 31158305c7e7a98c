-- A detour whose two methods are compiled again and again. Wherever the runtime says that their
-- code is, the jump at the code of the source leads to the code of the target, but for a jump that
-- is stuck: it stays pointed at earlier code.
import Detouring.Proofs.Detour.Notices

namespace Detouring

open Op Machine

/-- Others work on memory of theirs. What was handed out is as it was, and code of others is still
theirs. -/
structure Machine.Respects (m m' : Machine) : Prop where
  holds : ∀ K, m.Holds K → m'.Holds K
  foreign : ∀ x, m.Foreign x → m'.Foreign x
  bytes : ∀ x, m.memory.isMapped x = true → ¬ m.Foreign x → m'.memory.bytes x = m.memory.bytes x

namespace World

open Course

variable {w w₁ : World} {id body goal : Nat} {source target : Method} {d : MethodDetour}
  {n : CompiledMethod}

/-! ## Runs -/

/-- The runtime has compiled a method and is about to say so. If a detour of the method is applied,
there is room for its jump at the fresh code. The jump of the detour in question was not written
over, unless it is its source that was compiled, and then no other detour of that source is
applied. -/
structure Compiled (id : Nat) (source : Method) (n : CompiledMethod) (w w₁ : World) : Prop where
  rest : ∃ machine runtime events, w₁ = { w with machine, runtime, events }
  subscribers : w₁.runtime.subscribers = w.runtime.subscribers
  respects : w.machine.Respects w₁.machine
  room : w₁.Moves (w₁.nameOf n.method) → Roomy (w₁.nameOf n.method) n.start w₁
  word : n.start < wordCount
  jump : w₁.nameOf n.method ≠ source → ∀ r, w.redirection? id = some r →
    ∀ i < r.patch.jump.size,
      w₁.machine.memory.bytes (r.source + i) = w.machine.memory.bytes (r.source + i)
  only : w₁.nameOf n.method = source → ∀ other target factory, other ≠ id →
    w.methods? other = some (source, target, factory) → w.redirection? other = none

/-- A detour between two methods is applied to code of others, beside the jumps of other detours.
Its factory hears of fresh code. -/
structure Applied (id : Nat) (source target : Method) (d : MethodDetour)
    (beforePatch : Option Nat → Op World Unit) (w : World) (body goal : Nat) : Prop where
  orderly : w.Orderly
  found : w.detour? id = some d
  ofSource : d.source = source
  ofTarget : d.target = target
  different : source ≠ target
  still : w.Still source ∧ w.Still target
  keeps : w.platform.keepsReplacedCode = true
  hears : w.Hears d.factory
  mild : ∀ entry, Mild (beforePatch entry)
  ok : ((applyDetour id beforePatch).on w).1 = .ok ()
  bodies : ((bodies d).on (w.put { d with busy := true })).1 = .ok (body, goal)
  word : goal < wordCount
  lands : Lands id w ((applyDetour id beforePatch).on w).2
  apart : ∀ r, ((applyDetour id beforePatch).on w).2.redirection? id = some r →
    ∀ other r', other ≠ id → w.redirection? other = some r' → r.Apart r'

/-- Where the code of the source is after a notice. -/
def sourceAfter (source method : Method) (start body : Nat) : Nat :=
  if method = source then start else body

/-- Where a detour leads after a notice. A jump that is stuck stays. -/
def targetAfter (target method : Method) (patch : Option Redirection) (start goal : Nat) : Nat :=
  if method = target then
    if patch.any fun r => decide (r.Stuck start) then goal else start
  else goal

/-- What applying a detour and notices come to, and where the code of its methods is. -/
inductive Trail (id : Nat) (source target : Method) : World → Nat → Nat → Prop where
  | applied {w : World} {d : MethodDetour} {beforePatch : Option Nat → Op World Unit}
      {body goal : Nat} (applied : Applied id source target d beforePatch w body goal) :
      Trail id source target ((applyDetour id beforePatch).on w).2 body goal
  | told {w w₁ : World} {body goal : Nat} (trail : Trail id source target w body goal)
      {n : CompiledMethod} (compiled : Compiled id source n w w₁) :
      Trail id source target ((deliver n).on w₁).2
        (sourceAfter source (w₁.nameOf n.method) n.start body)
        (targetAfter target (w₁.nameOf n.method) (w.redirection? id) n.start goal)

/-- If there are no other detours and nothing else has happened, there is little to ask for. -/
theorem Compiled.of_single (single : ∀ d ∈ w.detours, d.id = id ∧ d.source = source)
    (word : n.start < wordCount) (code : w.nameOf n.method = source → w.machine.Code n.start) :
    Compiled id source n w w := by
  have known {other : Nat} {names : Method × Method × Nat} (h : w.methods? other = some names) :
      other = id ∧ names.1 = source := by
    obtain ⟨d, found, rfl⟩ := Option.map_eq_some_iff.mp h
    obtain ⟨it, ofSource⟩ := single d (List.mem_of_find?_eq_some found)
    exact ⟨(id_of_detour found).symm.trans it, ofSource⟩
  refine ⟨⟨_, _, _, rfl⟩, rfl, ⟨fun _ h => h, fun _ h => h, fun _ _ _ => rfl⟩,
    fun ⟨_, _, _, _, _, hm⟩ => ⟨code (known hm).2, fun other r s t g _ hm' away => ?_⟩, word,
    fun _ _ _ _ _ => rfl, fun _ other t g away hm => (away (known hm).1).elim⟩
  exact (away ((known hm').2.trans (known hm).2.symm)).elim

/-- While the detour is applied, its jump stands at the one place and leads to the other. -/
structure Tracked (id : Nat) (source target : Method) (w : World) (body goal : Nat) : Prop where
  orderly : w.Orderly
  keeps : w.platform.keepsReplacedCode = true
  different : source ≠ target
  knows : ∃ factory, w.methods? id = some (source, target, factory) ∧ w.Hears factory
  word : goal < wordCount
  leads : ∀ r, w.redirection? id = some r → r.source = body ∧ r.target = goal ∧ Alone id r w

theorem Orderly.respects {machine : Machine} (o : w.Orderly) (r : w.machine.Respects machine)
    (runtime : Runtime) (events : List Event) :
    ({ w with machine, runtime, events } : World).Orderly :=
  ⟨o.ids, o.numbered, r.holds _ o.holds, fun d md => (o.settled d md).later r.foreign rfl⟩

/-- A detour that was applied is where the code was found. -/
theorem Applied.tracked {beforePatch : Option Nat → Op World Unit}
    (applied : Applied id source target d beforePatch w body goal) :
    Tracked id source target ((applyDetour id beforePatch).on w).2 body goal := by
  obtain ⟨orderly, found, rfl, rfl, different, ⟨still, still'⟩, keeps, hears, mild, ok, bodies,
    word, lands, apart⟩ := applied
  obtain rfl := id_of_detour found
  have md := List.mem_of_find?_eq_some found
  -- The operation refuses a detour that is applied already.
  have bare : d.redirection = none := by
    by_contra applied
    have refused : (applyDetour d.id beforePatch).Ends w (fun _ _ => False) fun w' => w' = w :=
      applyDetour_refused found (Or.inl applied)
    rcases refused.run with ⟨_, _, never⟩ | ⟨_, failed, _⟩
    · exact never
    · cases ok.symm.trans failed
  have idle := (orderly.settled d md).idle
  rcases (applyDetour_carried (orderly.holds_of md) found bare idle mild still still').run with
    ⟨_, _, r, pins, becomes, same, carried, callable⟩ | ⟨_, failed, _⟩
  · have here : _ = Function.update w.redirection? d.id (some r) := becomes.redirection? found
    have there : ((applyDetour d.id beforePatch).on w).2.redirection? d.id = some r := by
      rw [here, Function.update_self]
    obtain ⟨now, stands, _, _⟩ :=
      orderly.applied found bare becomes carried callable (lands r there)
    obtain ⟨rfl, rfl⟩ := Prod.mk.inj (Except.ok.inj (bodies.symm.trans same))
    refine ⟨now, becomes.platform ▸ keeps, different, ⟨d.factory, ?_, ?_⟩, word, fun r' hr => ?_⟩
    · rw [becomes.methods? found ⟨rfl, rfl, rfl, rfl, rfl⟩]
      exact methods?_of_found found
    · exact ⟨becomes.subscribers ▸ hears.1, becomes.factories ▸ hears.2⟩
    · obtain rfl := Option.some.inj (there.symm.trans hr)
      refine ⟨rfl, rfl, stands, fun other r' beside hr' => apart r there other r' beside ?_⟩
      rwa [here, Function.update_of_ne beside] at hr'
  · cases ok.symm.trans failed

namespace Tracked

/-- The notice, as it concerns the detour. -/
def course (id : Nat) (source target : Method) (n : CompiledMethod) (w w₁ : World)
    (body goal : Nat) : Course :=
  ⟨id, source, target, w₁.nameOf n.method, n.start,
    sourceAfter source (w₁.nameOf n.method) n.start body,
    targetAfter target (w₁.nameOf n.method) (w.redirection? id) n.start goal⟩

theorem opens (t : Tracked id source target w body goal) (compiled : Compiled id source n w w₁) :
    (course id source target n w w₁ body goal).Open w₁ w₁ := by
  obtain ⟨⟨machine, runtime, events, rfl⟩, _, respects, room, _, _, only⟩ := compiled
  exact ⟨t.orderly.respects respects runtime events, .refl _, rfl, rfl, rfl, room, only⟩

/-- If nobody has written over the jump, it still stands. -/
theorem alone (t : Tracked id source target w body goal) (compiled : Compiled id source n w w₁)
    (differs : w₁.nameOf n.method ≠ source) {r : Redirection} (hr : w.redirection? id = some r) :
    Alone id r w₁ := by
  obtain ⟨⟨machine, runtime, events, rfl⟩, _, respects, _, _, jump, _⟩ := compiled
  obtain ⟨_, _, alone⟩ := t.leads r hr
  refine ⟨alone.stands.congr (fun i hi => ⟨respects.foreign _ (alone.stands.foreign i hi),
    jump differs r hr i hi⟩) fun b mb x has => ?_, alone.apart⟩
  have held := mem_holdings hr mb
  exact respects.bytes x (t.orderly.holds.mapped held has) (t.orderly.holds.not_foreign held has)

/-- The detour is where it is to be if the notice does not change where that is. -/
theorem late (t : Tracked id source target w body goal) (compiled : Compiled id source n w w₁)
    (notSource : w₁.nameOf n.method ≠ source) {r : Redirection} (hr : w.redirection? id = some r)
    (same : (course id source target n w w₁ body goal).goal = goal)
    (stuck : w₁.nameOf n.method = target → r.Stuck n.start) :
    Late (course id source target n w w₁ body goal) r w₁ := by
  obtain ⟨here, leads, _⟩ := t.leads r hr
  exact ⟨here.trans (if_neg notSource).symm, leads.trans same.symm,
    t.alone compiled notSource hr, fun _ ofTarget => Or.inr (stuck ofTarget)⟩

theorem late_of_aside (t : Tracked id source target w body goal)
    (compiled : Compiled id source n w w₁) (notSource : w₁.nameOf n.method ≠ source)
    (notTarget : w₁.nameOf n.method ≠ target) {r : Redirection}
    (hr : w.redirection? id = some r) : Late (course id source target n w w₁ body goal) r w₁ :=
  t.late compiled notSource hr (if_neg notTarget) fun same => (notTarget same).elim

/-- When the notice is sent, the detour is still to be told, or it is as it is to be. -/
theorem early_or_late (t : Tracked id source target w body goal)
    (compiled : Compiled id source n w w₁) {r : Redirection} (hr : w.redirection? id = some r) :
    Early (course id source target n w w₁ body goal) r w₁ ∨
      Late (course id source target n w w₁ body goal) r w₁ := by
  obtain ⟨here, leads, _⟩ := t.leads r hr
  by_cases ofSource : w₁.nameOf n.method = source
  · exact Or.inl (.ofSource ofSource (leads.trans (if_neg (ofSource ▸ t.different)).symm))
  by_cases ofTarget : w₁.nameOf n.method = target
  -- A jump that is stuck is already where it will stay.
  · by_cases stuck : r.Stuck n.start
    · exact Or.inr (t.late compiled ofSource hr (by simp [course, targetAfter, hr, stuck])
        fun _ => stuck)
    · exact Or.inl (.ofTarget ofSource ofTarget
        (by simp [course, targetAfter, hr, stuck, ofTarget]) stuck
        (here.trans (if_neg ofSource).symm) (t.alone compiled ofSource hr))
  · exact Or.inr (t.late_of_aside compiled ofSource ofTarget hr)

/-- A notice leaves the detour where the code is now. -/
theorem told (t : Tracked id source target w body goal) (compiled : Compiled id source n w w₁) :
    Tracked id source target ((deliver n).on w₁).2
      (sourceAfter source (w₁.nameOf n.method) n.start body)
      (targetAfter target (w₁.nameOf n.method) (w.redirection? id) n.start goal) := by
  let c := course id source target n w w₁ body goal
  have same : w₁.redirection? = w.redirection? ∧ w₁.methods? = w.methods? ∧
      w₁.platform = w.platform ∧ w₁.factories = w.factories := by
    obtain ⟨machine, runtime, events, rfl⟩ := compiled.rest
    exact ⟨rfl, rfl, rfl, rfl⟩
  obtain ⟨redirections, methods, platform, factories⟩ := same
  obtain ⟨factory, names, subscribed, known⟩ := t.knows
  have k : c.Knows w₁ factory := ⟨methods ▸ names, fun same => if_pos same⟩
  have keeps : w₁.platform.keepsReplacedCode = true := platform ▸ t.keeps
  have hears : w₁.Hears factory := ⟨compiled.subscribers ▸ subscribed, factories ▸ known⟩
  have o := t.opens compiled
  have told : c.Told w₁ ((deliver n).on w₁).2 := left_of_ends <| deliver_told k hears rfl rfl keeps
    ⟨o, fun r hr => t.early_or_late compiled (redirections ▸ hr)⟩
    fun notSource notTarget => ⟨o, fun r hr =>
      t.late_of_aside compiled notSource notTarget (redirections ▸ hr)⟩
  obtain ⟨o, done⟩ := told
  refine ⟨o.orderly, ?_, t.different, ⟨factory, o.methods ▸ k.methods,
    o.subscribers ▸ hears.1, ?_⟩, ?_, fun r hr =>
      ⟨(done r hr).here, (done r hr).leads, (done r hr).alone⟩⟩
  · rw [o.platform]
    exact keeps
  · rw [o.along.factories]
    exact hears.2
  · unfold targetAfter
    split
    · split
      · exact t.word
      · exact compiled.word
    · exact t.word

end Tracked

theorem Trail.tracked (trail : Trail id source target w body goal) :
    Tracked id source target w body goal := by
  induction trail with
  | applied applied => exact applied.tracked
  | told _ compiled ih => exact ih.told compiled

/-- However often the source and the target of a detour are compiled, as long as the detour is
applied, there is a jump where the code of the source was last said to be. It leads to where the
code of the target was last said to be, unless the jump was stuck. -/
theorem the_detour_follows_both_methods (trail : Trail id source target w body goal)
    (words : ∀ b ∈ w.machine.memory.places, b + pageSize ≤ wordCount) :
    ∃ d, w.detour? id = some d ∧ d.source = source ∧ d.target = target ∧
      (d.isApplied = true → w.machine.memory.jumpDestination? body = some goal) := by
  have t := trail.tracked
  obtain ⟨_, names, _⟩ := t.knows
  obtain ⟨d, md, rfl, ofSource, ofTarget, _⟩ := t.orderly.exists_of_methods names
  refine ⟨d, t.orderly.found_iff.mpr ⟨md, rfl⟩, ofSource, ofTarget, fun applied => ?_⟩
  obtain ⟨r, patched⟩ := Option.isSome_iff_exists.mp (d.isApplied_eq ▸ applied)
  have there := (t.orderly.redirection? md).trans patched
  obtain ⟨rfl, rfl, alone⟩ := t.leads r there
  refine alone.stands.jumpDestination? (fun b mb x has => ?_) words t.word
  exact t.orderly.holds.mapped (mem_holdings there mb) has

/-! ## Two methods -/

/-- Two methods, with a detour from the one to the other that is not applied yet. There is more
code, some of it far away. -/
def twoMethods : World where
  machine := { arena := { source :=
    { memory := ((({} : Memory).map 4096 .readExecute none).fill 4096 64 0x90).map
        0x200000000000 .readExecute none, next := 8192 } } }
  platform :=
    { architecture := {}, system := {}, runtimeKind := .native, runtimeFlags := 0, settings := {},
      convention := .systemV }
  runtime :=
    { methods := [{ token := 1, entry := 4096 }, { token := 2, entry := 4200 }]
      subscribers := [0] }
  factories := [0]
  detours := [{ id := 0, factory := 0, source := .token 1, target := .token 2 }]
  nextDetour := 1

/-- The detour is applied, -/
def detoured : World := ((applyDetour 0 fun _ => pure ()).on twoMethods).2

/-- the source is compiled again, -/
def moved : World := ((deliver ⟨.token 1, 4128, 32⟩).on detoured).2

/-- and so is the target. -/
def turned : World := ((deliver ⟨.token 2, 4300, 32⟩).on moved).2

/-- The target is compiled to a place that is far away. -/
def outrun : World := ((deliver ⟨.token 2, 0x200000000000, 32⟩).on detoured).2

theorem the_detour_follows_two_notices : Trail 0 (.token 1) (.token 2) turned 4128 4300 ∧
    (turned.detour? 0).map MethodDetour.isApplied = some true ∧
    turned.machine.memory.jumpDestination? 4128 = some 4300 := by
  have regular : twoMethods.machine.memory.Regular := ⟨by decide, by decide⟩
  have orderly : twoMethods.Orderly := by
    refine ⟨by decide, by decide, ⟨List.nodup_nil, ∅, .fresh rfl regular (by decide), ?_⟩, ?_⟩
    · exact fun _ mb => (List.not_mem_nil mb).elim
    · intro d md
      obtain rfl := List.mem_singleton.mp md
      exact ⟨rfl, fun _ chain => (by cases chain), fun _ hr => (by cases hr),
        fun _ _ hr => (by cases hr)⟩
  have silent (token entry : Nat)
      (known : twoMethods.runtime.lookup? (.token token) = some { token, entry }) :
      twoMethods.Still (.token token) := by
    refine Or.inr (Or.inl fun x there c mc => ?_)
    obtain rfl := Option.some.inj (known.symm.trans there)
    cases mc
  have start : Trail 0 (.token 1) (.token 2) detoured 4096 4200 := by
    refine .applied ⟨orderly, rfl, rfl, rfl, by decide, ⟨silent 1 4096 rfl, silent 2 4200 rfl⟩,
      by decide, by decide, fun _ => mild_pure (), by decide +kernel, by decide +kernel, by decide,
      fun r hr i hi => ?_, fun r _ other r' beside hr' => ?_⟩
    · have written : (detoured.redirection? 0).map (fun r => (r.source, r.patch.jump.size)) =
          some (4096, 5) := by decide +kernel
      rw [show detoured.redirection? 0 = some r from hr] at written
      obtain ⟨source, size⟩ := Prod.mk.inj (Option.some.inj written)
      rw [source]
      exact foreign_of_page (by decide) (by decide : 4096 ∈ _) (fun p mp => (by cases mp))
        (by omega) (by unfold pageSize; omega)
    · obtain ⟨d, md, it, _⟩ := orderly.exists_of_redirection hr'
      obtain rfl := List.mem_singleton.mp md
      exact (beside it.symm).elim
  have told {w : World} {body goal body' goal' : Nat}
      (trail : Trail 0 (.token 1) (.token 2) w body goal) (n : CompiledMethod)
      (single : ∀ d ∈ w.detours, d.id = 0 ∧ d.source = .token 1) (word : n.start < wordCount)
      (code : w.nameOf n.method = .token 1 → w.machine.Code n.start)
      (source : sourceAfter (.token 1) (w.nameOf n.method) n.start body = body')
      (target : targetAfter (.token 2) (w.nameOf n.method) (w.redirection? 0) n.start goal =
        goal') :
      Trail 0 (.token 1) (.token 2) ((deliver n).on w).2 body' goal' :=
    source ▸ target ▸ trail.told (.of_single single word code)
  have code : detoured.machine.Code 4128 :=
    code_of_page (by decide) (by decide +kernel : 4096 ∈ _) (by decide +kernel) (by decide)
      (by decide)
  have first : Trail 0 (.token 1) (.token 2) moved 4128 4200 :=
    told start ⟨.token 1, 4128, 32⟩ (by decide +kernel) (by decide) (fun _ => code)
      (by decide +kernel) (by decide +kernel)
  have second : Trail 0 (.token 1) (.token 2) turned 4128 4300 :=
    told first ⟨.token 2, 4300, 32⟩ (by decide +kernel) (by decide)
      (fun same => absurd same (by decide +kernel)) (by decide +kernel) (by decide +kernel)
  have places : turned.machine.memory.places = [4096, 8192, 0x200000000000] := by decide +kernel
  have words : ∀ b ∈ turned.machine.memory.places, b + pageSize ≤ wordCount := by
    rw [places]
    decide
  have applied : (turned.detour? 0).map MethodDetour.isApplied = some true := by decide +kernel
  obtain ⟨d, found, _, _, leads⟩ := the_detour_follows_both_methods second words
  rw [found] at applied
  exact ⟨second, found ▸ applied, leads (Option.some.inj applied)⟩

/-- A short jump does not reach code that is far away. The detour stays applied, and it leads to
where the code of the target was before. -/
theorem a_jump_stays_behind : (outrun.detour? 0).map MethodDetour.isApplied = some true ∧
    outrun.machine.Code 0x200000000000 ∧
    outrun.machine.memory.jumpDestination? 4096 = some 4200 := by
  refine ⟨by decide +kernel, ?_, by decide +kernel⟩
  exact code_of_page (by decide) (by decide +kernel : 0x200000000000 ∈ _) (by decide +kernel)
    (by decide) (by decide)

end World

end Detouring
