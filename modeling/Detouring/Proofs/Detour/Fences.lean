-- What goes on around a detour whose code no other detour touches. Notices of fresh code may move the
-- other detours, but these stay off that code, and what is left alone of the detour is its record, its
-- code and its blocks. The detour itself follows, or gives up its jump.
import Detouring.Proofs.Detour.Aloof
import Detouring.Proofs.Detour.Answering
import Detouring.Proofs.Detour.Following
import Detouring.Proofs.Jump.Keeping

namespace Detouring

open Op Machine

variable {stubs stubs' : List Stub} {K L : List Block} {m m' : Machine} {r r' : Redirection}
  {left : Option Redirection} {own busy : Prop} {id start size other : Nat} {code : Set Nat}
  {method : Method} {d d' : MethodDetour} {w w' w'' w₀ : World} {E : World → Prop}

namespace Redirection

/-- A redirection that has answered is where it was, with as much room, or it has moved. -/
theorem Answers.roomy (h : r.Answers own busy start m m' left) (roomy : r.Roomy m)
    (fresh : own → m.Code start) (foreign : ∀ x, m.Foreign x → m'.Foreign x)
    (there : left = some r') :
    r'.Roomy m' ∧ (r'.source = r.source ∧ r'.room = r.room ∨ own ∧ r'.source = start) := by
  rcases h with ⟨_, _, _⟩ | ⟨_, _⟩ | ⟨ofSource, here, _, stands, _⟩ | ⟨_, led⟩
  · obtain rfl := Option.some.inj there
    exact ⟨roomy.later foreign, Or.inl ⟨rfl, rfl⟩⟩
  · cases there
  · obtain rfl := Option.some.inj there
    refine ⟨⟨stands.toLaid, fun i hi => foreign _ ?_⟩, Or.inr ⟨ofSource, here⟩⟩
    rw [here]
    exact fresh ofSource i (Nat.lt_of_lt_of_le hi (room_le _))
  · obtain rfl := Option.some.inj there
    refine ⟨⟨led.laid, fun i hi => foreign _ ?_⟩, Or.inl ⟨led.source, led.room⟩⟩
    rw [led.source]
    exact roomy.room i (led.room ▸ hi)

/-- Beside the fresh code and the room of the redirection, no code of others changes. -/
theorem Answers.bytes (h : r.Answers own busy start m m' left) {x : Nat} (foreign : m.Foreign x)
    (fresh : own → x < start ∨ start + JumpForm.absolute.size ≤ x)
    (beside : x < r.source ∨ r.source + r.room ≤ x) : m'.memory.bytes x = m.memory.bytes x := by
  rcases h with ⟨_, code, _⟩ | ⟨_, code⟩ | ⟨ofSource, _, _, _, code⟩ | ⟨_, led⟩
  · exact code x foreign
  · exact code x foreign
  · exact code x foreign (fresh ofSource)
  · exact led.beside x foreign beside

/-- The redirection is in force, and all the room that its jump may ever take up is in the code. -/
structure Seated (r : Redirection) (code : Set Nat) (m : Machine) : Prop extends Stands r m where
  within : ∀ i < r.room, r.source + i ∈ code

theorem Seated.later (h : r.Seated code m) (ground : ∀ x ∈ code, m'.Foreign x)
    (bytes : ∀ x ∈ code, m'.memory.bytes x = m.memory.bytes x)
    (blocks : ∀ b ∈ r.blocks, ∀ x, b.Has x → m'.memory.bytes x = m.memory.bytes x) :
    r.Seated code m' := by
  refine ⟨h.toStands.congr (fun i hi => ?_) blocks, h.within⟩
  have inside := h.within i (Nat.lt_of_lt_of_le hi r.size_le_room)
  exact ⟨ground _ inside, bytes _ inside⟩

/-- Whatever has become of the redirection, it stands in the code and leads to a place in memory. -/
theorem Answers.seated (h : r.Answers own busy start m m' left) (there : left = some r')
    (idle : ¬ busy) (ground : ∀ x ∈ code, m.Foreign x) (seated : ¬ own → r.Seated code m)
    (fresh : own → ∀ i < JumpForm.absolute.size, start + i ∈ code)
    (foreign : ∀ x, m.Foreign x → m'.Foreign x) (word : r.target < wordCount)
    (startWord : start < wordCount) : r'.Seated code m' ∧ r'.target < wordCount := by
  rcases h with ⟨aside, bytes, blocks⟩ | _ | ⟨ofSource, here, leads, stands, _⟩ | ⟨other, led⟩
  · obtain rfl := Option.some.inj there
    have s := seated fun ofSource => idle (aside ofSource)
    exact ⟨s.later (fun x mx => foreign x (ground x mx)) (fun x mx => bytes x (ground x mx)) blocks,
      word⟩
  · cases there
  · obtain rfl := Option.some.inj there
    refine ⟨⟨stands, fun i hi => ?_⟩, leads ▸ word⟩
    rw [here]
    exact fresh ofSource i (Nat.lt_of_lt_of_le hi (room_le _))
  · obtain rfl := Option.some.inj there
    have s := seated other
    refine ⟨⟨⟨led.laid, led.jump s.jump⟩, fun i hi => ?_⟩, led.leads ▸ startWord⟩
    rw [led.source]
    exact s.within i (led.room ▸ hi)

end Redirection

namespace World

/-! ## Keeping off -/

/-- The code is that of others than the detours and their arena, and the jumps of the other detours
keep off it, however long they may get. -/
structure Fenced (stubs : List Stub) (K : List Block) (id : Nat) (code : Set Nat) (w : World) : Prop
    extends Equipped stubs K w where
  ground : ∀ x ∈ code, w.machine.Foreign x
  neighbours : ∀ other r, other ≠ id → w.redirection? other = some r →
    r.Roomy w.machine ∧ ∀ i < r.room, r.source + i ∉ code

/-- Nothing was done to the detour, to the code and to the blocks of its jump. -/
structure Unharmed (id : Nat) (code : Set Nat) (w w' : World) : Prop where
  record : w'.detour? id = w.detour? id
  code : ∀ x ∈ code, w'.machine.memory.bytes x = w.machine.memory.bytes x
  blocks : ∀ r, w.redirection? id = some r → ∀ b ∈ r.blocks, ∀ x, b.Has x →
    w'.machine.memory.bytes x = w.machine.memory.bytes x

/-- Detours may have been told of fresh code. Methods and detours keep their names, and none that was
not applied is. -/
structure Onward (w w' : World) : Prop where
  along : w.Along w'
  methods : w'.methods? = w.methods?
  bare : ∀ id, w.redirection? id = none → w'.redirection? id = none
  foreign : ∀ x, w.machine.Foreign x → w'.machine.Foreign x

/-- Where the method has fresh code, another detour that would move there has room off the code, and
the detour itself has room in it. -/
structure Clear (id : Nat) (code : Set Nat) (method : Method) (start : Nat) (w : World) : Prop where
  others : ∀ other r target factory, other ≠ id → w.redirection? other = some r →
    w.methods? other = some (method, target, factory) →
      w.machine.Code start ∧ ∀ i < JumpForm.absolute.size, start + i ∉ code
  own : ∀ r target factory, w.redirection? id = some r →
    w.methods? id = some (method, target, factory) →
      ∀ i < JumpForm.absolute.size, start + i ∈ code

theorem redirection?_congr (same : w'.detour? id = w.detour? id) :
    w'.redirection? id = w.redirection? id := congrArg (·.bind MethodDetour.redirection) same

namespace Unharmed

theorem quiet (q : w.Quiet w') : Unharmed id code w w' := by
  have memory : w'.machine.memory = w.machine.memory :=
    congrArg (fun a : Arena PageSupply => a.source.memory) q.arena
  exact ⟨q.toBeside.detour? id, fun x _ => by rw [memory], fun _ _ _ _ x _ => by rw [memory]⟩

theorem refl (w : World) : Unharmed id code w w := quiet (.refl w)

theorem trans (h : Unharmed id code w w') (h' : Unharmed id code w' w'') :
    Unharmed id code w w'' :=
  ⟨h'.record.trans h.record, fun x mx => (h'.code x mx).trans (h.code x mx),
    fun r there b mb x has => (h'.blocks r ((redirection?_congr h.record).trans there) b mb x
      has).trans (h.blocks r there b mb x has)⟩

end Unharmed

namespace Onward

theorem quiet (q : w.Quiet w') : w.Onward w' :=
  ⟨q.toAlong, q.toBeside.methods?, fun _ none => by rw [q.toBeside.redirection?]; exact none,
    (Extends.of_arena q.arena).foreign⟩

theorem refl (w : World) : w.Onward w := quiet (.refl w)

theorem trans (h : w.Onward w') (h' : w'.Onward w'') : w.Onward w'' :=
  ⟨h.along.trans h'.along, h'.methods.trans h.methods,
    fun id none => h'.bare id (h.bare id none), fun x f => h'.foreign x (h.foreign x f)⟩

/-- The record of a detour has changed. -/
theorem of_becomes (b : w.Becomes d' w') (found : w.detour? d'.id = some d)
    (names : (d'.source, d'.target, d'.factory) = (d.source, d.target, d.factory))
    (bare : d.redirection = none → d'.redirection = none)
    (foreign : ∀ x, w.machine.Foreign x → w'.machine.Foreign x) : w.Onward w' := by
  refine ⟨b.along, b.methods?_of_names found names, fun id none => ?_, foreign⟩
  rw [b.redirection? found]
  by_cases it : id = d'.id
  · subst it
    rw [Function.update_self]
    exact bare ((redirection?_of_found found).symm.trans none)
  · rw [Function.update_of_ne it]
    exact none

theorem redirection? (h : w.Onward w') (there : w'.redirection? id = some r) :
    ∃ r, w.redirection? id = some r := by
  rw [← Option.isSome_iff_exists, ← Option.ne_none_iff_isSome]
  intro none
  cases (h.bare id none).symm.trans there

end Onward

theorem Clear.onward (c : w.Clear id code method start) (h : w.Onward w') :
    w'.Clear id code method start := by
  refine ⟨fun other r target factory away there names => ?_, fun r target factory there names => ?_⟩
  · obtain ⟨_, before⟩ := h.redirection? there
    obtain ⟨room, off⟩ := c.others other _ target factory away before (h.methods ▸ names)
    exact ⟨fun i hi => h.foreign _ (room i hi), off⟩
  · obtain ⟨_, before⟩ := h.redirection? there
    exact c.own _ target factory before (h.methods ▸ names)

namespace Fenced

/-- The other detours are as they were. -/
theorem later (f : w.Fenced stubs K id code) (e : w'.Equipped stubs' L)
    (foreign : ∀ x, w.machine.Foreign x → w'.machine.Foreign x)
    (same : ∀ other ≠ id, w'.redirection? other = w.redirection? other) :
    w'.Fenced stubs' L id code := by
  refine ⟨e, fun x mx => foreign x (f.ground x mx), fun other r away there => ?_⟩
  obtain ⟨roomy, off⟩ := f.neighbours other r away ((same other away).symm.trans there)
  exact ⟨roomy.later foreign, off⟩

theorem quiet (f : w.Fenced stubs K id code) (q : w.Quiet w') : w'.Fenced stubs K id code :=
  f.later (f.toEquipped.quiet q) (Extends.of_arena q.arena).foreign
    fun other _ => congrFun q.toBeside.redirection? other

end Fenced

/-! ## Telling the others -/

theorem Answered.onward (a : Answered stubs K own start d r w w')
    (found : w.detour? d.id = some d) (patched : d.redirection = some r) : w.Onward w' := by
  obtain ⟨⟨d', becomes, alike, _⟩, spares⟩ := a
  refine .of_becomes becomes (alike.id ▸ found) ?_ (fun bare => ?_) spares.foreign
  · rw [alike.source, alike.target, alike.factory]
  · cases patched.symm.trans bare

/-- What another detour does when it is told of fresh code leaves the detour alone. -/
theorem followOrReport_aside (away : other ≠ id) (f : w.Fenced stubs K id code)
    (clear : w.Clear id code method start) :
    (followOrReport method start size other).Ends w
      (fun _ w' => w'.Fenced stubs K id code ∧ Unharmed id code w w' ∧ w.Onward w') E := by
  have stays : w.Fenced stubs K id code ∧ Unharmed id code w w ∧ w.Onward w :=
    ⟨f, .refl w, .refl w⟩
  rcases there : w.redirection? other with _ | r
  · refine (followOrReport_quiet fun d found => ?_).mono (F := E) ?_ fun _ h => h
    · exact (redirection?_of_found found).symm.trans there
    · rintro ⟨⟩ _ rfl
      exact stays
  obtain ⟨d, found, patched⟩ := Option.bind_eq_some_iff.mp there
  obtain ⟨roomy, off⟩ := f.neighbours other r away there
  have fresh (ofSource : d.source = method) :=
    clear.others other r d.target d.factory away there (ofSource ▸ methods?_of_found found)
  obtain rfl := id_of_detour found
  apply (followOrReport_answers f.toEquipped found patched (fun _ => roomy)
    fun ofSource => (fresh ofSource).1).mono _ fun _ h => h
  rintro ⟨⟩ w' answered
  have onward := answered.onward found patched
  obtain ⟨⟨d', becomes, alike, _, answers, posts⟩, spares⟩ := answered
  have found' : w.detour? d'.id = some d := alike.id ▸ found
  have after := becomes.redirection? found'
  rw [alike.id] at after
  refine ⟨⟨f.toEquipped.becomes becomes found' (alike.id ▸ posts), fun x mx =>
    spares.foreign x (f.ground x mx), fun another r' away' there' => ?_⟩, ⟨?_, fun x mx => ?_,
      fun r' there' b mb => ?_⟩, onward⟩
  · by_cases it : another = d.id
    · subst it
      rw [after, Function.update_self] at there'
      obtain ⟨roomy', ⟨here, room⟩ | ⟨ofSource, here⟩⟩ :=
        answers.roomy roomy (fun ofSource => (fresh ofSource).1) spares.foreign there'
      · rw [here, room]
        exact ⟨roomy', off⟩
      · rw [here]
        exact ⟨roomy', fun i hi => (fresh ofSource).2 i (Nat.lt_of_lt_of_le hi r'.room_le)⟩
    · rw [after, Function.update_of_ne it] at there'
      obtain ⟨roomy', off'⟩ := f.neighbours another r' away' there'
      exact ⟨roomy'.later spares.foreign, off'⟩
  · exact becomes.detour?_of_ne (alike.id ▸ Ne.symm away)
  · have out {base size : Nat} (off : ∀ i < size, base + i ∉ code) : x < base ∨ base + size ≤ x := by
      by_contra within
      exact off (x - base) (by omega) (by rwa [Nat.add_sub_of_le (by omega)])
    exact answers.bytes (f.ground x mx) (fun ofSource => out (fresh ofSource).2) (out off)
  · exact spares.blocks b (List.mem_append_left _ (mem_holdings_without (Ne.symm away) there' mb))

/-! ## Telling the detour -/

/-- The detour is there and not at work, and where it is applied it leads to a place in memory and knows which
bytes it covers. -/
structure Tame (id : Nat) (w : World) : Prop where
  idle : ∃ d, w.detour? id = some d ∧ d.busy = false
  word : ∀ r, w.redirection? id = some r → r.target < wordCount
  whole : ∀ r, w.redirection? id = some r → r.patch.Whole

/-- If the detour is applied, its jump stands in the code. -/
def Sits (id : Nat) (code : Set Nat) (w : World) : Prop :=
  ∀ r, w.redirection? id = some r → r.Seated code w.machine

theorem Tame.of_record (t : w.Tame id) (same : w'.detour? id = w.detour? id) : w'.Tame id :=
  ⟨same ▸ t.idle, fun r there => t.word r ((redirection?_congr same).symm.trans there),
    fun r there => t.whole r ((redirection?_congr same).symm.trans there)⟩

theorem Tame.idle_of (t : w.Tame id) (found : w.detour? id = some d) : d.busy = false := by
  obtain ⟨_, found', idle⟩ := t.idle
  obtain rfl := Option.some.inj (found.symm.trans found')
  exact idle

theorem Sits.unharmed (s : w.Sits id code) (ground : ∀ x ∈ code, w'.machine.Foreign x)
    (u : Unharmed id code w w') : w'.Sits id code := by
  intro r there
  have there := (redirection?_congr u.record).symm.trans there
  exact (s r there).later ground u.code (u.blocks r there)

/-- Detours have been told of fresh code, and the detour in question is at rest. -/
structure Attends (stubs : List Stub) (K : List Block) (id : Nat) (code : Set Nat)
    (w w' : World) : Prop where
  fenced : w'.Fenced stubs K id code
  onward : w.Onward w'
  tame : w'.Tame id

theorem Attends.quiet (a : Attends stubs K id code w w') (q : w'.Quiet w'') :
    Attends stubs K id code w w'' :=
  ⟨a.fenced.quiet q, a.onward.trans (.quiet q), a.tame.of_record (q.toBeside.detour? id)⟩

/-- A detour that is told of fresh code moves there, is pointed there, stays or is not applied any
more. If its own method was compiled, it does not matter what has become of its jump. -/
theorem followOrReport_sits (f : w.Fenced stubs K id code) (clear : w.Clear id code method start)
    (word : start < wordCount) (tame : w.Tame id)
    (sits : ∀ d, w.detour? id = some d → d.source ≠ method → w.Sits id code) :
    (followOrReport method start size id).Ends w
      (fun _ w' => Attends stubs K id code w w' ∧ w'.Sits id code) E := by
  rcases there : w.redirection? id with _ | r
  · refine (followOrReport_quiet fun d found => ?_).mono (F := E) ?_ fun _ h => h
    · exact (redirection?_of_found found).symm.trans there
    · rintro ⟨⟩ _ rfl
      refine ⟨⟨f, .refl _, tame⟩, fun r there' => ?_⟩
      cases there.symm.trans there'
  obtain ⟨d, found, patched⟩ := Option.bind_eq_some_iff.mp there
  have fresh (ofSource : d.source = method) (i : Nat) (hi : i < JumpForm.absolute.size) :
      start + i ∈ code :=
    clear.own r d.target d.factory there (ofSource ▸ methods?_of_found found) i hi
  have seated (other : d.source ≠ method) : r.Seated code w.machine := sits d found other r there
  obtain rfl := id_of_detour found
  apply (followOrReport_answers f.toEquipped found patched
    (fun other => ⟨(seated other).toLaid, fun i hi => f.ground _ ((seated other).within i hi)⟩)
    fun ofSource i hi => f.ground _ (fresh ofSource i hi)).mono _ fun _ h => h
  rintro ⟨⟩ w' answered
  have onward := answered.onward found patched
  obtain ⟨⟨d', becomes, alike, idle, answers, posts⟩, spares⟩ := answered
  have found' : w.detour? d'.id = some d := alike.id ▸ found
  have here : w'.detour? d.id = some d' := alike.id ▸ becomes.detour? found'
  have after := becomes.redirection? found'
  rw [alike.id] at after
  have f' : w'.Fenced stubs K d.id code :=
    f.later (f.toEquipped.becomes becomes found' (alike.id ▸ posts)) spares.foreign
      fun other away => by rw [after, Function.update_of_ne away]
  have rest : d'.busy = false := idle (tame.idle_of found)
  have awake : ¬ d.busy = true := by simp [tame.idle_of found]
  have done (r' : Redirection) (patched' : d'.redirection = some r') :
      r'.Seated code w'.machine ∧ r'.target < wordCount :=
    answers.seated patched' awake f.ground seated fresh spares.foreign (tame.word r there) word
  refine ⟨⟨f', onward, ⟨⟨d', here, rest⟩, fun r' there' => ?_, fun r' there' => ?_⟩⟩,
    fun r' there' => ?_⟩
  all_goals
    rw [redirection?_of_found here] at there'
    obtain ⟨seated, word⟩ := done r' there'
  · exact word
  · exact ⟨seated.applied, seated.backup⟩
  · exact seated

/-! ## Telling all of them -/

/-- A notice leaves the jump of the detour where it is or moves it; at most, the detour is not applied
any more. If the jump was not in force before, because the code was compiled to the same place, say,
it is in force after the notice, which has to reach the detour. -/
theorem deliver_sits {n : CompiledMethod} (f : w.Fenced stubs K id code)
    (clear : w.Clear id code (w.nameOf n.method) n.start) (word : n.start < wordCount)
    (tame : w.Tame id) (sits : w.Sits id code ∨ ∃ target factory,
      w.methods? id = some (w.nameOf n.method, target, factory) ∧ w.Hears factory) :
    (deliver n).Ends w (fun _ w' => Attends stubs K id code w w' ∧ w'.Sits id code) E := by
  let I (v : World) : Prop := Attends stubs K id code w v
  let J (v : World) : Prop := Attends stubs K id code w v ∧ v.Sits id code
  have begin : I w := ⟨f, .refl w, tame⟩
  have named (v : World) (i : I v) : v.nameOf n.method = w.nameOf n.method := i.onward.along.names _
  have aside (other : Nat) (away : other ≠ id) (v : World) (i : I v) :
      (followOrReport (w.nameOf n.method) n.start n.size other).Ends v
        (fun _ v' => I v' ∧ Unharmed id code v v') E :=
    (followOrReport_aside away i.fenced (clear.onward i.onward)).mono
      (fun _ _ ⟨fenced, still, onward⟩ =>
        ⟨⟨fenced, i.onward.trans onward, i.tame.of_record still.record⟩, still⟩) fun _ h => h
  have turn (v : World) (i : I v)
      (sits : ∀ d, v.detour? id = some d → d.source ≠ w.nameOf n.method → v.Sits id code) :
      (followOrReport (w.nameOf n.method) n.start n.size id).Ends v (fun _ => J) E :=
    (followOrReport_sits i.fenced (clear.onward i.onward) word i.tame sits).mono
      (fun _ _ ⟨a, sits⟩ => ⟨⟨a.fenced, i.onward.trans a.onward, a.tame⟩, sits⟩) fun _ h => h
  have stay (other : Nat) (v : World) (j : J v) :
      (followOrReport (w.nameOf n.method) n.start n.size other).Ends v (fun _ => J) E := by
    obtain ⟨i, sits⟩ := j
    by_cases it : other = id
    · exact it ▸ turn v i fun _ _ _ => sits
    · exact (aside other it v i).mono
        (fun _ _ ⟨i', still⟩ => ⟨i', sits.unharmed i'.fenced.ground still⟩) fun _ h => h
  have hushed (v v' : World) (q : v.Quiet v') : (I v → I v') ∧ (J v → J v') :=
    ⟨fun i => i.quiet q, fun ⟨i, sits⟩ =>
      ⟨i.quiet q, sits.unharmed (i.quiet q).fenced.ground (.quiet q)⟩⟩
  rcases sits with sits | ⟨target, factory, names, hears⟩
  · exact deliver_keeps (I := J) ⟨begin, sits⟩ (fun v v' q => (hushed v v' q).2)
      (fun v j => named v j.1) stay
  · have ofSource (v : World) (i : I v) (d : MethodDetour) (found : v.detour? id = some d) :
        d.source = w.nameOf n.method := by
      have same := (methods?_of_found found).symm.trans (i.onward.methods ▸ names)
      exact (Prod.mk.inj (Option.some.inj same)).1
    have known (v : World) (i : I v) : v.nameOf n.method = w.nameOf n.method ∧
        factory ∈ v.factories ∧ id ∈ v.related factory (w.nameOf n.method) :=
      ⟨named v i, i.onward.along.factories ▸ hears.2,
        mem_related (i.onward.methods ▸ names) (Or.inl rfl)⟩
    refine deliver_reaches (I := I) (J := J) begin hears (fun v j => j.1) hushed known
      (fun other v i => ?_) stay fun v i => ?_
    · by_cases it : other = id
      · refine it ▸ (turn v i fun d found no => ?_).mono (fun _ _ j => j.1) fun _ h => h
        exact (no (ofSource v i d found)).elim
      · exact (aside other it v i).mono (fun _ _ h => h.1) fun _ h => h
    · exact turn v i fun d found no => (no (ofSource v i d found)).elim

end World

end Detouring
