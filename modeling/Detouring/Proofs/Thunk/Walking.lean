-- Where the walk to the body of a method ends. Between two questions to the runtime the walk only
-- looks at memory, and what it comes to there is told by the memory alone. It asks for a
-- compilation at most once, and what it gives is where the stubs lead from the entry point that the
-- runtime told it last.
import Detouring.Detour.Body
import Detouring.Proofs.Operation
import Detouring.Proofs.Pattern.Precedence

namespace Detouring

open PatternCollection (MatchesAt Indexed)

namespace Thunk

/-! ## Stubs -/

theorem stubs_accepted : ∀ p ∈ stubs, p.Accepted := by
  simp only [stubs, List.forall_mem_cons]
  exact ⟨rfl, rfl, rfl, rfl, rfl, rfl, rfl, rfl, rfl, rfl, rfl, rfl, rfl, by simp⟩

/-- The first literal of each stub stands at a fixed place. -/
theorem stubs_indexed : ∀ p ∈ stubs, ∃ offset, Indexed p offset := by
  have keys : ∀ p ∈ stubs, (PatternCollection.indexKey p).isSome := by decide
  intro p m
  obtain ⟨⟨offset, first⟩, key⟩ := Option.isSome_iff_exists.mp (keys p m)
  exact ⟨offset, first, key⟩

variable {m : Memory} {regions : List Region} {a b f : Nat} {stub : FoundStub}

/-- None of the stubs that are known matches anywhere in the readable bytes at the address. -/
def Bare (m : Memory) (regions : List Region) (address : Nat) : Prop :=
  ∀ p ∈ stubs, ∀ start, ¬ MatchesAt p (window m regions address) start

theorem bare_iff : Bare m regions a ↔ stubAt? m regions a = none := by
  rw [stubAt?, Option.map_eq_none_iff]
  exact (PatternCollection.find?_eq_none_iff stubs_accepted stubs_indexed).symm

/-- A stub at one address leads to the other, and does not stand for code that is not compiled. -/
def Forwards (m : Memory) (regions : List Region) (a b : Nat) : Prop :=
  ∃ stub, stubAt? m regions a = some stub ∧ stub.rule.form.fixup = false ∧ stub.next m a = b

/-- The stub at the address stands for code that is not compiled. -/
def Fixup (m : Memory) (regions : List Region) (a : Nat) : Prop :=
  ∃ stub, stubAt? m regions a = some stub ∧ stub.rule.form.fixup = true

/-- From one address to the other by so many stubs. -/
inductive Leads (m : Memory) (regions : List Region) : Nat → Nat → Nat → Prop
  | here (a : Nat) : Leads m regions 0 a a
  | step {n a b c : Nat} (forwards : Forwards m regions a b) (rest : Leads m regions n b c) :
      Leads m regions (n + 1) a c

/-- A walk that comes here goes no further: there is no stub, or one that leads back to it. -/
def Settled (m : Memory) (regions : List Region) (a : Nat) : Prop :=
  Bare m regions a ∨ Forwards m regions a a

theorem Forwards.unique (h : Forwards m regions a b) {c : Nat} (h' : Forwards m regions a c) :
    b = c := by
  obtain ⟨stub, found, -, rfl⟩ := h
  obtain ⟨stub', found', -, rfl⟩ := h'
  rw [Option.some.inj (found.symm.trans found')]

theorem Forwards.not_fixup (h : Forwards m regions a b) : ¬ Fixup m regions a := by
  rintro ⟨stub, found, fixup⟩
  obtain ⟨stub', found', forwards, -⟩ := h
  rw [Option.some.inj (found.symm.trans found'), forwards] at fixup
  cases fixup

/-- A stub that leads to itself leads nowhere else. -/
theorem Leads.of_self (self : Forwards m regions a a) {n : Nat} (h : Leads m regions n a b) :
    b = a := by
  induction n with
  | zero =>
    cases h
    rfl
  | succ n ih =>
    cases h with
    | step forwards rest => exact ih (forwards.unique self ▸ rest)

/-! ## What the walk comes to in memory -/

/-- What a walk comes to before the runtime has to be asked. -/
inductive Arrival
  | body (address : Nat)
  /-- A fixup stub, with so many steps left behind it. -/
  | fixup (address left : Nat)
  /-- Nothing, in all the steps that were left. -/
  | lost

/-- Walks at most `steps` stubs in memory. -/
def scout (m : Memory) (regions : List Region) : (steps : Nat) → Option Nat → Nat → Arrival
  | 0, _, _ => .lost
  | steps + 1, previous, entry =>
    if previous = some entry then .body entry
    else
      match stubAt? m regions entry with
      | none => .body entry
      | some stub =>
        if stub.rule.form.fixup then .fixup entry steps
        else scout m regions steps (some entry) (stub.next m entry)

/-- The entry before leads to this one. -/
def Came (m : Memory) (regions : List Region) (previous : Option Nat) (entry : Nat) : Prop :=
  ∀ q, previous = some q → Forwards m regions q entry

theorem came_none : Came m regions none a := fun _ h => by cases h

theorem Forwards.came (h : Forwards m regions a b) : Came m regions (some a) b :=
  fun _ same => Option.some.inj same ▸ h

/-- What is taken for a body is where stubs lead, and a walk settles there. -/
theorem scout_body {steps : Nat} {previous : Option Nat} {entry : Nat}
    (came : Came m regions previous entry)
    (h : scout m regions steps previous entry = .body a) :
    ∃ n < steps, Leads m regions n entry a ∧ Settled m regions a := by
  induction steps generalizing previous entry with
  | zero => cases h
  | succ steps ih =>
    rw [scout] at h
    split_ifs at h with back
    · cases h
      exact ⟨0, Nat.succ_pos _, .here _, Or.inr (came _ back)⟩
    split at h <;> rename_i found
    · cases h
      exact ⟨0, Nat.succ_pos _, .here _, Or.inl (bare_iff.mpr found)⟩
    · rename_i stub
      split_ifs at h with fixup
      have forwards : Forwards m regions entry (stub.next m entry) :=
        ⟨stub, found, by simpa using fixup, rfl⟩
      obtain ⟨n, within, leads, settled⟩ := ih forwards.came h
      exact ⟨n + 1, Nat.succ_lt_succ within, .step forwards leads, settled⟩

/-- A fixup stub that is met is where stubs lead. -/
theorem scout_fixup {steps left : Nat} {previous : Option Nat} {entry : Nat}
    (h : scout m regions steps previous entry = .fixup f left) :
    ∃ n, n + left + 1 = steps ∧ Leads m regions n entry f ∧ Fixup m regions f := by
  induction steps generalizing previous entry with
  | zero => cases h
  | succ steps ih =>
    rw [scout] at h
    split_ifs at h
    split at h <;> rename_i found
    · cases h
    · rename_i stub
      split_ifs at h with fixup
      · cases h
        exact ⟨0, by omega, .here _, stub, found, fixup⟩
      · have forwards : Forwards m regions entry (stub.next m entry) :=
          ⟨stub, found, by simpa using fixup, rfl⟩
        obtain ⟨n, all, leads, there⟩ := ih h
        exact ⟨n + 1, by omega, .step forwards leads, there⟩

/-- The walk comes to the fixup stub to which stubs lead, unless its steps run out. -/
theorem scout_of_fixup {n : Nat} {entry : Nat} (leads : Leads m regions n entry f)
    (fixup : Fixup m regions f) {steps : Nat} {previous : Option Nat}
    (came : Came m regions previous entry) :
    scout m regions steps previous entry = if n < steps then .fixup f (steps - n - 1) else .lost := by
  induction steps generalizing n previous entry with
  | zero => rfl
  | succ steps ih =>
    have back : previous ≠ some entry := fun back =>
      (came _ back).not_fixup (leads.of_self (came _ back) ▸ fixup)
    rw [scout, if_neg back]
    cases leads with
    | here =>
      obtain ⟨stub, found, fixes⟩ := fixup
      simp [found, fixes]
    | step forwards rest =>
      obtain ⟨stub, found, straight, rfl⟩ := forwards
      simp only [found, straight, Bool.false_eq_true, if_false]
      rw [ih rest (Forwards.came ⟨stub, found, straight, rfl⟩)]
      simp only [Nat.add_lt_add_iff_right, Nat.add_sub_add_right]

/-! ## The walk -/

variable {σ : Type}

/-- The walk goes on where the runtime tells the method to be once it has compiled it. -/
def afresh (b : BodySource σ) (limit steps : Nat) : Op σ Nat := do
  b.compile
  let regions := (b.memory (← get)).mapRegions
  let entry ← b.entryPoint
  walkFrom b limit steps { entry, compiled := true, regions }

/-- The walk does what it comes to in memory. -/
theorem walkFrom_eq (b : BodySource σ) (limit steps : Nat) (p : Position) (s : σ) :
    (walkFrom b limit steps p).on s =
      match scout (b.memory s) p.regions steps p.previous p.entry with
      | .body a => (.ok a, s)
      | .fixup f left =>
        if p.compiled then (.error (.bodyNotFound (.stillStub b.method f)), s)
        else (afresh b limit left).on s
      | .lost => (.error (.bodyNotFound (.unsettled b.method limit)), s) := by
  induction steps generalizing p with
  | zero => rfl
  | succ steps ih =>
    rw [walkFrom, scout]
    by_cases back : p.previous = some p.entry
    · rw [if_pos back, if_pos back]
      rfl
    rw [if_neg back, if_neg back, Op.on_bind, show (get : Op σ σ).on s = (.ok s, s) from rfl]
    dsimp only
    cases stubAt? (b.memory s) p.regions p.entry with
    | none => rfl
    | some stub =>
      dsimp only
      rcases stub.rule.form.fixup with _ | _
      · exact ih _
      · rcases p.compiled with _ | _ <;> rfl

theorem walk_on (b : BodySource σ) (limit : Nat) (s : σ) :
    (walk b limit).on s =
      match b.entryPoint.on s with
      | (.ok entry, s) =>
        (walkFrom b limit limit { entry, regions := (b.memory s).mapRegions }).on s
      | (.error e, s) => (.error e, s) := by
  rw [walk, Op.on_bind]
  rcases b.entryPoint.on s with ⟨_ | _, _⟩ <;> rfl

theorem afresh_on (b : BodySource σ) (limit steps : Nat) (s : σ) :
    (afresh b limit steps).on s =
      match b.compile.on s with
      | (.ok _, s) =>
        let regions := (b.memory s).mapRegions
        match b.entryPoint.on s with
        | (.ok entry, s) => (walkFrom b limit steps { entry, compiled := true, regions }).on s
        | (.error e, s) => (.error e, s)
      | (.error e, s) => (.error e, s) := by
  rw [afresh, Op.on_bind]
  rcases b.compile.on s with ⟨_ | _, s₁⟩
  · rfl
  · show (b.entryPoint >>= _).on s₁ = _
    rw [Op.on_bind]
    dsimp only
    rcases b.entryPoint.on s₁ with ⟨_ | _, _⟩ <;> rfl

/-! ## What the runtime is asked -/

/-- A question to the runtime, with its answer and the memory that it left. -/
inductive Call
  | entryPoint (answer : Except Fault Nat) (left : Memory)
  | compile (answer : Except Fault Unit) (left : Memory)

def Call.isCompile : Call → Bool
  | .entryPoint .. => false
  | .compile .. => true

/-- The operation, with a note of its answer. -/
def noting {α : Type} (memory : σ → Memory) (call : Except Fault α → Memory → Call)
    (act : Op σ α) : Op (σ × List Call) α := .of fun (s, calls) =>
  let (r, s) := act.on s
  (r, s, calls ++ [call r (memory s)])

/-- The same method, with all questions to the runtime noted down. -/
def BodySource.noted (b : BodySource σ) : BodySource (σ × List Call) where
  method := b.method
  entryPoint := noting b.memory .entryPoint b.entryPoint
  compile := noting b.memory .compile b.compile
  memory s := b.memory s.1

theorem on_noted_entryPoint (b : BodySource σ) (s : σ) (calls : List Call) :
    b.noted.entryPoint.on (s, calls) =
      ((b.entryPoint.on s).1, (b.entryPoint.on s).2,
        calls ++ [.entryPoint (b.entryPoint.on s).1 (b.memory (b.entryPoint.on s).2)]) := rfl

theorem on_noted_compile (b : BodySource σ) (s : σ) (calls : List Call) :
    b.noted.compile.on (s, calls) =
      ((b.compile.on s).1, (b.compile.on s).2,
        calls ++ [.compile (b.compile.on s).1 (b.memory (b.compile.on s).2)]) := rfl

/-- The entry point that the runtime told last, and the memory whose map was read last: it is read
when the first entry point is known, and again when the method has been compiled. -/
def Reported (calls : List Call) (entry : Nat) (read : Memory) : Prop :=
  calls = [.entryPoint (.ok entry) read] ∨
    ∃ first left, calls = [first, .compile (.ok ()) read, .entryPoint (.ok entry) left]

theorem Reported.unique {calls : List Call} {entry entry' : Nat} {read read' : Memory}
    (h : Reported calls entry read) (h' : Reported calls entry' read') :
    entry = entry' ∧ read = read' := by
  rcases h with rfl | ⟨_, _, rfl⟩ <;> rcases h' with h' | ⟨_, _, h'⟩ <;> cases h' <;>
    exact ⟨rfl, rfl⟩

/-- What a walk comes to, and what it has asked on the way. -/
structure Accounted (b : BodySource σ) (limit : Nat) (r : Except Fault Nat) (s : σ)
    (calls : List Call) : Prop where
  few : calls.countP Call.isCompile ≤ 1
  /-- A body is where stubs lead from the entry point that was told last. -/
  reached : ∀ a, r = .ok a → ∃ entry read, Reported calls entry read ∧
    (∃ n < limit, Leads (b.memory s) read.mapRegions n entry a) ∧
    Settled (b.memory s) read.mapRegions a
  /-- A fixup stub that is come to once the method has been compiled stands for no body. -/
  refused : ∀ entry read n f, calls.any Call.isCompile → Reported calls entry read →
    Leads (b.memory s) read.mapRegions n entry f → Fixup (b.memory s) read.mapRegions f →
    ∃ why, r = .error (.bodyNotFound why)

namespace Accounted

variable {b : BodySource σ} {limit : Nat} {s : σ} {calls : List Call}

theorem failed {e : Fault} (few : calls.countP Call.isCompile ≤ 1)
    (unheard : calls.any Call.isCompile → ∀ entry read, ¬ Reported calls entry read) :
    Accounted b limit (.error e) s calls where
  few := few
  reached := fun _ h => by cases h
  refused := fun entry read _ _ compiled reported => (unheard compiled entry read reported).elim

theorem notFound {why : BodyFault} (few : calls.countP Call.isCompile ≤ 1) :
    Accounted b limit (.error (.bodyNotFound why)) s calls where
  few := few
  reached := fun _ h => by cases h
  refused := fun _ _ _ _ _ _ _ _ => ⟨why, rfl⟩

theorem found {steps entry a : Nat} {read : Memory} (few : calls.countP Call.isCompile ≤ 1)
    (reported : Reported calls entry read) (within : steps ≤ limit)
    (here : scout (b.memory s) read.mapRegions steps none entry = .body a) :
    Accounted b limit (.ok a) s calls where
  few := few
  reached := fun a' h => by
    cases h
    obtain ⟨n, hn, leads, settled⟩ := scout_body came_none here
    exact ⟨entry, read, reported, ⟨n, by omega, leads⟩, settled⟩
  refused := fun entry' read' n f _ reported' leads fixup => by
    obtain ⟨rfl, rfl⟩ := reported.unique reported'
    rw [scout_of_fixup leads fixup came_none] at here
    split_ifs at here

end Accounted

/-- The second half of a walk, when one entry point was told in the first. -/
theorem afresh_accounted (b : BodySource σ) {limit steps : Nat} (within : steps ≤ limit) (s : σ)
    (answer : Except Fault Nat) (left : Memory) : ∃ r s' calls,
    (afresh b.noted limit steps).on (s, [.entryPoint answer left]) = (r, s', calls) ∧
      (afresh b limit steps).on s = (r, s') ∧ Accounted b limit r s' calls := by
  rw [afresh_on, afresh_on, on_noted_compile]
  rcases b.compile.on s with ⟨e | _, s₁⟩
  · refine ⟨_, _, _, rfl, rfl, .failed (Nat.le_refl 1) ?_⟩
    rintro - entry read (h | ⟨_, _, h⟩) <;> cases h
  dsimp only
  rw [on_noted_entryPoint]
  rcases b.entryPoint.on s₁ with ⟨e | entry, s₂⟩
  · refine ⟨_, _, _, rfl, rfl, .failed (Nat.le_refl 1) ?_⟩
    rintro - entry read (h | ⟨_, _, h⟩) <;> cases h
  dsimp only
  rw [walkFrom_eq, walkFrom_eq]
  dsimp only [BodySource.noted]
  rcases here : scout (b.memory s₂) (b.memory s₁).mapRegions steps none entry with a | ⟨f, left⟩ | _
  · exact ⟨_, _, _, rfl, rfl, .found (Nat.le_refl 1) (Or.inr ⟨_, _, rfl⟩) within here⟩
  · exact ⟨_, _, _, rfl, rfl, .notFound (Nat.le_refl 1)⟩
  · exact ⟨_, _, _, rfl, rfl, .notFound (Nat.le_refl 1)⟩

/-- A method that is no function and whose body may be behind stubs is walked to. Whatever the
runtime answers, a walk has the method compiled at most once. The body that it gives is where the
stubs lead from the entry point that the runtime told last, and there no stub matches, or it leads
back to itself. A fixup stub that comes up after compiling is reported. -/
theorem a_walk_is_led_from_the_last_entry :
    (∀ (m : Method) (w : World), m.address? = none → w.asks RuntimeFlag.stubWalking = true →
      (World.resolve m).on w =
        (walk (World.bodySource m) w.platform.settings.maxStubSteps).on w) ∧
    ∀ {σ : Type} (b : BodySource σ) (limit : Nat) (s : σ), ∃ r s' calls,
      (walk b.noted limit).on (s, []) = (r, s', calls) ∧ (walk b limit).on s = (r, s') ∧
        Accounted b limit r s' calls := by
  constructor
  · intro m w function walks
    rw [World.resolve, function]
    show (if w.asks RuntimeFlag.stubWalking = true then _ else _ : Op World Nat).on w = _
    rw [if_pos walks]
    rfl
  · intro σ b limit s
    rw [walk_on, walk_on, on_noted_entryPoint]
    rcases b.entryPoint.on s with ⟨e | entry, s₀⟩
    · exact ⟨_, _, _, rfl, rfl, .failed (Nat.zero_le 1) fun compiled => by cases compiled⟩
    dsimp only
    rw [walkFrom_eq, walkFrom_eq]
    dsimp only [BodySource.noted]
    rcases here : scout (b.memory s₀) (b.memory s₀).mapRegions limit none entry with a | ⟨f, left⟩ | _
    · exact ⟨_, _, _, rfl, rfl, .found (Nat.zero_le 1) (Or.inl rfl) (Nat.le_refl limit) here⟩
    · obtain ⟨n, all, _⟩ := scout_fixup here
      exact afresh_accounted b (by omega) s₀ _ _
    · exact ⟨_, _, _, rfl, rfl, .notFound (Nat.zero_le 1)⟩

/-- Two pages of code. The first begins with a stub that has its method compiled. -/
def stubbed : Memory :=
  Memory.write ⟨[⟨0x10000, .readExecute, none⟩, ⟨0x11000, .readExecute, none⟩], fun _ => 0x90⟩
    0x10000 [0xe8, 0, 0, 0, 0, 0x5e]

/-- A method whose stub leads to the second page once the method is compiled. -/
def deferred : BodySource Memory where
  method := .token 1
  entryPoint := pure 0x10000
  compile := Op.change fun m =>
    m.write 0x10000 ([0x48, 0xb8] ++ leBytes 8 0x11000 ++ [0xff, 0xe0])
  memory m := m

/-- A runtime with one method, whose entry point is the stub. -/
def behindStub : World where
  machine := { arena := { source := { memory := stubbed, next := 0x20000 } } }
  platform :=
    { architecture := {}, system := {}, runtimeKind := .native,
      runtimeFlags := RuntimeFlag.stubWalking, settings := {}, convention := .systemV }
  runtime := { methods := [{ token := 1, entry := 0x10000 }] }

theorem a_body_is_reached_through_a_compilation :
    (World.resolve (.token 1)).on behindStub =
        (walk (World.bodySource (.token 1)) 20).on behindStub ∧
      ∃ s' calls, (walk deferred.noted 4).on (stubbed, []) = (.ok 0x11000, s', calls) ∧
        calls.countP Call.isCompile ≤ 1 ∧ ∃ entry read, Reported calls entry read ∧
          (∃ n < 4, Leads s' read.mapRegions n entry 0x11000) ∧
          Settled s' read.mapRegions 0x11000 := by
  have body : ((walk deferred.noted 4).on (stubbed, [])).1.toOption = some 0x11000 := by
    decide +kernel
  refine ⟨a_walk_is_led_from_the_last_entry.1 (.token 1) behindStub rfl (by decide), ?_⟩
  obtain ⟨_ | a, s', calls, noted, -, accounted⟩ :=
    a_walk_is_led_from_the_last_entry.2 deferred 4 stubbed <;> rw [noted] at body <;> cases body
  exact ⟨s', calls, noted, accounted.few, accounted.reached _ rfl⟩

end Thunk

end Detouring
