-- What ends a walk. It follows fewer stubs than its limit, because the step that finds no further stub
-- counts as well. An address where nothing can be read holds no stub either, so a walk that comes to
-- one ends there as if it had found a body; that is the one way to an answer that cannot be read.
import Detouring.Proofs.Memory.Readable
import Detouring.Proofs.Thunk.Walking

namespace Detouring

namespace Thunk

variable {m : Memory} {regions : List Region} {a b entry body : Nat} {n : Nat}

/-! ## Chains -/

/-- A stub leads on just if reading it says so. -/
theorem forwards_iff : Forwards m regions a b ↔
    (stubAt? m regions a).map (fun stub => (stub.rule.form.fixup, stub.next m a)) =
      some (false, b) := by
  simp only [Forwards, Option.map_eq_some_iff, Prod.mk.injEq]

instance : Decidable (Forwards m regions a b) := decidable_of_iff _ forwards_iff.symm

instance : Decidable (Bare m regions a) :=
  decidable_of_iff ((stubAt? m regions a).isNone = true) (by simp [bare_iff])

theorem Bare.not_forwards (bare : Bare m regions a) : ¬ Forwards m regions a b := by
  rintro ⟨stub, found, -⟩
  rw [bare_iff.mp bare] at found
  cases found

/-- Where no stub is, a chain of stubs ends. -/
theorem Bare.eq_of_leads (bare : Bare m regions a) (leads : Leads m regions n a b) : b = a := by
  cases leads with
  | here => rfl
  | step forwards => exact (bare.not_forwards forwards).elim

/-- Of two chains from one address, one goes on from the end of the other. -/
theorem Leads.comparable {k : Nat} (leads : Leads m regions n entry a)
    (leads' : Leads m regions k entry b) :
    (∃ j, Leads m regions j a b) ∨ ∃ j, Leads m regions j b a := by
  induction leads generalizing k with
  | here => exact Or.inl ⟨k, leads'⟩
  | step forwards rest ih =>
    cases leads' with
    | here => exact Or.inr ⟨_, .step forwards rest⟩
    | step forwards' rest' => exact ih (forwards.unique forwards' ▸ rest')

/-- A walk settles at the end of a chain, and there is only one such end. -/
theorem Settled.unique (settled : Settled m regions a) (bare : Bare m regions b) {k : Nat}
    (leads : Leads m regions n entry a) (leads' : Leads m regions k entry b) : a = b := by
  rcases leads.comparable leads' with ⟨j, onward⟩ | ⟨j, onward⟩
  · rcases settled with bare' | self
    · exact (bare'.eq_of_leads onward).symm
    · exact (onward.of_self self).symm
  · exact bare.eq_of_leads onward

/-! ## The limit -/

/-- The walk comes to the body to which stubs lead, unless its steps run out. -/
theorem scout_of_bare (leads : Leads m regions n entry body) (bare : Bare m regions body)
    {steps : Nat} {previous : Option Nat} (came : Came m regions previous entry) :
    scout m regions steps previous entry = if n < steps then .body body else .lost := by
  induction steps generalizing n previous entry with
  | zero => simp [scout]
  | succ steps ih =>
    have back : previous ≠ some entry := fun back => by
      have self := came _ back
      exact (leads.of_self self ▸ bare).not_forwards self
    rw [scout, if_neg back]
    cases leads with
    | here => simp [bare_iff.mp bare]
    | step forwards rest =>
      obtain ⟨stub, found, straight, rfl⟩ := forwards
      simp only [found, straight, Bool.false_eq_true, if_false]
      rw [ih rest (Forwards.came ⟨stub, found, straight, rfl⟩)]
      simp only [Nat.add_lt_add_iff_right]

variable {σ : Type}

/-- What comes of a walk along a chain of stubs that ends in a body. -/
theorem walk_of_leads (p : BodySource σ) (limit : Nat) {s s' : σ}
    (told : p.entryPoint.on s = (.ok entry, s'))
    (leads : Leads (p.memory s') (p.memory s').mapRegions n entry body)
    (bare : Bare (p.memory s') (p.memory s').mapRegions body) :
    (walk p limit).on s =
      (if n < limit then .ok body else .error (.bodyNotFound (.unsettled p.method limit)), s') := by
  rw [walk_on, told]
  dsimp only
  rw [walkFrom_eq, scout_of_bare leads bare came_none]
  split <;> rename_i here <;> split at here <;> rename_i within
  · cases here
    rw [if_pos within]
  · cases here
  · cases here
  · cases here
  · cases here
  · rw [if_neg within]

end Thunk

/-- A method that is no function is walked to where the runtime asks for it. -/
theorem World.on_resolve {method : Method} {w : World} (managed : method.address? = none)
    (walks : w.asks RuntimeFlag.stubWalking = true) : (World.resolve method).on w =
      (Thunk.walk (World.bodySource method) w.platform.settings.maxStubSteps).on w := by
  rw [World.resolve, managed]
  show (if w.asks RuntimeFlag.stubWalking = true then _ else _ : Op World Nat).on w = _
  rw [if_pos walks]
  rfl

namespace Thunk

theorem on_entryPoint (method : Method) (w : World) :
    (World.bodySource method).entryPoint.on w = (w.runtime.entryPoint method, w) := rfl

theorem resolve_of_leads {method : Method} {w : World} (managed : method.address? = none)
    (walks : w.asks RuntimeFlag.stubWalking = true)
    (told : w.runtime.entryPoint method = .ok entry)
    (leads : Leads w.machine.memory w.machine.memory.mapRegions n entry body)
    (bare : Bare w.machine.memory w.machine.memory.mapRegions body) :
    (World.resolve method).on w =
      (if n < w.platform.settings.maxStubSteps then .ok body
        else .error (.bodyNotFound (.unsettled method w.platform.settings.maxStubSteps)), w) := by
  have asked : (World.bodySource method).entryPoint.on w = (.ok entry, w) := by
    rw [on_entryPoint, told]
  rw [World.on_resolve managed walks]
  exact walk_of_leads (World.bodySource method) _ asked leads bare

/-- Stubs that lead from the entry point of a method to an address without one are followed to it
if they are fewer than the limit. If they are as many as the limit or more, the walk gives up. -/
theorem a_chain_below_the_limit_is_walked (n : Nat) :
    (∀ {method : Method} {w : World} {entry body : Nat}, method.address? = none →
      w.asks RuntimeFlag.stubWalking = true → w.runtime.entryPoint method = .ok entry →
      Leads w.machine.memory w.machine.memory.mapRegions n entry body →
      Bare w.machine.memory w.machine.memory.mapRegions body →
      (World.resolve method).on w =
        (if n < w.platform.settings.maxStubSteps then .ok body
          else .error (.bodyNotFound (.unsettled method w.platform.settings.maxStubSteps)), w)) ∧
    ∀ {σ : Type} (p : BodySource σ) (limit : Nat) {s s' : σ} {entry body : Nat},
      p.entryPoint.on s = (.ok entry, s') →
      Leads (p.memory s') (p.memory s').mapRegions n entry body →
      Bare (p.memory s') (p.memory s').mapRegions body →
      (walk p limit).on s =
        (if n < limit then .ok body
          else .error (.bodyNotFound (.unsettled p.method limit)), s') := by
  constructor
  · intro method w entry body managed walks told leads bare
    exact resolve_of_leads managed walks told leads bare
  · intro σ p limit s s' entry body told leads bare
    exact walk_of_leads p limit told leads bare

/-- A page of code that begins with two stubs, the first of which leads to the second and the second
to `target`. -/
def twoStubs (target : Nat) : Memory :=
  (Memory.mk [⟨0x10000, .readExecute, none⟩] fun _ => 0x90).write 0x10000
    ([0x48, 0xb8] ++ leBytes 8 0x1000c ++ [0xff, 0xe0] ++
      [0x48, 0xb8] ++ leBytes 8 target ++ [0xff, 0xe0])

/-- A runtime whose only method has the first of the stubs as its entry point. -/
def behindStubs (target limit : Nat) : World where
  machine := { arena := { source := { memory := twoStubs target, next := 0x20000 } } }
  platform :=
    { architecture := {}, system := {}, runtimeKind := .native,
      runtimeFlags := RuntimeFlag.stubWalking, settings := { maxStubSteps := limit },
      convention := .systemV }
  runtime := { methods := [{ token := 1, entry := 0x10000 }] }

theorem leads_twoStubs :
    Leads (twoStubs 0x10800) (twoStubs 0x10800).mapRegions 2 0x10000 0x10800 ∧
      Bare (twoStubs 0x10800) (twoStubs 0x10800).mapRegions 0x10800 := by
  refine ⟨.step (b := 0x1000c) ?_ (.step (b := 0x10800) ?_ (.here _)), ?_⟩ <;> decide +kernel

/-- Two stubs are followed where three may be. -/
theorem two_stubs_are_walked : (World.resolve (.token 1)).on (behindStubs 0x10800 3) =
    (.ok 0x10800, behindStubs 0x10800 3) :=
  (a_chain_below_the_limit_is_walked 2).1 (w := behindStubs 0x10800 3) rfl (by decide) rfl
    leads_twoStubs.1 leads_twoStubs.2

/-- Where at most two stubs may be followed, a body behind two stubs is not found. -/
theorem a_chain_as_long_as_the_limit_is_given_up :
    (behindStubs 0x10800 2).platform.settings.maxStubSteps = 2 ∧
      Leads (twoStubs 0x10800) (twoStubs 0x10800).mapRegions 2 0x10000 0x10800 ∧
      Bare (twoStubs 0x10800) (twoStubs 0x10800).mapRegions 0x10800 ∧
      (twoStubs 0x10800).isReadable 0x10800 = true ∧
      (World.resolve (.token 1)).on (behindStubs 0x10800 2) =
        (.error (.bodyNotFound (.unsettled (.token 1) 2)), behindStubs 0x10800 2) := by
  refine ⟨rfl, leads_twoStubs.1, leads_twoStubs.2, by decide, ?_⟩
  exact resolve_of_leads (w := behindStubs 0x10800 2) rfl (by decide) rfl leads_twoStubs.1
    leads_twoStubs.2

/-! ## The end of readable memory -/

/-- A walk of fewer steps than the limit leads to an address where nothing can be read. The map that
it looks at is that of `read`. -/
def Strays (m read : Memory) (limit entry : Nat) : Prop :=
  ∃ n < limit, ∃ a, Leads m read.mapRegions n entry a ∧ ¬ read.isReadable a = true

/-- Where nothing can be read there is no stub. -/
theorem bare_of_unreadable {read : Memory} (g : read.Regular) (dark : ¬ read.isReadable a = true) :
    Bare m read.mapRegions a := by
  have none : Region.readableLength read.mapRegions a windowLength = 0 := by
    have look : 0 < windowLength := by simp [windowLength_eq]
    have := mt (g.readable_iff look).mp dark
    omega
  rw [bare_iff]
  simp only [stubAt?, window, none, Nat.zero_min, Memory.peek, List.range_zero, List.map_nil]
  decide +kernel

/-- What a walk settles at can be read, or the walk has strayed. -/
theorem Settled.readable_iff {read : Memory} {limit : Nat} (g : read.Regular)
    (leads : Leads m read.mapRegions n entry a) (within : n < limit)
    (settled : Settled m read.mapRegions a) :
    read.isReadable a = true ↔ ¬ Strays m read limit entry := by
  constructor
  · rintro light ⟨k, -, b, leads', dark⟩
    obtain rfl := settled.unique (bare_of_unreadable g dark) leads leads'
    exact dark light
  · intro stays
    by_contra dark
    exact stays ⟨n, within, a, leads, dark⟩

/-- A method that was compiled on the way is looked for with the map that was read before its entry
point was told. -/
theorem afresh_ok {p : BodySource σ} {limit left : Nat} {s s' : σ}
    (found : (afresh p limit left).on s = (.ok a, s')) :
    ∃ s₁ entry, p.entryPoint.on s₁ = (.ok entry, s') ∧
      scout (p.memory s') (p.memory s₁).mapRegions left none entry = .body a := by
  rw [afresh_on] at found
  rcases compiled : p.compile.on s with ⟨e | _, s₁⟩ <;> rw [compiled] at found
  · cases found
  dsimp only at found
  rcases told : p.entryPoint.on s₁ with ⟨e | entry, s₂⟩ <;> rw [told] at found
  · cases found
  dsimp only at found
  rw [walkFrom_eq] at found
  dsimp only at found
  split at found <;> rename_i here
  · cases found
    exact ⟨s₁, entry, told, here⟩
  · cases found
  · cases found

/-- A walk that finds a body has looked for it from the entry point that the runtime told last, with
the map of the memory as it was before or after it was told. -/
theorem walk_ok {p : BodySource σ} {limit : Nat} {s s' : σ}
    (found : (walk p limit).on s = (.ok a, s')) :
    ∃ s₁ entry read steps, p.entryPoint.on s₁ = (.ok entry, s') ∧
      (read = p.memory s₁ ∨ read = p.memory s') ∧ steps ≤ limit ∧
      scout (p.memory s') read.mapRegions steps none entry = .body a := by
  rw [walk_on] at found
  rcases told : p.entryPoint.on s with ⟨e | entry, s₀⟩ <;> rw [told] at found
  · cases found
  dsimp only at found
  rw [walkFrom_eq] at found
  dsimp only at found
  split at found <;> rename_i here
  · cases found
    exact ⟨s, entry, _, limit, told, Or.inr rfl, Nat.le_refl limit, here⟩
  · rename_i left
    obtain ⟨k, all, -⟩ := scout_fixup here
    simp only [Bool.false_eq_true, if_false] at found
    obtain ⟨s₁, entry', again, there⟩ := afresh_ok found
    exact ⟨s₁, entry', _, left, again, Or.inl rfl, by omega, there⟩
  · cases found

/-- A body that is found can be read, unless the walk has strayed: just then some stub on the way has
led it to an address where nothing can be read, and it is that address which it gives. -/
theorem a_body_can_be_read_unless_the_walk_strays (a : Nat) :
    (∀ {method : Method} {w w' : World}, method.address? = none →
      w.asks RuntimeFlag.stubWalking = true → w'.machine.memory.Regular →
      (World.resolve method).on w = (.ok a, w') →
      ∃ entry, w'.runtime.entryPoint method = .ok entry ∧
        (w'.machine.memory.isReadable a = true ↔
          ¬ Strays w'.machine.memory w'.machine.memory w.platform.settings.maxStubSteps entry)) ∧
    ∀ {σ : Type} {p : BodySource σ} {limit : Nat} {s s' : σ}, (∀ s, (p.memory s).Regular) →
      (walk p limit).on s = (.ok a, s') →
      ∃ s₁ entry read, p.entryPoint.on s₁ = (.ok entry, s') ∧
        (read = p.memory s₁ ∨ read = p.memory s') ∧
        (read.isReadable a = true ↔ ¬ Strays (p.memory s') read limit entry) := by
  constructor
  · intro method w w' managed walks g found
    rw [World.on_resolve managed walks] at found
    obtain ⟨w₁, entry, read, steps, told, same, within, here⟩ := walk_ok found
    rw [on_entryPoint, Prod.mk.injEq] at told
    obtain ⟨told, rfl⟩ := told
    obtain rfl : read = w₁.machine.memory := same.elim id id
    obtain ⟨n, short, leads, settled⟩ := scout_body came_none here
    exact ⟨entry, told, settled.readable_iff g leads (by omega)⟩
  · intro σ p limit s s' g found
    obtain ⟨s₁, entry, read, steps, told, same, within, here⟩ := walk_ok found
    obtain ⟨n, short, leads, settled⟩ := scout_body came_none here
    have g' : read.Regular := same.elim (fun h => h ▸ g s₁) fun h => h ▸ g s'
    exact ⟨s₁, entry, read, told, same, settled.readable_iff g' leads (by omega)⟩

/-- Stubs that lead to readable code have not led a walk astray. -/
theorem two_stubs_lead_to_readable_code :
    (World.resolve (.token 1)).on (behindStubs 0x10800 3) =
        (.ok 0x10800, behindStubs 0x10800 3) ∧
      (twoStubs 0x10800).isReadable 0x10800 = true ∧
      ¬ Strays (twoStubs 0x10800) (twoStubs 0x10800) 3 0x10000 := by
  have found : (World.resolve (.token 1)).on (behindStubs 0x10800 3) =
      (.ok 0x10800, behindStubs 0x10800 3) :=
    resolve_of_leads (w := behindStubs 0x10800 3) rfl (by decide) rfl leads_twoStubs.1
      leads_twoStubs.2
  have light : (twoStubs 0x10800).isReadable 0x10800 = true := by decide
  obtain ⟨_, told, readable⟩ := (a_body_can_be_read_unless_the_walk_strays 0x10800).1
    (w := behindStubs 0x10800 3) rfl (by decide) ⟨by decide, by decide⟩ found
  obtain rfl := Except.ok.inj told
  exact ⟨found, light, readable.mp light⟩

/-- Stubs that lead out of the mapped memory are taken to lead to a body. -/
theorem an_unreadable_address_is_taken_for_a_body :
    (twoStubs 0x30000).isReadable 0x30000 = false ∧
      ((World.resolve (.token 1)).on (behindStubs 0x30000 3)).1 = .ok 0x30000 := by
  refine ⟨by decide, ?_⟩
  have leads : Leads (twoStubs 0x30000) (twoStubs 0x30000).mapRegions 2 0x10000 0x30000 := by
    refine .step (b := 0x1000c) ?_ (.step (b := 0x30000) ?_ (.here _)) <;> decide +kernel
  have bare : Bare (twoStubs 0x30000) (twoStubs 0x30000).mapRegions 0x30000 :=
    bare_of_unreadable ⟨by decide, by decide⟩ (by decide)
  exact congrArg Prod.fst
    (resolve_of_leads (w := behindStubs 0x30000 3) rfl (by decide) rfl leads bare)

end Thunk

end Detouring
