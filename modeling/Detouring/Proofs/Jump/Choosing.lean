-- What choosing and placing a jump does to a machine. Choosing changes no byte that is mapped;
-- placing changes the bytes of the jump and of its cell, and fails without a change.
import Detouring.Jump.Patch
import Detouring.Proofs.Jump.Decoding
import Detouring.Proofs.Memory.Ownership
import Detouring.Proofs.Operation

namespace Detouring

variable {m m' : Machine} {live : Set Block} {source target : Nat} {room : Option Nat}

/-- A request for a pointer cell. -/
def cellRequest : BlockRequest := { size := 8 }

namespace Jump

/-- What a jump may be chosen to be, and what the choice leaves behind. -/
inductive Chosen (m : Machine) (live : Set Block) (source target : Nat) (room : Option Nat) :
    Jump → Machine → Prop where
  | relative (fits : fits room 5 = true) (near : reaches source 5 target = true) :
      Chosen m live source target room ⟨source, target, .relative⟩ m
  | throughCell {cell : Block} {m' : Machine} (fits : fits room 6 = true)
      (hands : m.Hands live cellRequest cell m') (low : (cellWindow source).low ≤ cell.base)
      (high : cell.base + 8 ≤ (cellWindow source).high) :
      Chosen m live source target room ⟨source, target, .throughCell cell⟩ m'
  | absolute {m' : Machine} (sound : m'.Sound live) (keeps : m.Extends m')
      (mapped : ∀ x, m'.memory.isMapped x = m.memory.isMapped x) :
      Chosen m live source target room ⟨source, target, .absolute⟩ m'

/-- A short jump is chosen where it gets to its target and is taken for no stub. Else there may be
a cell near, and if there is none the jump is a long one, which may be worth a warning. -/
theorem choose_rule {Q : Jump → Machine → Prop} {E : Machine → Prop}
    (itself : source = target → E m)
    (relative : source ≠ target → fits room 5 = true → reaches source 5 target = true →
      m.memory.bytes (source + 5) ≠ popRdi → Q ⟨source, target, .relative⟩ m)
    (near : source ≠ target → fits room 6 = true →
      (Machine.allocateNear (cellWindow source) cellRequest).Ends m
        (fun cell => Q ⟨source, target, .throughCell cell⟩)
        fun m₁ => ∀ m₂ : Machine, m₂.arena = m₁.arena → Q ⟨source, target, .absolute⟩ m₂)
    (tight : source ≠ target → fits room 6 = false → ∀ m₁ : Machine, m₁.arena = m.arena →
      Q ⟨source, target, .absolute⟩ m₁) :
    (choose source target room).Ends m Q E := by
  unfold choose
  split
  · rename_i same
    exact Op.Ends.throw (itself same)
  · rename_i apart
    apply Op.Ends.bind
    apply Op.Ends.get
    split
    · rename_i preferred
      simp only [prefersRelative, Bool.and_eq_true, bne_iff_ne] at preferred
      exact Op.Ends.pure (relative apart preferred.1.1 preferred.1.2 preferred.2)
    · have looked : (cellNear source room).Ends m
          (fun cell m₁ => (∀ c, cell = some c → Q ⟨source, target, .throughCell c⟩ m₁) ∧
            (cell = none → ∀ m₂ : Machine, m₂.arena = m₁.arena → Q ⟨source, target, .absolute⟩ m₂))
          fun _ => False := by
        unfold cellNear
        split <;> rename_i fit
        · apply Op.Ends.bind
          apply Op.Ends.outcome
          apply (near apart fit).mono
          · exact fun _ _ q => Op.Ends.pure ⟨fun _ some => Option.some.inj some ▸ q, nofun⟩
          · exact fun _ q _ => Op.Ends.pure ⟨nofun, fun _ => q⟩
        · exact Op.Ends.pure ⟨nofun, fun _ => tight apart (by simpa using fit)⟩
      apply Op.Ends.bind
      apply looked.mono _ fun _ h => h.elim
      rintro cell m₁ ⟨found, none⟩
      cases cell with
      | some cell => exact Op.Ends.pure (found cell rfl)
      | none =>
        dsimp only
        split
        · apply Op.Ends.bind
          apply Op.Ends.change
          exact Op.Ends.pure (none rfl _ rfl)
        · exact Op.Ends.pure (none rfl _ rfl)

theorem choose_chosen (s : m.Sound live) :
    (choose source target room).Ends m
      (fun j m' => source ≠ target ∧ Chosen m live source target room j m') (· = m) := by
  have absolute {m₁ : Machine} (sound : m₁.Sound live) (keeps : m.Extends m₁)
      (mapped : ∀ x, m₁.memory.isMapped x = m.memory.isMapped x) (m₂ : Machine)
      (same : m₂.arena = m₁.arena) :
      Chosen m live source target room ⟨source, target, .absolute⟩ m₂ := by
    have memory : m₂.memory = m₁.memory := congrArg (fun a => a.source.memory) same
    exact .absolute (sound.of_arena same) (keeps.trans (.of_arena same))
      fun x => (congrArg (fun m => m.isMapped x) memory).trans (mapped x)
  apply choose_rule
  · exact fun _ => rfl
  · exact fun apart fits near _ => ⟨apart, .relative fits near⟩
  · intro apart fit
    rcases tried : (Machine.allocateNear (cellWindow source) cellRequest).on m with ⟨result, m₁⟩
    rcases s.allocateNear tried with ⟨_, rfl, s', keeps, mapped⟩ | ⟨_, rfl, hands, low, high⟩
    · exact .of_on tried (fun _ ok => (by cases ok)) fun _ _ m₂ same =>
        ⟨apart, absolute s' keeps mapped m₂ same⟩
    · refine .of_on tried (fun cell ok => ?_) fun _ error => (by cases error)
      obtain rfl := Except.ok.inj ok
      exact ⟨apart, .throughCell fit hands low high⟩
  · exact fun apart _ m₁ same => ⟨apart, absolute s (.of_arena rfl) (fun _ => rfl) m₁ same⟩

/-! ## Placing -/

/-- The machine with the cell of a jump filled. -/
def aimed (j : Jump) (m : Machine) : Machine :=
  match j.cell? with
  | some cell => m.writeWord cell.base j.target
  | none => m

/-- Fills the cell of a jump and writes its bytes. -/
def place (j : Jump) : Op Machine (List UInt8) := do
  let bytes ← Machine.encode j
  Machine.patchCode j.source bytes bytes.length

theorem on_encode (j : Jump) (m : Machine) : (Machine.encode j).on m =
    match j.bytes with
    | .ok bytes => (.ok bytes, j.aimed m)
    | .error e => (.error e, m) := by
  simp only [Machine.encode, Op.on_of, aimed]
  rcases j.bytes with e | bytes <;> rcases j.cell? with _ | cell <;> rfl

theorem on_patchCode (address : Nat) (data : List UInt8) (backup : Nat) (m : Machine) :
    (Machine.patchCode address data backup).on m =
      ((m.memory.patch .executable address data backup).1,
        m.withMemory (m.memory.patch .executable address data backup).2) := rfl

theorem on_place (j : Jump) (m : Machine) : j.place.on m =
    match j.bytes with
    | .ok bytes => (Machine.patchCode j.source bytes bytes.length).on (j.aimed m)
    | .error e => (.error e, m) := by
  rw [place, Op.on_bind, on_encode]
  rcases j.bytes with e | bytes <;> rfl

theorem on_write (j : Jump) (m : Machine) : (JumpPatch.write j).on m =
    match j.place.on m with
    | (.ok covered, m') => (.ok ⟨j, covered, true⟩, m')
    | (.error e, m') => (.error e, m'.freeCell j) := by
  simp only [JumpPatch.write, Op.cleaning, Op.on_of, Op.on_bind, on_encode, on_place]
  rcases j.bytes with e | bytes
  · rfl
  · dsimp only
    rcases (Machine.patchCode j.source bytes bytes.length).on (j.aimed m) with ⟨_ | _, _⟩ <;> rfl

theorem on_overwrite (p : JumpPatch) (j : Jump) (limit : Option Nat) (m : Machine)
    (fit : fits limit j.size = true) : (p.overwrite j limit).on m =
    match j.place.on m with
    | (.ok covered, m') =>
      (.ok { p with jump := j, backup := p.backup ++ covered.drop p.backup.length }, m')
    | (.error e, m') => (.error e, m'.freeCell j) := by
  simp only [JumpPatch.overwrite, fit, Bool.not_true, Bool.false_eq_true, if_false, Op.cleaning,
    Op.on_of, Op.on_bind, on_encode, on_place]
  rcases j.bytes with e | bytes
  · rfl
  · dsimp only
    rcases (Machine.patchCode j.source bytes bytes.length).on (j.aimed m) with ⟨_ | _, _⟩ <;> rfl

theorem size_of_cell {j : Jump} {c : Block} (hc : j.cell? = some c) : j.size = 6 := by
  unfold cell? at hc
  unfold size
  split at hc
  · rename_i form
    rw [form]
    rfl
  · cases hc

/-! ## What placing changes -/

/-- The jump stands in memory: its bytes are at its source, and its cell holds its target. -/
structure Stands (j : Jump) (m : Memory) : Prop where
  bytes : j.bytes = .ok (m.peek j.source j.size)
  cell : ∀ c, j.cell? = some c → m.word c.base = j.target % wordCount

/-- The byte is one of the jump or of its cell. -/
def Touches (j : Jump) (x : Nat) : Prop :=
  (j.source ≤ x ∧ x < j.source + j.size) ∨ ∃ c, j.cell? = some c ∧ c.base ≤ x ∧ x < c.base + 8

theorem places_aimed (j : Jump) (m : Machine) : (j.aimed m).memory.places = m.memory.places := by
  unfold aimed
  split <;> rfl

theorem bytes_aimed {j : Jump} {x : Nat} (out : ¬ j.Touches x) (m : Machine) :
    (j.aimed m).memory.bytes x = m.memory.bytes x := by
  unfold aimed
  split
  · rename_i cell here
    refine Memory.bytes_write_outside _ _ _ _ ?_
    have : ¬ (cell.base ≤ x ∧ x < cell.base + 8) := fun within => out (Or.inr ⟨cell, here, within⟩)
    rw [length_leBytes]
    omega
  · rfl

/-- Where all bytes of a jump are mapped, placing it succeeds; it gives the bytes that it
replaced, and the jump stands. -/
theorem place_ok {j : Jump} (g : m.memory.Regular) {bytes : List UInt8}
    (encoded : j.bytes = .ok bytes)
    (mapped : ∀ i < j.size, m.memory.isMapped (j.source + i) = true)
    (apart : ∀ c, j.cell? = some c → ∀ x, j.source ≤ x → x < j.source + j.size →
      x < c.base ∨ c.base + 8 ≤ x) :
    ∃ memory, j.place.on m = (.ok (m.memory.peek j.source j.size), m.withMemory memory) ∧
      memory.places = m.memory.places ∧ j.Stands memory ∧
      ∀ x, ¬ j.Touches x → memory.bytes x = m.memory.bytes x := by
  have size : 0 < j.size := by
    unfold size JumpForm.size
    split <;> decide
  have length := length_bytes encoded
  have places := places_aimed j m
  have alone : ∀ i < j.size, (j.aimed m).memory.bytes (j.source + i) =
      m.memory.bytes (j.source + i) := fun i h => by
    unfold aimed
    split
    · rename_i cell here
      refine Memory.bytes_write_outside _ _ _ _ ?_
      rw [length_leBytes]
      exact apart cell here _ (by omega) (by omega)
    · rfl
  obtain ⟨memory, patched, places', bytes'⟩ := Memory.patch_ok (g.of_places places) .executable
    j.source bytes bytes.length fun i h =>
      (Memory.isMapped_congr places _).trans (mapped i (by omega))
  refine ⟨memory, ?_, places'.trans places, ⟨?_, fun c here => ?_⟩, fun x out => ?_⟩
  · rw [on_place, encoded]
    dsimp only
    rw [on_patchCode, patched, Nat.min_self, length, Memory.peek_congr alone]
    unfold aimed
    split <;> rfl
  · have there : memory.peek j.source bytes.length = bytes :=
      (Memory.peek_congr fun i _ => congrFun bytes' _).trans (Memory.peek_write _ _ _)
    rw [encoded, ← length, there]
  · have kept : ∀ i < 8, memory.bytes (c.base + i) = (j.aimed m).memory.bytes (c.base + i) :=
      fun i h => by
        rw [bytes']
        refine Memory.bytes_write_outside _ _ _ _ ?_
        by_contra within
        have := apart c here (c.base + i) (by omega) (by omega)
        omega
    rw [Memory.word_congr kept]
    simp only [aimed, here]
    exact Memory.word_writeWord _ _ _
  · have outside : x < j.source ∨ j.source + bytes.length ≤ x := by
      by_contra within
      exact out (Or.inl (by omega))
    rw [bytes', Memory.bytes_write_outside _ _ _ _ outside, bytes_aimed out]

/-- A jump that could not be placed has changed no byte but those of its cell. -/
theorem place_error {j : Jump} (g : m.memory.Regular) {e : Fault}
    (h : j.place.on m = (.error e, m')) :
    ∃ memory, m' = m.withMemory memory ∧ memory.places = m.memory.places ∧
      ∀ x, (∀ c, j.cell? = some c → x < c.base ∨ c.base + 8 ≤ x) →
        memory.bytes x = m.memory.bytes x := by
  rw [on_place] at h
  rcases encoded : j.bytes with e' | bytes <;> rw [encoded] at h
  · obtain ⟨_, rfl⟩ := Prod.mk.inj h
    exact ⟨m.memory, rfl, rfl, fun _ _ => rfl⟩
  · have places := places_aimed j m
    have whole : ∀ memory, (j.aimed m).withMemory memory = m.withMemory memory := fun memory => by
      unfold aimed
      split <;> rfl
    dsimp only at h
    rw [on_patchCode] at h
    obtain ⟨failed, rfl⟩ := Prod.mk.inj h
    rcases patched : (j.aimed m).memory.patch .executable j.source bytes bytes.length
      with ⟨r, memory⟩
    rw [patched] at failed
    obtain ⟨places', ⟨_, _, bytes'⟩ | ⟨_, ok, _⟩⟩ :=
      Memory.patch_cases (g.of_places places) patched
    · refine ⟨memory, whole memory, places'.trans places, fun x out => ?_⟩
      rw [bytes']
      unfold aimed
      split
      · rename_i cell here
        refine Memory.bytes_write_outside _ _ _ _ ?_
        rw [length_leBytes]
        exact out cell here
      · rfl
    · cases failed.symm.trans ok

/-- Whatever comes of placing a jump, each page is as protected as it was. -/
theorem place_guards {j : Jump} (g : m.memory.Regular) {result : Except Fault (List UInt8)}
    (h : j.place.on m = (result, m')) (x : Nat) :
    m'.memory.protectionAt? x = m.memory.protectionAt? x := by
  rw [on_place] at h
  rcases encoded : j.bytes with e | bytes <;> rw [encoded] at h
  · obtain ⟨_, rfl⟩ := Prod.mk.inj h
    rfl
  · dsimp only at h
    rw [on_patchCode] at h
    obtain ⟨_, rfl⟩ := Prod.mk.inj h
    refine (Memory.patch_protects (g.of_places (places_aimed j m)) rfl x).trans ?_
    unfold aimed
    split <;> rfl

/-- A jump was placed over mapped bytes, as many as it has. -/
theorem mapped_of_place {j : Jump} (g : m.memory.Regular) {covered : List UInt8}
    (h : j.place.on m = (.ok covered, m')) :
    (∃ bytes, j.bytes = .ok bytes) ∧ covered.length = j.size ∧
      ∀ i < j.size, m.memory.isMapped (j.source + i) = true := by
  rw [on_place] at h
  rcases encoded : j.bytes with e' | bytes <;> rw [encoded] at h
  · cases (Prod.mk.inj h).1
  · dsimp only at h
    rw [on_patchCode] at h
    obtain ⟨done, -⟩ := Prod.mk.inj h
    rcases patched : (j.aimed m).memory.patch .executable j.source bytes bytes.length
      with ⟨r, memory⟩
    rw [patched] at done
    have places := places_aimed j m
    obtain ⟨_, ⟨_, failed, _⟩ | ⟨mapped, replaced, _⟩⟩ :=
      Memory.patch_cases (g.of_places places) patched
    · cases done.symm.trans failed
    · obtain rfl := Except.ok.inj (done.symm.trans replaced)
      rw [length_bytes encoded] at mapped
      refine ⟨⟨bytes, rfl⟩, ?_, fun i hi =>
        (Memory.isMapped_congr places _).symm.trans (mapped i hi)⟩
      rw [Memory.length_peek, Nat.min_self, length_bytes encoded]

end Jump

end Detouring
