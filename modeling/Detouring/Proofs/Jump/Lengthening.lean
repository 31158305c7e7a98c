-- Pointing a redirection elsewhere when its jump may grow. Without an alternate entry there is no
-- code to stay in front of, so a short jump that cannot reach the new target takes a longer form; it
-- stays inside the room that the longest jump needs.
import Detouring.Proofs.Jump.Turning

namespace Detouring

open Machine

variable {m m' m₀ : Machine} {K : List Block} {r : Redirection} {j : Jump} {target : Nat}

namespace Redirection

/-- How much of the code the jump of the redirection may ever take up. -/
def room (r : Redirection) : Nat :=
  if r.alternate.isSome then r.patch.jump.size else JumpForm.absolute.size

theorem size_le_room (r : Redirection) : r.patch.jump.size ≤ r.room := by
  unfold room
  split
  · exact Nat.le_refl _
  · exact r.patch.jump.size_le

theorem room_le (r : Redirection) : r.room ≤ JumpForm.absolute.size := by
  unfold room
  split
  · exact r.patch.jump.size_le
  · exact Nat.le_refl _

theorem room_of_unkept (unkept : r.alternate = none) : r.room = JumpForm.absolute.size := by
  unfold room
  rw [unkept]
  rfl

/-- What becomes of a redirection that was pointed at another target. If nobody else has written over
its jump, the new one is in force. -/
structure Led (K : List Block) (r : Redirection) (target : Nat) (m : Machine) (r' : Redirection)
    (m' : Machine) : Prop where
  source : r'.source = r.source
  leads : r'.target = target
  room : r'.room = r.room
  holds : m'.Holds (r'.blocks ++ K)
  spares : Spares K m m'
  laid : r'.Laid m'
  jump : r.patch.jump.Stands m.memory → r'.patch.jump.Stands m'.memory
  beside : ∀ x, m.Foreign x → x < r.source ∨ r.source + r.room ≤ x →
    m'.memory.bytes x = m.memory.bytes x

/-- A jump that keeps its form stays inside the room that it has. -/
theorem Turned.led (h : Turned K r target m m') : Led K r target m (r.aimed target) m' :=
  ⟨rfl, rfl, rfl, h.holds, h.spares, h.laid, h.jump, fun x f out =>
    h.beside x f (by have := r.size_le_room; omega)⟩

/-- A jump that may grow gives way to one that is as long or longer. -/
theorem overwrite_led (laid : r.Laid m₀) (unkept : r.alternate = none)
    (room : ∀ i < JumpForm.absolute.size, m₀.Foreign (r.source + i))
    (here : j.source = r.source) (grows : r.patch.jump.size ≤ j.size)
    (cell : ∀ c, j.cell? = some c → c.size = 8) (gained : Gains K j.cell?.toList m₀ m) :
    (r.patch.overwrite j none).Ends m
      (fun p m' => Led K r j.target m₀ { r with patch := p } m') (Gains K [] m₀) := by
  have foreign (i : Nat) (hi : i < j.size) : m₀.Foreign (j.source + i) := by
    rw [here]
    exact room i (Nat.lt_of_lt_of_le hi j.size_le)
  apply JumpPatch.overwrite_rule fun long => (by cases long)
  intro _
  apply (Jump.place_ends gained.holds cell).mono
  · rintro covered m' ⟨length, placed⟩
    obtain ⟨holds, spares, stands, _, beside⟩ := placed fun i hi => gained.foreign _ (foreign i hi)
    have spares := gained.toSpares.trans spares
    refine ⟨here, rfl, ?_, ?_, spares, ⟨laid.applied, cell, ?_, fun i hi => ?_⟩, fun _ => stands,
      fun x f out => ?_⟩
    · rw [room_of_unkept unkept]
      exact room_of_unkept unkept
    · rw [blocks, unkept]
      exact holds
    · show (r.patch.backup ++ covered.drop r.patch.backup.length).length = j.size
      rw [List.length_append, List.length_drop, length, laid.backup]
      omega
    · exact spares.foreign _ (foreign i hi)
    · have size := j.size_le
      have wide := room_of_unkept unkept
      exact (beside x (gained.foreign x f) (by omega)).trans (gained.code x f)
  · exact fun m' same => gained.trans (same.trans same.holds.freeCell)

/-- A redirection without an alternate entry is pointed elsewhere, or nothing happens to it. -/
theorem retarget_led_of_unkept (h : m.Holds (r.blocks ++ K)) (laid : r.Laid m)
    (unkept : r.alternate = none)
    (room : ∀ i < JumpForm.absolute.size, m.Foreign (r.source + i)) (target : Nat) :
    (r.retarget target).Ends m (fun r' m' => Led K r target m r' m')
      (Gains (r.blocks ++ K) [] m) := by
  have held (bare : r.patch.jump.cell? = none) : r.blocks = [] := by
    rw [blocks, unkept, bare]
    rfl
  -- The same jump with another target takes up the same bytes.
  have rewrite (bare : r.patch.jump.cell? = none) :
      (r.patch.overwrite { r.patch.jump with target } none).Ends m
        (fun p m' => Led K r target m { r with patch := p } m') (Gains K [] m) := by
    have same : ({ r.patch.jump with target } : Jump).cell? = none := bare
    rw [held bare] at h
    refine overwrite_led (j := { r.patch.jump with target }) laid unkept room rfl
      (Nat.le_refl _) (fun c hc => (by cases same.symm.trans hc)) ?_
    rw [same]
    exact .refl h
  have patch : (r.patch.retarget target none).Ends m
      (fun p m' => Led K r target m { r with patch := p } m') (Gains (r.blocks ++ K) [] m) := by
    apply JumpPatch.retarget_rule fun gone => (gone laid.applied).elim
    · intro c form
      have hc : r.patch.jump.cell? = some c := by simp only [Jump.cell?, form]
      have turned : Turned K r target m _ := turned_fill h laid hc
      exact turned.led
    · intro bare _
      rw [held bare]
      exact rewrite bare
    · intro form _
      have bare : r.patch.jump.cell? = none := by simp only [Jump.cell?, form]
      rw [held bare]
      apply (Jump.choose_ends (held bare ▸ h) r.patch.jump.source target none).mono
      · rintro j m₁ ⟨gained, here, rfl, cell⟩
        refine overwrite_led laid unkept room here ?_ cell gained
        have short : r.patch.jump.size = 5 := by simp only [Jump.size, form, JumpForm.size]
        have := j.five_le_size
        omega
      · exact fun _ same => same
  unfold retarget
  rw [unkept]
  apply Op.Ends.bind
  apply patch.mono _ fun _ same => same
  intro p m' led
  apply Op.Ends.pure
  have same : ({ r with patch := p } : Redirection) = { patch := p, alternate := none } := by
    rw [← unkept]
  exact same ▸ led

/-- A redirection is pointed elsewhere, or nothing happens to it. -/
theorem retarget_led (h : m.Holds (r.blocks ++ K)) (laid : r.Laid m)
    (room : ∀ i < r.room, m.Foreign (r.source + i)) (target : Nat) :
    (r.retarget target).Ends m (fun r' m' => Led K r target m r' m')
      (Gains (r.blocks ++ K) [] m) := by
  rcases callable : r.alternate with _ | alternate
  · refine retarget_led_of_unkept h laid callable (fun i hi => room i ?_) target
    rw [room_of_unkept callable]
    exact hi
  · apply (retarget_ends h laid (by rw [callable]; rfl) target).mono
    · rintro _ m' ⟨_, rfl, turned⟩
      exact turned.led
    · exact fun m' ⟨_, same⟩ => .of_arena h same

end Redirection

end Detouring
