-- Pointing a redirection at another target. The alternate entry runs only the bytes that were
-- overwritten at first, so the jump keeps its form; a short one that cannot reach the target is
-- stuck, and nothing happens.
import Detouring.Proofs.Jump.Redirecting

namespace Detouring

open Machine

namespace Jump

/-- The bytes of a jump through a cell do not tell its target. -/
theorem bytes_of_cell {j : Jump} {c : Block} (hc : j.cell? = some c) (target : Nat) :
    ({ j with target } : Jump).bytes = j.bytes := by
  obtain ⟨source, goal, form⟩ := j
  cases form <;> first | rfl | cases hc

/-- In the room of a short jump there is no other form, and the longest is too long. -/
theorem choose_short {source target : Nat} (far : reaches source 5 target = false) (m : Machine) :
    (choose source target (some 5)).Ends m
      (fun j m' => j = ⟨source, target, .absolute⟩ ∧ m'.arena = m.arena)
      (fun m' => m'.arena = m.arena) := by
  apply choose_rule
  · exact fun _ => rfl
  · intro _ _ near
    cases far.symm.trans near
  · intro _ fit
    cases fit
  · exact fun _ _ m₁ same => ⟨rfl, same⟩

end Jump

namespace Redirection

variable {m : Machine} {K : List Block} {r : Redirection} {target : Nat}

/-- The jump is short and cannot reach the target. -/
def Stuck (r : Redirection) (target : Nat) : Prop :=
  r.patch.jump.form = .relative ∧ reaches r.source 5 target = false

instance (r : Redirection) (target : Nat) : Decidable (r.Stuck target) :=
  inferInstanceAs (Decidable (_ ∧ _))

/-- The redirection with its jump to another target. -/
def aimed (r : Redirection) (target : Nat) : Redirection :=
  { r with patch.jump.target := target }

theorem source_aimed (r : Redirection) (target : Nat) :
    (r.aimed target).patch.jump.source = r.source := rfl

theorem size_aimed (r : Redirection) (target : Nat) :
    (r.aimed target).patch.jump.size = r.patch.jump.size := rfl

/-- What becomes of a redirection that is pointed at another target. If nobody else has written over
its jump, the new one is in force. -/
structure Turned (K : List Block) (r : Redirection) (target : Nat) (m m' : Machine) : Prop where
  holds : m'.Holds (r.blocks ++ K)
  spares : Spares K m m'
  laid : (r.aimed target).Laid m'
  jump : r.patch.jump.Stands m.memory → (r.aimed target).patch.jump.Stands m'.memory
  beside : ∀ x, m.Foreign x → x < r.source ∨ r.source + r.patch.jump.size ≤ x →
    m'.memory.bytes x = m.memory.bytes x

/-- A jump without a cell that reaches its target is written over. -/
theorem overwrite_ends (h : m.Holds (r.blocks ++ K)) (laid : r.Laid m)
    (bare : r.patch.jump.cell? = none) {bytes : List UInt8}
    (encoded : (r.aimed target).patch.jump.bytes = .ok bytes) {E : Machine → Prop} :
    (r.patch.overwrite (r.aimed target).patch.jump (some r.patch.backup.length)).Ends m
      (fun p m' => p = (r.aimed target).patch ∧ Turned K r target m m') E := by
  have fit : Jump.fits (some r.patch.backup.length) (r.aimed target).patch.jump.size = true := by
    rw [laid.backup, size_aimed]
    exact decide_eq_true (Nat.le_refl _)
  have mapped (i : Nat) (hi : i < (r.aimed target).patch.jump.size) :
      m.memory.isMapped ((r.aimed target).patch.jump.source + i) = true := (laid.foreign i hi).1
  obtain ⟨memory, placed, places, jump, outside⟩ := Jump.place_ok h.regular encoded mapped
    fun c hc => (by cases bare.symm.trans hc)
  have guards := Jump.place_guards h.regular placed
  have run := Jump.on_overwrite r.patch (r.aimed target).patch.jump _ m fit
  rw [placed] at run
  have untouched {x : Nat} (out : x < r.source ∨ r.source + r.patch.jump.size ≤ x) :
      memory.bytes x = m.memory.bytes x := by
    refine outside x ?_
    rintro (⟨low, high⟩ | ⟨c, hc, _⟩)
    · rw [source_aimed] at low high
      rw [size_aimed] at high
      omega
    · cases bare.symm.trans hc
  refine Op.Ends.of_on run (fun p ok => ⟨?_, ?_⟩) fun _ error => (by cases error)
  · obtain rfl := Except.ok.inj ok
    have covered : (m.memory.peek (r.aimed target).patch.jump.source
        (r.aimed target).patch.jump.size).drop r.patch.backup.length = [] := by
      refine List.drop_eq_nil_of_le ?_
      rw [Memory.length_peek, laid.backup, size_aimed]
    rw [covered, List.append_nil]
    rfl
  · refine ⟨h.withMemory places, ⟨fun b mb x has => untouched ?_, fun x f => ?_,
      fun x _ => guards x⟩,
      ⟨laid.applied, laid.cell, laid.backup, fun i hi => ?_⟩, fun _ => jump, fun x _ => untouched⟩
    · by_contra within
      have f := laid.foreign (x - r.source) (by omega)
      rw [Nat.add_sub_of_le (by omega)] at f
      exact h.not_foreign (List.mem_append_right _ mb) has f
    · exact (foreign_withMemory places x).mpr f
    · exact (foreign_withMemory places _).mpr (laid.foreign i hi)

/-- The cell of a jump is filled again. -/
theorem turned_fill (h : m.Holds (r.blocks ++ K)) (laid : r.Laid m) {c : Block}
    (hc : r.patch.jump.cell? = some c) : Turned K r target m (m.writeWord c.base target) := by
  have size := laid.cell c hc
  have parts : (r.blocks ++ K).Perm (c :: (r.alternate.toList ++ K)) := by
    unfold Redirection.blocks
    rw [hc, List.append_assoc]
    exact List.perm_middle
  have inside : 0 + (leBytes 8 target).length ≤ c.size := by
    rw [length_leBytes]
    omega
  have written := (h.mono parts.symm.subperm).write inside
  rw [Nat.add_zero] at written
  refine ⟨written.holds.mono parts.subperm,
    written.toSpares.mono (List.subset_append_right _ _),
    ⟨laid.applied, laid.cell, laid.backup, fun i hi => written.foreign _ (laid.foreign i hi)⟩,
    fun jump => ⟨?_, fun c' hc' => ?_⟩, fun x f _ => written.code x f⟩
  · have code : (m.writeWord c.base target).memory.peek r.source r.patch.jump.size
        = m.memory.peek r.source r.patch.jump.size :=
      Memory.peek_congr fun i hi => written.code _ (laid.foreign i hi)
    have same : (r.aimed target).patch.jump.bytes = r.patch.jump.bytes :=
      Jump.bytes_of_cell hc target
    rw [same, jump.bytes]
    exact congrArg Except.ok code.symm
  · obtain rfl := Option.some.inj (hc.symm.trans hc')
    exact Memory.word_writeWord _ _ _

/-- A patch whose jump must not grow has its cell filled, is written over itself, or is stuck. -/
theorem retarget_patch_rule {Q : JumpPatch → Machine → Prop} {E : Machine → Prop}
    (gone : r.patch.applied ≠ true → E m)
    (backup : r.patch.backup.length = r.patch.jump.size)
    (fill : ∀ c, r.patch.jump.cell? = some c → ¬ r.Stuck target →
      Q (r.aimed target).patch (m.writeWord c.base target))
    (written : ∀ bytes, r.patch.jump.cell? = none → ¬ r.Stuck target →
      (r.aimed target).patch.jump.bytes = .ok bytes →
        (r.patch.overwrite (r.aimed target).patch.jump (some r.patch.backup.length)).Ends m Q E)
    (stuck : r.Stuck target → ∀ m' : Machine, m'.arena = m.arena → E m') :
    (r.patch.retarget target (some r.patch.backup.length)).Ends m Q E := by
  apply JumpPatch.retarget_rule gone
  · intro c form
    exact fill c (by simp only [Jump.cell?, form]) fun stuck => (by cases form.symm.trans stuck.1)
  · intro bare near
    have loose : ¬ r.Stuck target := fun stuck => by
      cases (near stuck.1).symm.trans stuck.2
    have encoded : ∃ bytes, (r.aimed target).patch.jump.bytes = .ok bytes := by
      rcases form : r.patch.jump.form with _ | c | _
      · have aims : (r.aimed target).patch.jump = ⟨r.patch.jump.source, target, .relative⟩ := by
          simp only [aimed, form]
        rw [aims]
        exact ⟨_, if_pos (near form)⟩
      · simp only [Jump.cell?, form] at bare
        cases bare
      · simp only [Jump.bytes, aimed, form]
        exact ⟨_, rfl⟩
    obtain ⟨bytes, encoded⟩ := encoded
    exact written bytes bare loose encoded
  · intro form far
    have isStuck : r.Stuck target := ⟨form, far⟩
    have five : r.patch.jump.size = 5 := by simp only [Jump.size, form, JumpForm.size]
    rw [backup, five]
    apply (Jump.choose_short far m).mono
    · rintro j m₁ ⟨rfl, same⟩
      exact JumpPatch.overwrite_rule (fun _ => stuck isStuck _ same) fun fit => (by cases fit)
    · exact fun m₁ same => stuck isStuck _ same

/-- A patch whose jump must not grow follows its target, unless its jump is stuck. -/
theorem retarget_patch_ends (h : m.Holds (r.blocks ++ K)) (laid : r.Laid m) (target : Nat) :
    (r.patch.retarget target (some r.patch.backup.length)).Ends m
      (fun p m' => ¬ r.Stuck target ∧ p = (r.aimed target).patch ∧ Turned K r target m m')
      (fun m' => r.Stuck target ∧ m'.arena = m.arena) := by
  apply retarget_patch_rule (fun gone => (gone laid.applied).elim) laid.backup
  · exact fun c hc loose => ⟨loose, rfl, turned_fill h laid hc⟩
  · intro bytes bare loose encoded
    exact (overwrite_ends h laid bare encoded).mono (fun _ _ done => ⟨loose, done⟩) fun _ h => h
  · exact fun stuck _ same => ⟨stuck, same⟩

/-- A redirection with an alternate entry follows its target, unless its jump is stuck. -/
theorem retarget_ends (h : m.Holds (r.blocks ++ K)) (laid : r.Laid m)
    (callable : r.alternate.isSome) (target : Nat) :
    (r.retarget target).Ends m
      (fun r' m' => ¬ r.Stuck target ∧ r' = r.aimed target ∧ Turned K r target m m')
      (fun m' => r.Stuck target ∧ m'.arena = m.arena) := by
  obtain ⟨alternate, there⟩ := Option.isSome_iff_exists.mp callable
  unfold retarget
  rw [there]
  apply Op.Ends.bind
  apply (retarget_patch_ends h laid target).mono _ fun _ stuck => stuck
  rintro p m' ⟨loose, rfl, turned⟩
  apply Op.Ends.pure
  exact ⟨loose, by unfold aimed; rw [there], turned⟩

end Redirection

end Detouring
