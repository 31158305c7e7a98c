-- What redirections hold of a machine, whatever others write over their code. While a jump is in
-- force it has its cell. The cell is given up after the code was put back, or when the bytes of the
-- jump are not all mapped any more.
import Detouring.Proofs.Jump.Redirecting

namespace Detouring

open Machine

variable {m m' m'' : Machine} {K L : List Block} {b : Block} {j : Jump} {p p' p'' : JumpPatch}
  {r : Redirection}

/-! ## Giving up memory -/

namespace Machine

/-- No byte has changed, and nothing was mapped. -/
structure Shrinks (m m' : Machine) : Prop where
  bytes : m'.memory.bytes = m.memory.bytes
  mapped : ∀ x, m'.memory.isMapped x = true → m.memory.isMapped x = true

theorem Shrinks.of_arena (same : m'.arena = m.arena) : m.Shrinks m' := by
  have memory : m'.memory = m.memory := congrArg (fun a : Arena PageSupply => a.source.memory) same
  exact ⟨congrArg Memory.bytes memory, fun _ h => memory ▸ h⟩

theorem Shrinks.trans (h : m.Shrinks m') (h' : m'.Shrinks m'') : m.Shrinks m'' :=
  ⟨h'.bytes.trans h.bytes, fun x there => h.mapped x (h'.mapped x there)⟩

namespace Holds

theorem shrinks_free (h : m.Holds (b :: K)) : m.Shrinks (m.free b) := by
  refine ⟨m.bytes_free b, fun x there => ?_⟩
  obtain ⟨_, s, held⟩ := h.sound
  have arena : (m.free b).arena = (m.arena.free b).1 := rfl
  obtain ⟨p, _, _, ⟨_, freed⟩ | ⟨_, freed⟩⟩ := s.books.free_cases (held b List.mem_cons_self)
  · have memory : (m.free b).memory = m.memory := by
      unfold Machine.memory
      rw [arena, freed]
      rfl
    exact memory ▸ there
  · have memory : (m.free b).memory = m.memory.unmap p.base := by
      unfold Machine.memory
      rw [arena, freed]
      rfl
    rw [memory] at there
    exact Memory.isMapped_iff.mpr (Memory.mem_places_unmap.mp (Memory.isMapped_iff.mp there)).1

theorem shrinks_freeAll (h : m.Holds (L ++ K)) : m.Shrinks (m.freeAll L) := by
  induction L generalizing m with
  | nil => exact .of_arena rfl
  | cons b rest ih =>
    have freed : Gains (rest ++ K) [] m (m.free b) := h.free
    exact h.shrinks_free.trans (ih freed.holds)

theorem shrinks_freeCell (h : m.Holds (j.cell?.toList ++ K)) : m.Shrinks (m.freeCell j) := by
  rw [freeCell_eq]
  exact h.shrinks_freeAll

end Holds

end Machine

/-! ## Patches -/

namespace JumpPatch

/-- The patch has kept as many bytes as its jump covers. -/
structure Whole (p : JumpPatch) : Prop where
  applied : p.applied = true
  backup : p.backup.length = p.jump.size

/-- The patch is where it was. If its jump goes through a cell, it still does, and what it covers
is the same. -/
structure Stays (p p' : JumpPatch) : Prop where
  source : p'.jump.source = p.jump.source
  cell : ∀ c, p.jump.cell? = some c → p'.jump.cell? = some c ∧ p'.backup = p.backup

/-- The code is as it was without the jump, or a byte of the jump is not mapped. -/
def Gone (p : JumpPatch) (memory : Memory) : Prop :=
  memory.peek p.jump.source p.backup.length = p.backup ∨
    ∃ i < p.jump.size, memory.isMapped (p.jump.source + i) = false

theorem Stays.refl (p : JumpPatch) : p.Stays p := ⟨rfl, fun _ hc => ⟨hc, rfl⟩⟩

theorem Stays.trans (h : p.Stays p') (h' : p'.Stays p'') : p.Stays p'' := by
  refine ⟨h'.source.trans h.source, fun c hc => ?_⟩
  obtain ⟨there, kept⟩ := h.cell c hc
  obtain ⟨there', kept'⟩ := h'.cell c there
  exact ⟨there', kept'.trans kept⟩

/-- If a jump through a cell is gone where it stays, it was gone where it was. -/
theorem Stays.gone (h : p.Stays p') {c : Block} (hc : p.jump.cell? = some c) {memory : Memory}
    (gone : p'.Gone memory) : p.Gone memory := by
  obtain ⟨there, kept⟩ := h.cell c hc
  unfold Gone at gone ⊢
  rw [← h.source, ← kept, Jump.size_of_cell hc, ← Jump.size_of_cell there]
  exact gone

theorem Gone.shrinks (h : p.Gone m.memory) (s : m.Shrinks m') : p.Gone m'.memory := by
  rcases h with back | ⟨i, hi, unmapped⟩
  · refine Or.inl ((Memory.peek_congr fun i _ => ?_).trans back)
    rw [s.bytes]
  · refine Or.inr ⟨i, hi, ?_⟩
    by_contra there
    rw [Bool.not_eq_false] at there
    cases unmapped.symm.trans (s.mapped _ there)

end JumpPatch

/-! ## Writing -/

namespace Machine.Holds

/-- Code may be patched whoever it belongs to. If that fails, some of it is not mapped. -/
theorem patchCode (h : m.Holds K) (target : Nat) (data : List UInt8) (backup : Nat) :
    (Machine.patchCode target data backup).Ends m
      (fun covered m' => m'.Holds K ∧ covered.length = min backup data.length ∧
        m'.memory.peek target data.length = data)
      (fun m' => m'.Holds K ∧ ∃ i < max data.length 1, m'.memory.isMapped (target + i) = false) := by
  refine Op.Ends.of_on (Jump.on_patchCode target data backup m) (fun covered ok => ?_)
    fun e error => ?_ <;>
    rcases patched : m.memory.patch .executable target data backup with ⟨result, memory⟩ <;>
    dsimp only <;>
    obtain ⟨places, outcome⟩ := Memory.patch_cases h.regular patched
  · refine ⟨h.withMemory places, ?_⟩
    rw [patched] at ok
    rcases outcome with ⟨_, failed, _⟩ | ⟨_, replaced, bytes⟩
    · cases ok.symm.trans failed
    · obtain rfl := Except.ok.inj (ok.symm.trans replaced)
      refine ⟨Memory.length_peek _ _ _, ?_⟩
      exact (Memory.peek_congr fun i _ => congrFun bytes _).trans (Memory.peek_write _ _ _)
  · refine ⟨h.withMemory places, ?_⟩
    rw [patched] at error
    by_contra mapped
    have mapped (i : Nat) (hi : i < max data.length 1) :
        m.memory.isMapped (target + i) = true := by
      by_contra unmapped
      rw [Bool.not_eq_true, ← Memory.isMapped_congr places] at unmapped
      exact mapped ⟨i, hi, unmapped⟩
    obtain ⟨_, done, _⟩ := Memory.patch_ok h.regular .executable target data backup mapped
    cases error.symm.trans (congrArg Prod.fst (patched.symm.trans done))

theorem encode (h : m.Holds K) (j : Jump) :
    (Machine.encode j).Ends m (fun bytes m' => m'.Holds K ∧ bytes.length = j.size)
      (fun m' => m'.Holds K) := by
  have run := Jump.on_encode j m
  rcases encoded : j.bytes with e | bytes <;> rw [encoded] at run
  · exact Op.Ends.of_on run (fun _ ok => (by cases ok)) fun _ _ => h
  · refine Op.Ends.of_on run (fun _ ok => ?_) fun _ error => (by cases error)
    obtain rfl := Except.ok.inj ok
    refine ⟨?_, Jump.length_bytes encoded⟩
    unfold Jump.aimed
    split
    · exact h.withMemory rfl
    · exact h

end Machine.Holds

namespace JumpPatch

theorem write_keeps (h : m.Holds (j.cell?.toList ++ K)) :
    (write j).Ends m
      (fun p m' => p.jump = j ∧ p.Whole ∧ m'.Holds (j.cell?.toList ++ K)) (fun m' => m'.Holds K) := by
  apply Op.Ends.cleaning
  apply Op.Ends.bind
  apply (h.encode j).mono _ fun _ held => held.freeCell.holds
  rintro bytes m₁ ⟨held, length⟩
  apply Op.Ends.bind
  apply (held.patchCode j.source bytes bytes.length).mono _ fun _ failed => failed.1.freeCell.holds
  rintro covered m₂ ⟨held, covers, _⟩
  apply Op.Ends.pure
  exact ⟨rfl, ⟨rfl, by rw [covers, Nat.min_self, length]⟩, held⟩

/-- A jump without a cell gives way to one that is as long or longer. -/
theorem overwrite_keeps (whole : p.Whole) (h : m.Holds (j.cell?.toList ++ K))
    (grows : p.jump.size ≤ j.size) (limit : Option Nat) :
    (p.overwrite j limit).Ends m
      (fun p' m' => p'.jump = j ∧ p'.Whole ∧ m'.Holds (j.cell?.toList ++ K))
      (fun m' => m'.Holds K) := by
  apply Op.Ends.cleaning
  split
  · apply Op.Ends.throw
    exact h.freeCell.holds
  · apply Op.Ends.bind
    apply (h.encode j).mono _ fun _ held => held.freeCell.holds
    rintro bytes m₁ ⟨held, length⟩
    apply Op.Ends.bind
    apply (held.patchCode j.source bytes bytes.length).mono _
      fun _ failed => failed.1.freeCell.holds
    rintro covered m₂ ⟨held, covers, _⟩
    apply Op.Ends.pure
    refine ⟨rfl, ⟨whole.applied, ?_⟩, held⟩
    show (p.backup ++ covered.drop p.backup.length).length = j.size
    rw [List.length_append, List.length_drop, covers, Nat.min_self, length, whole.backup]
    omega

/-- A patch is pointed elsewhere, or nothing happens to it. -/
theorem retarget_keeps (whole : p.Whole) (h : m.Holds (p.jump.cell?.toList ++ K)) (target : Nat)
    (limit : Option Nat) :
    (p.retarget target limit).Ends m
      (fun p' m' => p'.Whole ∧ p.Stays p' ∧ m'.Holds (p'.jump.cell?.toList ++ K))
      (fun m' => m'.Holds (p.jump.cell?.toList ++ K)) := by
  -- A jump that is written over has no cell.
  have rewritten {j : Jump} {m₁ : Machine} (bare : p.jump.cell? = none)
      (here : j.source = p.jump.source) (grows : p.jump.size ≤ j.size)
      (h₁ : m₁.Holds (j.cell?.toList ++ K)) :
      (p.overwrite j limit).Ends m₁
        (fun p' m' => p'.Whole ∧ p.Stays p' ∧ m'.Holds (p'.jump.cell?.toList ++ K))
        (fun m' => m'.Holds (p.jump.cell?.toList ++ K)) := by
    apply (overwrite_keeps whole h₁ grows limit).mono
    · rintro p' m' ⟨rfl, whole', held⟩
      exact ⟨whole', ⟨here, fun c hc => (by cases bare.symm.trans hc)⟩, held⟩
    · intro m' held
      rw [bare]
      exact held
  apply retarget_rule fun gone => (gone whole.applied).elim
  · exact fun c _ => ⟨⟨whole.applied, whole.backup⟩, ⟨rfl, fun _ hc => ⟨hc, rfl⟩⟩, h.withMemory rfl⟩
  · exact fun bare _ => rewritten bare rfl (Nat.le_refl _) h
  · intro form _
    have bare : p.jump.cell? = none := by simp only [Jump.cell?, form]
    have five : p.jump.size = 5 := by simp only [Jump.size, form, JumpForm.size]
    rw [bare] at h ⊢
    apply (Jump.choose_ends h p.jump.source target limit).mono
    · rintro j m₁ ⟨gained, here, _⟩
      exact bare ▸ rewritten bare here (five ▸ j.five_le_size) gained.holds
    · exact fun m₁ same => same.holds

/-- The code is put back, unless some of it is not mapped. -/
theorem undo_keeps (whole : p.Whole) (h : m.Holds K) :
    p.undo.Ends m
      (fun p' m' => p' = { p with applied := false } ∧ m'.Holds K ∧ p.Gone m'.memory)
      (fun m' => m'.Holds K ∧ p.Gone m'.memory) := by
  unfold undo
  rw [if_pos whole.applied]
  apply Op.Ends.bind
  apply (h.patchCode p.jump.source p.backup 0).mono
  · rintro _ m' ⟨held, _, back⟩
    apply Op.Ends.pure
    exact ⟨rfl, held, Or.inl back⟩
  · rintro m' ⟨held, i, hi, unmapped⟩
    have size := p.jump.size_pos
    exact ⟨held, Or.inr ⟨i, by rw [whole.backup] at hi; omega, unmapped⟩⟩

/-- A patch that is dropped gives its cell back when its jump is gone. -/
theorem drop_keeps (h : m.Holds (p.jump.cell?.toList ++ K)) (whole : p.applied = true → p.Whole) :
    (p.drop m).Holds K ∧ (p.applied = true → p.Gone (p.drop m).memory) := by
  unfold drop
  split
  · rename_i applied
    have reported : (m.report (.droppedWhileApplied p.jump.source)).Holds _ := h.of_arena rfl
    rcases (undo_keeps (whole applied) reported).run with
      ⟨p', ok, _, held, gone⟩ | ⟨e, error, held, gone⟩ <;>
      rcases run : p.undo.on (m.report (.droppedWhileApplied p.jump.source)) with ⟨result, m'⟩ <;>
      rw [run] at held gone
    · rw [run] at ok
      obtain rfl : result = .ok p' := ok
      exact ⟨held.freeCell.holds, fun _ => gone.shrinks held.shrinks_freeCell⟩
    · rw [run] at error
      obtain rfl : result = .error e := error
      have held' : (m'.report (.jumpNotUndone p.jump.source e)).Holds _ := held.of_arena rfl
      refine ⟨held'.freeCell.holds, fun _ => gone.shrinks (.trans ?_ held'.shrinks_freeCell)⟩
      exact .of_arena rfl
  · rename_i undone
    exact ⟨h.freeCell.holds, fun applied => (undone applied).elim⟩

end JumpPatch

/-! ## Redirections -/

namespace Redirection

/-- The cell of a redirection and its alternate entry, with the cell in front. -/
theorem perm_blocks (r : Redirection) (K : List Block) :
    (r.blocks ++ K).Perm (r.patch.jump.cell?.toList ++ (r.alternate.toList ++ K)) := by
  rw [blocks, List.append_assoc]
  exact List.perm_append_comm_assoc _ _ _

theorem ofPlan_keeps {plan : RedirectionPlan} (h : m.Holds (plan.blocks ++ K)) :
    (ofPlan plan).Ends m (fun r m' => r.patch.Whole ∧ m'.Holds (r.blocks ++ K))
      (fun m' => m'.Holds K) := by
  have parted : m.Holds (plan.jump.cell?.toList ++ (plan.alternate.toList ++ K)) := by
    refine h.mono (List.Perm.subperm ?_)
    rw [RedirectionPlan.blocks, ← List.append_assoc]
    exact List.perm_append_comm.append_right K
  apply Op.Ends.cleaning
  apply Op.Ends.bind
  apply (JumpPatch.write_keeps parted).mono
  · rintro p m' ⟨same, whole, held⟩
    apply Op.Ends.pure
    rw [← same] at held
    exact ⟨whole, held.mono (perm_blocks ⟨p, plan.alternate⟩ K).subperm⟩
  · exact fun m' held => held.freeAll.holds

theorem create_keeps (h : m.Holds K) (a : Architecture) (settings : Settings)
    (source target : Nat) (room : Option Nat) :
    (create a settings source target room).Ends m
      (fun r m' => r.patch.Whole ∧ m'.Holds (r.blocks ++ K)) (fun m' => m'.Holds K) := by
  apply Op.Ends.bind
  apply (RedirectionPlan.make_ends h a settings source target room).mono _ fun _ same => same.holds
  rintro plan m₁ ⟨gained, _⟩
  exact ofPlan_keeps gained.holds

theorem retarget_keeps (whole : r.patch.Whole) (h : m.Holds (r.blocks ++ K)) (target : Nat) :
    (r.retarget target).Ends m
      (fun r' m' => r'.patch.Whole ∧ r.patch.Stays r'.patch ∧ m'.Holds (r'.blocks ++ K))
      (fun m' => m'.Holds (r.blocks ++ K)) := by
  apply Op.Ends.bind
  apply (JumpPatch.retarget_keeps whole (h.mono (r.perm_blocks K).symm.subperm) target _).mono
  · rintro p m' ⟨whole', stays, held⟩
    apply Op.Ends.pure
    exact ⟨whole', stays, held.mono (perm_blocks ⟨p, r.alternate⟩ K).subperm⟩
  · exact fun m' held => held.mono (r.perm_blocks K).subperm

/-- A redirection that is undone keeps its blocks until it is dropped. -/
theorem undo_keeps (whole : r.patch.Whole) (h : m.Holds K) :
    r.undo.Ends m
      (fun r' m' => r' = { r with patch.applied := false } ∧ m'.Holds K ∧ r.patch.Gone m'.memory)
      (fun m' => m'.Holds K ∧ r.patch.Gone m'.memory) := by
  apply Op.Ends.bind
  apply (JumpPatch.undo_keeps whole h).mono
  · rintro _ m' ⟨rfl, held, gone⟩
    apply Op.Ends.pure
    exact ⟨rfl, held, gone⟩
  · exact fun _ failed => failed

theorem drop_keeps (h : m.Holds (r.blocks ++ K)) (whole : r.patch.applied = true → r.patch.Whole) :
    (r.drop m).Holds K ∧ (r.patch.applied = true → r.patch.Gone (r.drop m).memory) := by
  obtain ⟨held, gone⟩ := JumpPatch.drop_keeps (h.mono (r.perm_blocks K).symm.subperm) whole
  exact ⟨held.freeAll.holds, fun applied => (gone applied).shrinks held.shrinks_freeAll⟩

end Redirection

end Detouring
