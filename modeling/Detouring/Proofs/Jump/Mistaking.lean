-- A relative jump that was written over code is taken for no stub. The one stub that begins as it
-- does ends in `pop rdi`, right where the byte behind the jump is, and the choice of the jump has
-- looked at that byte.
import Detouring.Proofs.Jump.Redirecting
import Detouring.Proofs.Jump.Retargeting
import Detouring.Proofs.Thunk.Shapes

namespace Detouring

/-! ## Jumps and stubs -/

namespace Thunk

open PatternItem (Clash Takes)

variable {data : List UInt8} {p : Pattern}

/-- No stub but one may begin with the opcode of a relative jump, and that one has `pop rdi` behind
the jump. -/
theorem stubs_opening :
    ∀ p ∈ stubs, Clash [.literal 0xe9] p.items ∨ p.items[5]? = some (.literal Jump.popRdi) := by
  decide

/-- Bytes that begin as a relative jump, with no `pop rdi` behind it, match no stub. -/
theorem matchAt?_of_jump (m : p ∈ stubs) (jump : ∀ b ∈ data.head?, b = 0xe9)
    (behind : data[5]? ≠ some Jump.popRdi) : p.matchAt? data = none := by
  by_contra some
  have accepted := stubs_accepted p m
  obtain ⟨bytes, begins, takes⟩ :=
    accepted.takes_of_matchAt? (stubs_gapless p m) (Option.isSome_iff_ne_none.mpr some)
  cases data with
  | nil =>
    obtain rfl := List.prefix_nil.mp begins
    have none : p.items = [] := List.forall₂_nil_right_iff.mp takes
    have long := accepted.minLength_pos
    simp [Pattern.minLength, none] at long
  | cons b rest =>
    obtain rfl := jump b rfl
    rcases stubs_opening p m with clash | pops
    · have own : Takes [.literal 0xe9] [0xe9] := .cons rfl .nil
      exact own.not_clash takes (by simp) begins clash
    · obtain ⟨within, last⟩ := List.getElem?_eq_some_iff.mp pops
      have taken := List.forall₂_drop 5 takes
      rw [List.drop_eq_getElem_cons within, last] at taken
      obtain ⟨b, _, same, -, ends⟩ := List.forall₂_cons_left_iff.mp taken
      obtain rfl : Jump.popRdi = b := by simpa [PatternItem.accepts] using same
      obtain ⟨more, whole⟩ := begins
      apply behind
      rw [← List.head?_drop, ← whole, List.drop_append, ends]
      rfl

theorem table_of_jump (jump : ∀ b ∈ data.head?, b = 0xe9)
    (behind : data[5]? ≠ some Jump.popRdi) : table.matchAt? data = none := by
  rcases found : table.matchAt? data with _ | hit
  · rfl
  · obtain ⟨given, there⟩ :=
      PatternCollection.matchAt?_eq_some (PatternCollection.indexes_ofList stubs) found
    rw [matchAt?_of_jump (PatternCollection.pattern_mem given) jump behind] at there
    cases there

end Thunk

open Op

variable {m m' m₀ : Machine} {p p' : JumpPatch} {j : Jump} {source : Nat}

namespace Jump

/-- A relative jump is chosen only where no `pop rdi` is behind it. -/
theorem choose_watches (source target : Nat) (room : Option Nat) (m : Machine) :
    (choose source target room).Ends m (fun j _ => j.source = source ∧
      (j.form = .relative → m.memory.bytes (source + 5) ≠ popRdi)) (fun _ => True) := by
  apply choose_rule
  · exact fun _ => trivial
  · exact fun _ _ _ watched => ⟨rfl, fun _ => watched⟩
  · exact fun _ _ => (Ends.of_left (P := fun _ => True) trivial).mono
      (fun _ _ _ => ⟨rfl, nofun⟩) fun _ _ _ _ => ⟨rfl, nofun⟩
  · exact fun _ _ _ _ => ⟨rfl, nofun⟩

/-- A relative jump that was placed begins with its opcode. -/
theorem place_opens (j : Jump) (m : Machine) :
    j.place.Ends m (fun _ m' => j.form = .relative → m'.memory.bytes j.source = 0xe9)
      (fun _ => True) := by
  obtain ⟨source, target, form⟩ := j
  rcases placed : (place ⟨source, target, form⟩).on m with ⟨result, m'⟩
  refine Ends.of_on placed (fun covered ok => ?_) fun _ _ => trivial
  rintro rfl
  rw [on_place] at placed
  subst ok
  rcases encoded : (⟨source, target, .relative⟩ : Jump).bytes with e | code <;>
    rw [encoded] at placed
  · cases placed
  · dsimp only at placed
    rw [on_patchCode] at placed
    obtain ⟨patched, rfl⟩ := Prod.mk.inj placed
    rw [Machine.memory_withMemory, Memory.bytes_of_patch (Prod.ext patched rfl)]
    simp only [bytes] at encoded
    split at encoded
    · cases encoded
      simp [Memory.bytes_write]
    · cases encoded

end Jump

namespace JumpPatch

theorem write_opens (j : Jump) (m : Machine) :
    (write j).Ends m (fun p m' => p.jump = j ∧
      (j.form = .relative → m'.memory.bytes j.source = 0xe9)) (fun _ => True) := by
  apply placed_rule (Jump.on_write j m)
  apply (Jump.place_opens j m).mono _ fun _ h => h
  exact fun _ _ opcode => ⟨rfl, opcode⟩

theorem overwrite_opens (p : JumpPatch) (j : Jump) (limit : Option Nat) (m : Machine) :
    (p.overwrite j limit).Ends m (fun p' m' => p'.jump = j ∧
      (j.form = .relative → m'.memory.bytes j.source = 0xe9)) (fun _ => True) := by
  apply overwrite_rule fun _ => trivial
  intro _
  apply (Jump.place_opens j m).mono _ fun _ h => h
  exact fun _ _ opcode => ⟨rfl, opcode⟩

/-- A short patch stands: its jump is relative and begins with its opcode. -/
structure Opens (source : Nat) (m : Machine) (p : JumpPatch) : Prop where
  here : p.jump.source = source
  short : p.jump.form = .relative
  opcode : m.memory.bytes source = 0xe9

/-- A short patch that is pointed elsewhere stands, if it stays short. -/
theorem Opens.retarget (h : Opens source m p) (target : Nat) (limit : Option Nat) :
    (p.retarget target limit).Ends m
      (fun p' m' => p'.jump.form = .relative → Opens source m' p') (fun _ => True) := by
  obtain ⟨rfl, short, -⟩ := h
  have onto {m₁ : Machine} (j : Jump) (here : j.source = p.jump.source) :
      (p.overwrite j limit).Ends m₁
        (fun p' m' => p'.jump.form = .relative → Opens p.jump.source m' p') (fun _ => True) := by
    apply (overwrite_opens p j limit m₁).mono _ fun _ h => h
    rintro p' m' ⟨rfl, opcode⟩ form
    exact ⟨here, form, here ▸ opcode form⟩
  apply JumpPatch.retarget_rule fun _ => trivial
  · intro c form
    cases short.symm.trans form
  · exact fun _ _ => onto _ rfl
  · intro _ _
    apply (Jump.choose_watches p.jump.source target limit m).mono _ fun _ h => h
    exact fun j m₁ chosen => onto j chosen.1

/-- The runs of a patch that stays short. A relative jump was chosen and then written; the patch was
pointed elsewhere any number of times and stayed relative; and others were at work in between and
left the bytes of the jump. -/
inductive Short (source : Nat) (m₀ : Machine) : Machine → JumpPatch → Prop where
  | applied {target : Nat} {room : Option Nat} {j : Jump} {p : JumpPatch} {m₁ m₂ m : Machine}
      (chosen : (Jump.choose source target room).on m₀ = (.ok j, m₁)) (short : j.form = .relative)
      (done : (write j).on m₂ = (.ok p, m)) : Short source m₀ m p
  | retargeted {target : Nat} {limit : Option Nat} {p p' : JumpPatch} {m m' : Machine}
      (before : Short source m₀ m p) (done : (p.retarget target limit).on m = (.ok p', m'))
      (short : p'.jump.form = .relative) : Short source m₀ m' p'
  | others {p : JumpPatch} {m m' : Machine} (before : Short source m₀ m p)
      (kept : ∀ i < 5, m'.memory.bytes (source + i) = m.memory.bytes (source + i)) :
      Short source m₀ m' p

theorem Short.opens (run : Short source m₀ m p) :
    Opens source m p ∧ m₀.memory.bytes (source + 5) ≠ Jump.popRdi := by
  induction run with
  | applied chosen short done =>
    obtain ⟨rfl, watched⟩ := of_accepted (Jump.choose_watches _ _ _ _) chosen
    obtain ⟨rfl, opcode⟩ := of_accepted (write_opens _ _) done
    exact ⟨⟨rfl, short, opcode short⟩, watched short⟩
  | retargeted before done short ih =>
    exact ⟨of_accepted (ih.1.retarget _ _) done short, ih.2⟩
  | others before kept ih =>
    exact ⟨⟨ih.1.here, ih.1.short, (kept 0 (by decide)).trans ih.1.opcode⟩, ih.2⟩

/-- A relative jump that was chosen and written, and that was pointed elsewhere any number of times
and stayed relative, is taken for no stub where it begins, as long as the byte behind it is the one
that the choice has seen. Whatever bytes follow, and however few of them are looked at, nothing in
the table matches. -/
theorem a_short_jump_is_taken_for_no_stub (run : Short source m₀ m p)
    (behind : m.memory.bytes (source + 5) = m₀.memory.bytes (source + 5)) {data : List UInt8}
    (code : data.take 6 <+: m.memory.peek source 6) : Thunk.table.matchAt? data = none := by
  obtain ⟨opens, watched⟩ := run.opens
  have read (i : Nat) (low : i < 6) (b : UInt8) (there : data[i]? = some b) :
      b = m.memory.bytes (source + i) := by
    obtain ⟨more, whole⟩ := code
    have front : (data.take 6)[i]? = some b := by rwa [List.getElem?_take_of_lt low]
    have within := (List.getElem?_eq_some_iff.mp front).1
    rw [← List.getElem?_append_left within, whole, Memory.peek] at front
    simpa [low] using front.symm
  refine Thunk.table_of_jump (fun b first => ?_) fun pops => ?_
  · rw [List.head?_eq_getElem?] at first
    exact (read 0 (by decide) b first).trans opens.opcode
  · rw [← behind, ← read 5 (by decide) _ pops] at watched
    exact watched rfl

/-- A jump in the only page, pointed elsewhere once, with any bytes behind those that were seen. -/
theorem a_short_jump_in_one_page_is_no_stub : ∃ (m : Machine) (p : JumpPatch),
    p.jump = ⟨4096, 12288, .relative⟩ ∧
      ∀ rest, Thunk.table.matchAt? (m.memory.peek 4096 6 ++ rest) = none := by
  have chosen : (Jump.choose 4096 8192 none).on onePage =
      (.ok ⟨4096, 8192, .relative⟩, ((Jump.choose 4096 8192 none).on onePage).2) :=
    Prod.ext rfl rfl
  have written : (write ⟨4096, 8192, .relative⟩).on onePage =
      (.ok ⟨⟨4096, 8192, .relative⟩, [0, 0, 0, 0, 0], true⟩,
        ((write ⟨4096, 8192, .relative⟩).on onePage).2) := Prod.ext rfl rfl
  have pointed (m : Machine) (hm : m = ((write ⟨4096, 8192, .relative⟩).on onePage).2) :
      (retarget ⟨⟨4096, 8192, .relative⟩, [0, 0, 0, 0, 0], true⟩ 12288 none).on m =
        (.ok ⟨⟨4096, 12288, .relative⟩, [0, 0, 0, 0, 0], true⟩,
          ((retarget ⟨⟨4096, 8192, .relative⟩, [0, 0, 0, 0, 0], true⟩ 12288 none).on m).2) := by
    subst hm
    exact Prod.ext rfl rfl
  obtain ⟨m, run, same⟩ : ∃ m, Short 4096 onePage m
      ⟨⟨4096, 12288, .relative⟩, [0, 0, 0, 0, 0], true⟩ ∧
      m.memory.bytes 4101 = onePage.memory.bytes 4101 :=
    ⟨_, .retargeted (.applied chosen rfl written) (pointed _ rfl) rfl, rfl⟩
  refine ⟨m, ⟨⟨4096, 12288, .relative⟩, [0, 0, 0, 0, 0], true⟩, rfl, fun rest => ?_⟩
  exact a_short_jump_is_taken_for_no_stub run same (by simp [Memory.peek])

end JumpPatch

end Detouring
