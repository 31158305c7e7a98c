-- Jumps that go through a pointer cell: as long as such a jump stands, the arena keeps the cell. The
-- one exception is meant: when fresh code of a method is announced, the earlier code counts as
-- discarded, and the jump that is left there may lose its cell.
import Detouring.Proofs.Detour.Layers
import Detouring.Proofs.Detour.Upholding

namespace Detouring

open Op Machine

/-- The arena has handed the block out: it lies on a page of the arena, all of it is mapped, and no
byte of it can be handed out again. -/
structure Machine.Live (m : Machine) (b : Block) : Prop where
  page : ∃ p ∈ m.arena.pages,
    p.number = b.page ∧ p.base ≤ b.base ∧ b.base + b.size ≤ p.base + p.size
  owned : ∀ x, b.Has x → m.Owned x

theorem Machine.Holds.live {m : Machine} {K : List Block} {b : Block} (h : m.Holds K)
    (mb : b ∈ K) : m.Live b := by
  obtain ⟨_, s, held⟩ := h.sound
  obtain ⟨p, mp, number, low, high, _⟩ := s.books.home b (held b mb)
  exact ⟨⟨p, mp, number, low, high⟩, fun x has => s.owned (held b mb) has⟩

/-- The jump still stands: its bytes are where they were written, all of them mapped, and it was not
taken off. -/
structure JumpPatch.Remains (p : JumpPatch) (memory : Memory) : Prop where
  bytes : p.jump.bytes = .ok (memory.peek p.jump.source p.jump.size)
  mapped : ∀ i < p.jump.size, memory.isMapped (p.jump.source + i) = true
  covers : memory.peek p.jump.source p.backup.length ≠ p.backup

theorem JumpPatch.Remains.not_gone {p : JumpPatch} {memory : Memory} (h : p.Remains memory) :
    ¬ p.Gone memory := by
  rintro (back | ⟨i, hi, unmapped⟩)
  · exact h.covers back
  · cases (h.mapped i hi).symm.trans unmapped

/-! ## Workshops -/

/-- Detours of methods, and redirections that belong to no detour. -/
structure Workshop where
  world : World
  loose : List Redirection := []

/-- The names under which fresh code is announced when the methods are compiled. -/
def World.fresh (w : World) (methods : List Method) : Set Method :=
  {name | ∃ m ∈ methods, ¬ w.runtime.Silent m ∧ name = w.nameOf m}

/-- The methods whose fresh code may be announced while the act is carried out. -/
def DetourAct.renews (w : World) : DetourAct → Set Method
  | create _ source target atOnce =>
    {m | atOnce = true ∧ m ∈ w.fresh [w.nameOf source, w.nameOf target]}
  | apply id => {m | ∃ d, w.detour? id = some d ∧ m ∈ w.fresh [d.source, d.target]}
  | undo _ | drop _ => ∅

namespace Workshop

open World

variable {y y' : Workshop} {w w' : World} {loose earlier later : List Redirection}
  {r : Redirection} {p q : JumpPatch} {S : Set Method} {c : Block}

/-- The jump was written by a detour that is applied, or by a redirection that was not undone. -/
def InForce (y : Workshop) (p : JumpPatch) : Prop :=
  (∃ d ∈ y.world.detours, ∃ r, d.redirection = some r ∧ r.patch = p) ∨
    ∃ r ∈ y.loose, r.patch = p ∧ p.applied = true

/-- The jump lies in code of one of the methods, where a detour had written it. -/
def Outdates (y : Workshop) (S : Set Method) (p : JumpPatch) : Prop :=
  ∃ d ∈ y.world.detours, d.source ∈ S ∧ ∃ r, d.redirection = some r ∧ r.source = p.jump.source

/-- What may happen in a workshop, with the methods whose fresh code may be announced meanwhile.
Others may do anything but give back what is not theirs. -/
inductive Step : Workshop → Set Method → Workshop → Prop where
  | act {w : World} {loose : List Redirection} (a : DetourAct) :
      Step ⟨w, loose⟩ (a.renews w) ⟨a.after w, loose⟩
  | notice {w : World} {loose : List Redirection} (n : CompiledMethod) :
      Step ⟨w, loose⟩ {w.nameOf n.method} ⟨((deliver n).on w).2, loose⟩
  | watch {w : World} {loose : List Redirection} (id : Nat) (watcher : Watcher)
      (unchained : ∀ k, watcher ≠ .chain k) :
      Step ⟨w, loose⟩ ∅ ⟨((watch id watcher).on w).2, loose⟩
  | redirect {w w' : World} {loose : List Redirection} (a : Architecture) (settings : Settings)
      (source target : Nat) (room : Option Nat) {result : Except Fault Redirection}
      (ran : (onMachine (Redirection.create a settings source target room)).on w = (result, w')) :
      Step ⟨w, loose⟩ ∅ ⟨w', result.toOption.toList ++ loose⟩
  | retarget {w w' : World} {earlier later : List Redirection} {r : Redirection} (target : Nat)
      {result : Except Fault Redirection}
      (ran : (onMachine (r.retarget target)).on w = (result, w')) :
      Step ⟨w, earlier ++ r :: later⟩ ∅ ⟨w', earlier ++ result.toOption.getD r :: later⟩
  | undo {w w' : World} {earlier later : List Redirection} {r : Redirection}
      {result : Except Fault Redirection} (ran : (onMachine r.undo).on w = (result, w')) :
      Step ⟨w, earlier ++ r :: later⟩ ∅ ⟨w', earlier ++ result.toOption.getD r :: later⟩
  | drop {w : World} {earlier later : List Redirection} {r : Redirection} :
      Step ⟨w, earlier ++ r :: later⟩ ∅ ⟨{ w with machine := r.drop w.machine }, earlier ++ later⟩
  | others {w w' : World} {loose : List Redirection} (detours : w'.detours = w.detours)
      (next : w'.nextDetour = w.nextDetour)
      (holds : ∀ K, w.machine.Holds K → w'.machine.Holds K) : Step ⟨w, loose⟩ ∅ ⟨w', loose⟩

/-- What steps come to, with the jumps that stand. A jump that was written stands until it is
written over, taken off, or not all mapped, or until fresh code of the method that it belongs to is
announced. -/
inductive Run : Workshop → Set JumpPatch → Prop where
  | start {w : World} (none : w.detours = []) (holds : w.machine.Holds []) : Run ⟨w, []⟩ ∅
  | step {y y' : Workshop} {standing : Set JumpPatch} {S : Set Method} (run : Run y standing)
      (step : Step y S y') :
      Run y' {p | y'.InForce p ∨ p ∈ standing ∧ p.Remains y'.world.machine.memory ∧
        ¬ y.Outdates S p}

/-! ## One step -/

/-- The detours and the loose redirections have their blocks. -/
structure Sound (y : Workshop) : Prop where
  stocked : y.world.Stocked (y.loose.flatMap Redirection.blocks)
  whole : ∀ r ∈ y.loose, r.patch.applied = true → r.patch.Whole

/-- Each jump through a cell is in force in its place, or gone, or left in earlier code. -/
def Upholds (y : Workshop) (S : Set Method) (y' : Workshop) : Prop :=
  ∀ p c, y.InForce p → p.jump.cell? = some c →
    y.Outdates S p ∨ (∃ q, y'.InForce q ∧ p.Stays q) ∨ p.Gone y'.world.machine.memory

/-- What becomes of the detours becomes of the workshop. -/
theorem upholds_of_world (u : w.Upholds S w') (n : w.Numbered)
    (kept : ∀ r ∈ loose, r.patch.applied = true →
      (∃ r' ∈ later, r.patch.Stays r'.patch ∧ r'.patch.applied = true) ∨
        r.patch.Gone w'.machine.memory) :
    Upholds ⟨w, loose⟩ S ⟨w', later⟩ := by
  rintro p c (⟨d, md, r, patched, rfl⟩ | ⟨r, mr, rfl, applied⟩) hc
  · have here := (redirection?_of_found (n.found_iff.mpr ⟨md, rfl⟩)).trans patched
    rcases u d.id r c here hc with ⟨source, ms, target, factory, names⟩ | ⟨r', there, stays⟩ | gone
    · unfold methods? at names
      rw [n.found_iff.mpr ⟨md, rfl⟩] at names
      obtain ⟨rfl, _⟩ := Prod.mk.inj (Option.some.inj names)
      exact Or.inl ⟨d, md, ms, r, patched, rfl⟩
    · obtain ⟨d', md', _, patched'⟩ := exists_of_redirection there
      exact Or.inr (Or.inl ⟨r'.patch, Or.inl ⟨d', md', r', patched', rfl⟩, stays⟩)
    · exact Or.inr (Or.inr gone)
  · refine Or.inr ((kept r mr applied).imp_left fun ⟨r', mr', stays, applied'⟩ => ?_)
    exact ⟨r'.patch, Or.inr ⟨r', mr', rfl, applied'⟩, stays⟩

/-- A loose redirection is among the others. -/
theorem perm_loose (earlier later : List Redirection) (r : Redirection) (K : List Block) :
    (K ++ (earlier ++ r :: later).flatMap Redirection.blocks).Perm
      (r.blocks ++ (K ++ (earlier ++ later).flatMap Redirection.blocks)) := by
  have middle : (earlier ++ r :: later).Perm (r :: (earlier ++ later)) := List.perm_middle
  have middle := middle.flatMap_right Redirection.blocks
  rw [List.flatMap_cons] at middle
  exact (middle.append_left K).trans (List.perm_append_comm_assoc _ _ _)

/-- Something was done with one loose redirection. -/
theorem Sound.changed {r' : Redirection} (s : Sound ⟨w, earlier ++ r :: later⟩)
    (b : w.Beside w')
    (held : w'.machine.Holds (r'.blocks ++ (w.holdings ++
      (earlier ++ later).flatMap Redirection.blocks)))
    (whole : r'.patch.applied = true → r'.patch.Whole)
    (kept : r.patch.applied = true → (r.patch.Stays r'.patch ∧ r'.patch.applied = true) ∨
      r.patch.Gone w'.machine.memory) :
    Sound ⟨w', earlier ++ r' :: later⟩ ∧
      Upholds ⟨w, earlier ++ r :: later⟩ S ⟨w', earlier ++ r' :: later⟩ := by
  have others {x r : Redirection} (mx : x ∈ earlier ++ r :: later) : x = r ∨
      (∀ r', x ∈ earlier ++ r' :: later) := by
    simp only [List.mem_append, List.mem_cons] at mx ⊢
    tauto
  refine ⟨⟨s.stocked.beside b (held.mono (perm_loose _ _ _ _).subperm), fun x mx applied => ?_⟩,
    upholds_of_world (Passes.of_beside b).upholds s.stocked.toNumbered fun x mx applied => ?_⟩
  · rcases others mx with rfl | old
    · exact whole applied
    · exact s.whole x (old r) applied
  · rcases others mx with rfl | old
    · refine (kept applied).imp_left fun ⟨stays, applied'⟩ => ⟨r', ?_, stays, applied'⟩
      exact List.mem_append_right _ List.mem_cons_self
    · exact Or.inl ⟨x, old r', .refl _, applied⟩

/-- Nothing was done with loose redirections. -/
theorem Sound.of_world (s : Sound ⟨w, loose⟩)
    (done : w'.Stocked (loose.flatMap Redirection.blocks) ∧ w.Upholds S w') :
    Sound ⟨w', loose⟩ ∧ Upholds ⟨w, loose⟩ S ⟨w', loose⟩ :=
  ⟨⟨done.1, s.whole⟩, upholds_of_world done.2 s.stocked.toNumbered fun r mr applied =>
    Or.inl ⟨r, mr, .refl _, applied⟩⟩

theorem Sound.act (s : Sound ⟨w, loose⟩) (a : DetourAct) :
    Sound ⟨a.after w, loose⟩ ∧ Upholds ⟨w, loose⟩ (a.renews w) ⟨a.after w, loose⟩ := by
  let P (w' : World) := w'.Stocked (loose.flatMap Redirection.blocks) ∧ w.Upholds (a.renews w) w'
  suffices ends : a.carryOut.Ends w (fun _ => P) P from s.of_world (left_of_ends ends)
  cases a with
  | create factory source target atOnce =>
    apply Ends.bind
    apply (createDetour_upholds (S := DetourAct.renews w (.create factory source target atOnce)) s.stocked
      factory source target atOnce fun now => ⟨fun tells => ⟨now, _, List.mem_cons_self, tells,
        rfl⟩, fun tells => ⟨now, _, by simp, tells, rfl⟩⟩).mono _ fun _ h => h
    exact fun _ _ done => Ends.pure done
  | apply id =>
    apply (applyDetour_upholds (S := DetourAct.renews w (.apply id)) s.stocked
      (fun d found => ⟨fun tells => ⟨d, found, _, List.mem_cons_self, tells, rfl⟩,
        fun tells => ⟨d, found, _, by simp, tells, rfl⟩⟩) fun _ => mild_pure ()).mono
    · exact fun _ _ done => done
    · exact fun _ h => ⟨h.stocked, h.passes.upholds⟩
  | undo id =>
    exact (undoDetour_lifts s.stocked id).mono (fun _ _ done => ⟨done.1, done.2.upholds⟩)
      fun _ done => ⟨done.1, done.2.upholds⟩
  | drop id =>
    exact (dropDetour_lifts s.stocked id).mono (fun _ _ done => ⟨done.1, done.2.upholds⟩)
      fun _ h => h

/-- A new redirection is one more loose one. -/
theorem Sound.redirect (s : Sound ⟨w, loose⟩) {a : Architecture} {settings : Settings}
    {source target : Nat} {room : Option Nat} {result : Except Fault Redirection}
    (ran : (onMachine (Redirection.create a settings source target room)).on w = (result, w')) :
    Sound ⟨w', result.toOption.toList ++ loose⟩ ∧
      Upholds ⟨w, loose⟩ S ⟨w', result.toOption.toList ++ loose⟩ := by
  have ends : (onMachine (Redirection.create a settings source target room)).Ends w
      (fun r w' => w.Beside w' ∧ r.patch.Whole ∧
        w'.machine.Holds (r.blocks ++ (w.holdings ++ loose.flatMap Redirection.blocks)))
      (fun w' => w.Beside w' ∧
        w'.machine.Holds (w.holdings ++ loose.flatMap Redirection.blocks)) := by
    apply onMachine_ends
    exact (Redirection.create_keeps s.stocked.holds a settings source target room).mono
      (fun _ _ done => ⟨w.beside_machine _, done⟩) fun _ held => ⟨w.beside_machine _, held⟩
  rcases ends.run with ⟨r, ok, b, whole, held⟩ | ⟨e, error, b, held⟩
  · rw [ran] at ok b held
    obtain rfl : result = .ok r := ok
    have grown : loose ⊆ r :: loose := List.subset_cons_self r loose
    refine ⟨⟨s.stocked.beside b (held.mono (perm_loose [] loose r _).subperm),
      fun x mx applied => ?_⟩, upholds_of_world (Passes.of_beside b).upholds s.stocked.toNumbered
        fun x mx applied => Or.inl ⟨x, grown mx, .refl _, applied⟩⟩
    rcases List.mem_cons.mp mx with rfl | mx
    · exact whole
    · exact s.whole x mx applied
  · rw [ran] at error b held
    obtain rfl : result = .error e := error
    exact s.of_world ⟨s.stocked.beside b held, (Passes.of_beside b).upholds⟩

/-- What changes a redirection changes it in its place. -/
theorem Sound.change (s : Sound ⟨w, earlier ++ r :: later⟩) {act : Op Machine Redirection}
    {result : Except Fault Redirection} (ran : (onMachine act).on w = (result, w'))
    (refused : r.patch.applied = false → act.Ends w.machine (fun _ _ => False) (· = w.machine))
    (changes : ∀ K, r.patch.Whole → w.machine.Holds (r.blocks ++ K) →
      act.Ends w.machine
        (fun r' m => m.Holds (r'.blocks ++ K) ∧ (r'.patch.applied = true → r'.patch.Whole) ∧
          ((r.patch.Stays r'.patch ∧ r'.patch.applied = true) ∨ r.patch.Gone m.memory))
        (fun m => m.Holds (r.blocks ++ K))) :
    Sound ⟨w', earlier ++ result.toOption.getD r :: later⟩ ∧
      Upholds ⟨w, earlier ++ r :: later⟩ S ⟨w', earlier ++ result.toOption.getD r :: later⟩ := by
  have held := s.stocked.holds.mono (perm_loose earlier later r w.holdings).symm.subperm
  have whole := s.whole r (List.mem_append_right _ List.mem_cons_self)
  have same (held' : w'.machine.Holds (r.blocks ++ (w.holdings ++
      (earlier ++ later).flatMap Redirection.blocks))) (b : w.Beside w') :=
    s.changed (S := S) b held' whole fun applied => Or.inl ⟨.refl _, applied⟩
  rcases applied : r.patch.applied with _ | _
  · have ends : (onMachine act).Ends w (fun _ _ => False) (· = w) := by
      apply onMachine_ends
      refine (refused applied).mono (fun _ _ h => h) fun m same => ?_
      rw [same]
    rcases ends.run with ⟨_, _, never⟩ | ⟨e, error, left⟩
    · exact never.elim
    · rw [ran] at error left
      obtain rfl : result = .error e := error
      obtain rfl : w' = w := left
      exact same held (Quiet.refl _).toBeside
  · have ends : (onMachine act).Ends w
        (fun r' w' => w.Beside w' ∧ w'.machine.Holds (r'.blocks ++ (w.holdings ++
            (earlier ++ later).flatMap Redirection.blocks)) ∧
          (r'.patch.applied = true → r'.patch.Whole) ∧
          ((r.patch.Stays r'.patch ∧ r'.patch.applied = true) ∨
            r.patch.Gone w'.machine.memory))
        (fun w' => w.Beside w' ∧ w'.machine.Holds (r.blocks ++ (w.holdings ++
          (earlier ++ later).flatMap Redirection.blocks))) := by
      apply onMachine_ends
      exact (changes _ (whole applied) held).mono (fun _ _ done => ⟨w.beside_machine _, done⟩)
        fun _ held => ⟨w.beside_machine _, held⟩
    rcases ends.run with ⟨r', ok, b, held', whole', kept⟩ | ⟨e, error, b, held'⟩
    · rw [ran] at ok b held' kept
      obtain rfl : result = .ok r' := ok
      exact s.changed b held' whole' fun _ => kept
    · rw [ran] at error b held'
      obtain rfl : result = .error e := error
      exact same held' b

theorem Sound.drop (s : Sound ⟨w, earlier ++ r :: later⟩) :
    Sound ⟨{ w with machine := r.drop w.machine }, earlier ++ later⟩ ∧
      Upholds ⟨w, earlier ++ r :: later⟩ S
        ⟨{ w with machine := r.drop w.machine }, earlier ++ later⟩ := by
  have held := s.stocked.holds.mono (perm_loose earlier later r w.holdings).symm.subperm
  have mem : r ∈ earlier ++ r :: later := List.mem_append_right _ List.mem_cons_self
  obtain ⟨held', gone⟩ := Redirection.drop_keeps held (s.whole r mem)
  have b := w.beside_machine (r.drop w.machine)
  have others {x : Redirection} : x ∈ earlier ++ r :: later ↔ x = r ∨ x ∈ earlier ++ later := by
    simp only [List.mem_append, List.mem_cons]
    tauto
  refine ⟨⟨s.stocked.beside b held', fun x mx => s.whole x (others.mpr (Or.inr mx))⟩,
    upholds_of_world (Passes.of_beside b).upholds s.stocked.toNumbered fun x mx applied => ?_⟩
  rcases others.mp mx with rfl | old
  · exact Or.inr (gone applied)
  · exact Or.inl ⟨x, old, .refl _, applied⟩

/-- Whatever happens, the blocks stay with those that have them, and the jumps through cells stay in
force, or they are gone, or they are left in earlier code. -/
theorem Sound.step (s : y.Sound) (step : Step y S y') : y'.Sound ∧ y.Upholds S y' := by
  cases step with
  | act a => exact s.act a
  | notice n =>
    have told := left_of_ends ((Heeds.refl (S := {_}) s.stocked).deliver (n := n)
      (E := _) (Set.mem_singleton _))
    exact s.of_world ⟨told.stocked, told.passes.upholds⟩
  | watch id watcher unchained =>
    have watched := left_of_ends (watch_heeds (S := ∅) s.stocked id unchained)
    exact s.of_world ⟨watched.stocked, watched.passes.upholds⟩
  | redirect a settings source target room ran => exact s.redirect ran
  | @retarget w w' earlier later r target result ran =>
    refine s.change ran (fun undone => ?_) fun K whole held => ?_
    · apply Ends.bind
      unfold JumpPatch.retarget
      rw [if_neg (by simp [undone])]
      exact Ends.throw rfl
    · exact (Redirection.retarget_keeps whole held target).mono
        (fun _ _ ⟨whole', stays, held'⟩ => ⟨held', fun _ => whole', Or.inl ⟨stays, whole'.applied⟩⟩)
        fun _ held' => held'
  | @undo w w' earlier later r result ran =>
    refine s.change ran (fun undone => ?_) fun K whole held => ?_
    · apply Ends.bind
      unfold JumpPatch.undo
      rw [if_neg (by simp [undone])]
      exact Ends.throw rfl
    · refine (Redirection.undo_keeps whole held).mono ?_ fun _ failed => failed.1
      rintro _ m ⟨rfl, held', gone⟩
      exact ⟨held', fun never => (by cases never), Or.inr gone⟩
  | drop => exact s.drop
  | @others w w' loose detours next holds =>
    have same : w'.redirection? = w.redirection? := by
      funext id
      unfold redirection? detour?
      rw [detours]
    refine s.of_world ⟨⟨⟨detours ▸ s.stocked.ids, ?_⟩, ?_, detours ▸ s.stocked.fit⟩, ?_⟩
    · rw [detours, next]
      exact s.stocked.numbered
    · unfold holdings
      rw [detours]
      exact holds _ s.stocked.holds
    · intro id r c there _
      exact Or.inr (Or.inl ⟨r, by rw [same]; exact there, .refl _⟩)

/-! ## All steps -/

/-- Each jump that stands and goes through a cell is in force in its place. -/
theorem Run.sound {standing : Set JumpPatch} (run : Run y standing) :
    y.Sound ∧ ∀ p ∈ standing, ∀ c, p.jump.cell? = some c → ∃ q, y.InForce q ∧ p.Stays q := by
  induction run with
  | start none holds =>
    refine ⟨⟨⟨⟨?_, ?_⟩, ?_, ?_⟩, fun _ mr => (by cases mr)⟩, fun _ mp => (by cases mp)⟩
    · rw [none]
      exact List.nodup_nil
    · rw [none]
      exact fun _ md => (by cases md)
    · unfold holdings
      rw [none]
      exact holds
    · rw [none]
      exact fun _ md => (by cases md)
  | @step y y' standing S _ step ih =>
    obtain ⟨s, upheld⟩ := ih
    obtain ⟨s', upholds⟩ := s.step step
    refine ⟨s', ?_⟩
    rintro p (inForce | ⟨mp, remains, current⟩) c hc
    · exact ⟨p, inForce, .refl p⟩
    · obtain ⟨q, inForce, stays⟩ := upheld p mp c hc
      rcases upholds q c inForce (stays.cell c hc).1 with ⟨d, md, ms, r, patched, here⟩ |
        ⟨q', inForce', stays'⟩ | gone
      · exact (current ⟨d, md, ms, r, patched, here.trans stays.source⟩).elim
      · exact ⟨q', inForce', stays.trans stays'⟩
      · exact (remains.not_gone (stays.gone hc gone)).elim

/-- The blocks of a jump that is in force are held. -/
theorem Sound.live (s : y.Sound) (inForce : y.InForce p) (hc : p.jump.cell? = some c) :
    y.world.machine.Live c := by
  have mc {r : Redirection} (hc : r.patch.jump.cell? = some c) : c ∈ r.blocks := by
    unfold Redirection.blocks
    rw [hc]
    exact List.mem_append_right _ (List.mem_singleton_self c)
  refine s.stocked.holds.live (List.mem_append.mpr ?_)
  rcases inForce with ⟨d, md, r, patched, rfl⟩ | ⟨r, mr, rfl, _⟩
  · refine Or.inl (List.mem_flatMap.mpr ⟨d, md, ?_⟩)
    rw [MethodDetour.blocks_of_patched patched]
    exact List.mem_append_left _ (mc hc)
  · exact Or.inr (List.mem_flatMap.mpr ⟨r, mr, mc hc⟩)

/-- A method, and another one that is out of reach of a short jump. -/
def outpost : World where
  machine := { arena := { source :=
    { memory := ((({} : Memory).map 0x10000 .readExecute none).fill 0x10000 64 0x90).map
        0x200000000000 .readExecute none, next := 0x20000 } } }
  platform :=
    { architecture := {}, system := {}, runtimeKind := .native, runtimeFlags := 0, settings := {},
      convention := .systemV }
  runtime :=
    { methods := [{ token := 1, entry := 0x10000 }, { token := 2, entry := 0x200000000000 }]
      subscribers := [0] }
  factories := [0]

/-- The one is detoured to the other, through a cell, -/
def connected : World := (DetourAct.create 0 (.token 1) (.token 2) true).after outpost

/-- then the other is compiled again, -/
def rerouted : World := ((deliver ⟨.token 2, 0x200000000100, 32⟩).on connected).2

/-- or the one itself is, to a place from where a short jump will do. -/
def resettled : World := ((deliver ⟨.token 1, 0x200000000200, 32⟩).on connected).2

/-- The jump of the detour, as it was written at first, -/
def link : JumpPatch := ⟨⟨0x10000, 0x200000000000, .throughCell ⟨0xf000, 8, false, 0⟩⟩,
  [0x90, 0x90, 0x90, 0x90, 0x90, 0x90], true⟩

/-- and its cell. -/
def linkCell : Block := ⟨0xf000, 8, false, 0⟩

theorem holds_outpost : outpost.machine.Holds [] := by
  have regular : outpost.machine.memory.Regular := ⟨by decide, by decide⟩
  exact ⟨List.nodup_nil, ∅, .fresh rfl regular (by decide), fun _ mb => (by cases mb)⟩

theorem exists_detour_connected : ∃ d ∈ connected.detours, ∃ r, d.redirection = some r ∧
    d.source = .token 1 ∧ r.patch = link := by
  have written : (connected.redirection? 0).map (fun r => (r.patch.jump, r.patch.backup,
      r.patch.applied)) = some (link.jump, link.backup, link.applied) := by decide +kernel
  have source : (connected.methods? 0).map Prod.fst = some (.token 1) := by decide +kernel
  obtain ⟨r, there, same⟩ := Option.map_eq_some_iff.mp written
  obtain ⟨d, found, patched⟩ := Option.bind_eq_some_iff.mp there
  refine ⟨d, List.mem_of_find?_eq_some found, r, patched, ?_, ?_⟩
  · unfold methods? at source
    rw [found] at source
    exact Option.some.inj source
  · obtain ⟨⟨jump, backup, applied⟩, alternate⟩ := r
    obtain ⟨rfl, rest⟩ := Prod.mk.inj same
    obtain ⟨rfl, rfl⟩ := Prod.mk.inj rest
    rfl

/-- The jump was written. -/
theorem inForce_link : InForce ⟨connected, []⟩ link := by
  obtain ⟨d, md, r, patched, _, same⟩ := exists_detour_connected
  exact Or.inl ⟨d, md, r, patched, same⟩

theorem run_connected : ∃ standing, Run ⟨connected, []⟩ standing ∧ link ∈ standing :=
  ⟨_, .step (.start rfl holds_outpost) (.act (.create 0 (.token 1) (.token 2) true)),
    Or.inl inForce_link⟩

theorem remains_link {memory : Memory}
    (code : memory.peek 0x10000 6 = [0xff, 0x25, 0xfa, 0xef, 0xff, 0xff])
    (mapped : ∀ i < 6, memory.isMapped (0x10000 + i) = true) : link.Remains memory := by
  refine ⟨?_, mapped, ?_⟩
  · rw [show memory.peek link.jump.source link.jump.size = _ from code]
    rfl
  · rw [show memory.peek link.jump.source link.backup.length = _ from code]
    decide

end Workshop

end Detouring
