-- What does not depend on the machine, on the records of detours, or on what onlookers are told is
-- no different after a notice of fresh code.
import Detouring.Proofs.Detour.Resolving

namespace Detouring.World

open Op

variable {α : Type} {w : World}

/-- The assertion has nothing to do with the machine and the records of detours, nor with events,
but for those that keep a method in place or let it go. -/
structure Aloof (I : World → Prop) : Prop where
  machine : ∀ w machine, I w → I { w with machine }
  detours : ∀ w detours, I w → I { w with detours }
  told : ∀ w e, (∀ m, e ≠ .pinned m ∧ e ≠ .unpinned m) → I w →
    I { w with events := w.events ++ [e] }

/-- Who is pinned, and what the runtime knows. -/
theorem aloof_pinned_runtime (w₀ : World) :
    Aloof fun w => w.pinned = w₀.pinned ∧ w.runtime = w₀.runtime :=
  ⟨fun _ _ h => h, fun _ _ h => h, fun _ _ other h => ⟨(pinned_tell other).trans h.1, h.2⟩⟩

namespace Aloof

variable {I : World → Prop}

theorem onMachine (h : Aloof I) (act : Op Machine α) : Keeps I (World.onMachine act) := by
  intro w i
  apply onMachine_ends
  exact Ends.of_on rfl (fun _ _ => h.machine w _ i) fun _ _ => h.machine w _ i

theorem report (h : Aloof I) (r : Report) : Keeps I (World.report r) :=
  h.onMachine (Op.change (·.report r))

theorem tell (h : Aloof I) (e : Event) (other : ∀ m, e ≠ .pinned m ∧ e ≠ .unpinned m) :
    Keeps I (World.tell e) := .change fun w i => h.told w e other i

theorem withDetour (id : Nat) {act : MethodDetour → Op World Unit} (h : ∀ d, Keeps I (act d)) :
    Keeps I (World.withDetour id act) := by
  refine Keeps.get.bind fun w => ?_
  split
  · exact h _
  · exact .pure ()

theorem setDetour (h : Aloof I) (d : MethodDetour) : Keeps I (World.setDetour d) :=
  .change fun w i => h.detours w _ i

theorem updateDetour (h : Aloof I) (id : Nat) (f : MethodDetour → MethodDetour) :
    Keeps I (World.updateDetour id f) := withDetour id fun d => h.setDetour (f d)

theorem canonicalize (h : Aloof I) (m : Method) : Keeps I (World.canonicalize m) := by
  refine Keeps.get.bind fun w => ?_
  dsimp only
  split
  · exact (h.tell (.identified m) fun _ => ⟨nofun, nofun⟩).bind fun _ => .pure _
  · exact .pure _

theorem disableInlining (h : Aloof I) (m : Method) : Keeps I (World.disableInlining m) := by
  refine Keeps.get.bind fun w => ?_
  split
  · exact .pure _
  · split
    · exact .throw _
    · refine (h.tell (.inliningDisabled m) fun _ => ⟨nofun, nofun⟩).bind fun _ => ?_
      split
      · exact .throw _
      · exact .pure _

theorem tellWatcher (h : Aloof I) (watcher : Watcher) : Keeps I (World.tellWatcher watcher) := by
  have relinks (key : ChainKey) : Keeps I (relinkTail key) := by
    refine Keeps.get.bind fun w => ?_
    split
    · exact .pure ()
    · split
      · exact .pure ()
      · split
        · exact .throw _
        · split
          · exact h.onMachine _
          · exact .pure ()
  unfold World.tellWatcher
  split
  · exact .pure ()
  · exact h.tell (.relocated _) fun _ => ⟨nofun, nofun⟩
  · refine (relinks _).outcome.bind fun answer => ?_
    split
    · exact .pure ()
    · exact h.report _

theorem followOrReport (h : Aloof I) (method : Method) (start size id : Nat) :
    Keeps I (World.followOrReport method start size id) := by
  have moves (d : MethodDetour) (r : Redirection) :
      Keeps I (followSource d r start size (World.tellWatcher d.watcher)) := by
    refine (h.onMachine _).bind fun _ => (h.setDetour _).bind fun _ => Keeps.get.bind fun w => ?_
    refine (h.onMachine _).bind fun fresh => (h.setDetour _).bind fun _ => ?_
    exact (h.tellWatcher _).bind fun _ => h.updateDetour _ _
  have turns (d : MethodDetour) (r : Redirection) : Keeps I (followTarget d r start) :=
    (h.onMachine _).bind fun _ => h.setDetour _
  have follows : Keeps I (follow (fun d => World.tellWatcher d.watcher) id method start size) := by
    refine withDetour id fun d => ?_
    split
    · exact .pure ()
    · split
      · exact .optional _ (moves d)
      · split
        · exact .optional _ (turns d)
        · exact .pure ()
  refine follows.outcome.bind fun answer => ?_
  split
  · exact .pure ()
  · exact withDetour id fun d => h.report _

theorem deliver (h : Aloof I) (c : CompiledMethod) : Keeps I (World.deliver c) := by
  refine Keeps.get.bind fun w => .forM _ fun factory => Keeps.get.bind fun w => ?_
  split
  · exact (h.canonicalize _).bind fun method => Keeps.get.bind fun w => .forM _ fun id =>
      h.followOrReport method c.start c.size id
  · exact .pure ()

end Aloof

end Detouring.World
