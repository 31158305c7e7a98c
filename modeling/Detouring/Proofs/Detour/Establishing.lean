-- How a detour is established: both methods are kept in place, their bodies are found, and the
-- source is redirected. There is one rule for the run of each part, whatever one wants to know of it.
import Detouring.Detour.Basic
import Detouring.Proofs.Detour.Resolving
import Mathlib.Data.List.Count

namespace Detouring.World

open Op

variable {w w' : World} {d : MethodDetour} {beforePatch : Option Nat → Op World Unit}
  {F : World → Prop}

/-! ## Pins -/

theorem pinned_unpin (ms : List Method) (w : World) (m : Method) :
    (unpin ms w).pinned m = w.pinned m - ms.count m := by
  have pins : (ms.map Event.unpinned).count (.pinned m) = 0 := by
    refine List.count_eq_zero.mpr fun mem => ?_
    obtain ⟨_, _, same⟩ := List.mem_map.mp mem
    cases same
  have released : (ms.map Event.unpinned).count (.unpinned m) = ms.count m :=
    List.count_map_of_injective ms _ (fun _ _ same => by cases same; rfl) m
  unfold pinned unpin
  simp only [List.count_append, pins, released]
  omega

/-- Methods that are let go count as much as when they were pinned. -/
theorem pinned_unpin_congr {pins : List Method} (same : w'.pinned = w.pinned) :
    (unpin pins w').pinned = (unpin pins w).pinned := by
  funext m
  rw [pinned_unpin, pinned_unpin, same]

/-- What was pinned can be let go. If it is asked for, the method is pinned, once. -/
theorem pinIfNeeded_pinned (w : World) (m : Method) :
    (pinIfNeeded m).Ends w
      (fun pins w' => w.Told w' ∧ (unpin pins w').pinned = w.pinned ∧
        (w.asks RuntimeFlag.pinning = true → pins = [m])) (· = w) := by
  apply Ends.bind
  apply Ends.get
  split <;> rename_i asked
  · apply Ends.bind
    apply Ends.bind
    apply Ends.get
    dsimp only
    split
    · exact Ends.throw rfl
    · split
      · exact Ends.throw rfl
      · apply Ends.change
        apply Ends.pure
        refine ⟨⟨_, rfl⟩, funext fun x => ?_, fun _ => rfl⟩
        rw [pinned_unpin]
        unfold pinned
        simp only [List.count_append, List.count_singleton]
        by_cases same : m = x
        · subst same
          simp
          omega
        · simp [same]
  · apply Ends.pure
    refine ⟨.refl w, funext fun m => ?_, fun yes => (asked yes).elim⟩
    rw [pinned_unpin, List.count_nil]
    omega

/-- Methods that were pinned one after the other are let go at once. -/
theorem pinned_unpin_append {pins more : List Method} {w₁ w₂ : World}
    (first : (unpin pins w₁).pinned = w.pinned) (second : (unpin more w₂).pinned = w₁.pinned) :
    (unpin (pins ++ more) w₂).pinned = w.pinned := by
  rw [← first]
  funext m
  have second := congrFun second m
  rw [pinned_unpin] at second ⊢
  rw [pinned_unpin, ← second, List.count_append]
  omega

/-! ## Redirecting -/

/-- A plan is made, it is shown around, and it is carried out. A plan that was shown in vain is
discarded. -/
theorem redirect_rule {source target : Nat} {Q : Redirection → World → Prop}
    (h : (RedirectionPlan.make w.platform.architecture w.platform.settings source target none).Ends
      w.machine
      (fun plan m => (beforePatch plan.entry?).Ends { w with machine := m }
        (fun _ w₁ => (Redirection.ofPlan plan).Ends w₁.machine
          (fun r m => Q r { w₁ with machine := m }) fun m => F { w₁ with machine := m })
        fun w₁ => F { w₁ with machine := plan.discard w₁.machine })
      fun m => F { w with machine := m }) :
    (redirect source target beforePatch).Ends w Q F := by
  apply Ends.bind
  apply Ends.get
  apply Ends.bind
  apply onMachine_ends
  apply h.mono _ fun _ h => h
  intro plan m shown
  apply Ends.bind
  apply Ends.cleaning
  apply shown.mono _ fun _ h => h
  exact fun _ w₁ carried => onMachine_ends carried

/-! ## Establishing -/

/-- Where the code of both methods is. Finding it is what a detour does first. -/
def bodies (d : MethodDetour) : Op World (Nat × Nat) := do
  let _ ← pinIfNeeded d.source
  let _ ← pinIfNeeded d.target
  return (← resolve d.source, ← resolve d.target)

/-- Both methods of a detour are kept in place. -/
structure InPlace (d : MethodDetour) (w : World) (pins : List Method) (w' : World) : Prop where
  told : w.Told w'
  pinned : (unpin pins w').pinned = w.pinned
  pins : w.asks RuntimeFlag.pinning = true → pins = [d.source, d.target]
  bodies : (bodies d).on w =
    (do return (← resolve d.source, ← resolve d.target) : Op World (Nat × Nat)).on w'

/-- Nothing happens if the methods cannot be kept in place, and what was kept is let go if their
bodies cannot be found or the source cannot be redirected. -/
theorem establish_rule {Q : List Method × Redirection → World → Prop}
    (vain : ∀ w', w.Told w' → w'.pinned = w.pinned → F w')
    (h : ∀ pins w₁, InPlace d w pins w₁ →
      (resolve d.source).Ends w₁
        (fun source w₂ => (resolve d.target).Ends w₂
          (fun target w₃ => (redirect source target beforePatch).Ends w₃ (fun r => Q (pins, r))
            fun w' => F (unpin pins w'))
          fun w' => F (unpin pins w'))
        fun w' => F (unpin pins w')) :
    (establish d beforePatch).Ends w Q F := by
  apply Ends.bind
  apply (pinIfNeeded_pinned w d.source).traced.mono
  · rintro pins w₁ ⟨ran₁, told₁, pinned₁, both₁⟩
    apply Ends.bind
    apply Ends.cleaning
    apply (pinIfNeeded_pinned w₁ d.target).traced.mono
    · rintro more w₂ ⟨ran₂, told₂, pinned₂, both₂⟩
      have inPlace : InPlace d w (pins ++ more) w₂ := by
        refine ⟨told₁.trans told₂, pinned_unpin_append pinned₁ pinned₂, fun asked => ?_, ?_⟩
        · obtain ⟨_, rfl⟩ := told₁
          rw [both₁ asked, both₂ asked]
          rfl
        · rw [bodies, on_bind_ok ran₁, on_bind_ok ran₂]
      apply Ends.cleaning
      apply Ends.bind
      apply (h _ _ inPlace).mono _ fun _ left => left
      intro source w₃ found
      apply Ends.bind
      apply found.mono _ fun _ left => left
      intro target w₄ redirected
      apply Ends.bind
      exact redirected.mono (fun _ _ done => Ends.pure done) fun _ left => left
    · rintro _ rfl
      exact vain _ (told₁.trans ⟨_, rfl⟩) pinned₁
  · rintro _ rfl
    exact vain _ (.refl _) rfl

end Detouring.World
