-- Where the search for the code of a method may lead. A search may compile the method, which changes
-- the runtime, and so the next search may find other code. A method lies inland if no search ever
-- finds code at the very end of all addresses.
import Detouring.Proofs.Detour.Resolving
import Detouring.Proofs.Memory.Holdings

namespace Detouring.World

open Op Machine

variable {w w' w'' : World} {m : Method} {E : World → Prop}

/-! ## Standing aside -/

/-- The runtime is as it was, and so is the code of others. -/
structure Aside (w w' : World) : Prop where
  runtime : w'.runtime = w.runtime
  platform : w'.platform = w.platform
  foreign : ∀ x, w.machine.Foreign x → w'.machine.Foreign x
  code : ∀ x, w.machine.Foreign x → w'.machine.memory.bytes x = w.machine.memory.bytes x
  guards : ∀ x, w.machine.Foreign x →
    w'.machine.memory.protectionAt? x = w.machine.memory.protectionAt? x

namespace Aside

theorem refl (w : World) : w.Aside w := ⟨rfl, rfl, fun _ f => f, fun _ _ => rfl, fun _ _ => rfl⟩

theorem trans (h : w.Aside w') (h' : w'.Aside w'') : w.Aside w'' :=
  ⟨h'.runtime.trans h.runtime, h'.platform.trans h.platform,
    fun x f => h'.foreign x (h.foreign x f),
    fun x f => (h'.code x (h.foreign x f)).trans (h.code x f),
    fun x f => (h'.guards x (h.foreign x f)).trans (h.guards x f)⟩

/-- Nothing is done to the machine. -/
theorem still (runtime : w'.runtime = w.runtime) (platform : w'.platform = w.platform)
    (machine : w'.machine = w.machine) : w.Aside w' :=
  ⟨runtime, platform, fun _ f => machine ▸ f, fun _ _ => by rw [machine],
    fun _ _ => by rw [machine]⟩

end Aside

/-- Memory is taken that nobody had. -/
theorem aside_gains {K new : List Block} {machine : Machine}
    (gains : Gains K new w.machine machine) : w.Aside { w with machine } :=
  ⟨rfl, rfl, gains.foreign, gains.code, gains.guards⟩

theorem Told.aside (h : w.Told w') : w.Aside w' := by
  obtain ⟨events, rfl⟩ := h
  exact ⟨rfl, rfl, fun _ f => f, fun _ _ => rfl, fun _ _ => rfl⟩

/-- What is done to the code of others while nothing moves. -/
theorem Quiet.code (q : w.Quiet w') {x : Nat} (f : w.machine.Foreign x) :
    w'.machine.Foreign x ∧ w'.machine.memory.bytes x = w.machine.memory.bytes x :=
  have e : w.machine.Extends w'.machine := .of_arena q.arena
  ⟨e.foreign x f, e.bytes x f.1⟩

theorem Quiet.guards (q : w.Quiet w') {x : Nat} (f : w.machine.Foreign x) :
    w'.machine.memory.protectionAt? x = w.machine.memory.protectionAt? x :=
  (Extends.of_arena q.arena).guards x f.1

/-! ## Searching -/

/-- A world that is come to by searching for the code of the method again and again, and by what
others do aside. -/
inductive Seeks (m : Method) (w : World) : World → Prop where
  | aside {w' : World} (aside : w.Aside w') : Seeks m w w'
  | found {w₁ w' : World} (before : Seeks m w w₁) (still : w₁.Still m)
      (aside : ((resolve m).on w₁).2.Aside w') : Seeks m w w'

/-- No search for the code of the method leads to the end of all addresses. -/
def Inland (m : Method) (w : World) : Prop :=
  ∀ w₁ body, w.Seeks m w₁ → w₁.Still m → ((resolve m).on w₁).1 = .ok body → body + 6 < wordCount

namespace Seeks

theorem refl (w : World) : w.Seeks m w := .aside (.refl w)

theorem trans (h : w.Seeks m w') (h' : w'.Seeks m w'') : w.Seeks m w'' := by
  induction h' with
  | aside beside =>
    cases h with
    | aside first => exact .aside (first.trans beside)
    | found before still first => exact .found before still (first.trans beside)
  | found _ still beside ih => exact .found ih still beside

/-- The code of others is left alone. -/
theorem foreign (h : w.Seeks m w') {x : Nat} (f : w.machine.Foreign x) :
    w'.machine.Foreign x ∧ w'.machine.memory.bytes x = w.machine.memory.bytes x := by
  induction h with
  | aside beside => exact ⟨beside.foreign x f, beside.code x f⟩
  | @found w₁ w' _ still beside ih =>
    obtain ⟨f₁, same₁⟩ := ih
    have quiet : w₁.Quiet ((resolve m).on w₁).2 := left_of_ends (resolve_ends still)
    obtain ⟨f₂, same₂⟩ := quiet.code f₁
    exact ⟨beside.foreign x f₂, (beside.code x f₂).trans (same₂.trans same₁)⟩

/-- So are the protections of its pages. -/
theorem guards (h : w.Seeks m w') {x : Nat} (f : w.machine.Foreign x) :
    w'.machine.memory.protectionAt? x = w.machine.memory.protectionAt? x := by
  induction h with
  | aside beside => exact beside.guards x f
  | @found w₁ w' sought still beside ih =>
    have quiet : w₁.Quiet ((resolve m).on w₁).2 := left_of_ends (resolve_ends still)
    have f₁ := (sought.foreign f).1
    exact (beside.guards x (quiet.code f₁).1).trans ((quiet.guards f₁).trans ih)

end Seeks

namespace Inland

theorem seeks (inland : w.Inland m) (h : w.Seeks m w') : w'.Inland m :=
  fun w₁ body later => inland w₁ body (h.trans later)

theorem aside (inland : w.Inland m) (h : w.Aside w') : w'.Inland m := inland.seeks (.aside h)

/-- One more search. -/
theorem resolve (inland : w.Inland m) (still : w.Still m) :
    (World.resolve m).Ends w
      (fun body w' => (w.Quiet w' ∧ w.Seeks m w') ∧ body + 6 < wordCount)
      (fun w' => w.Quiet w' ∧ w.Seeks m w') := by
  have sought : w.Seeks m ((World.resolve m).on w).2 := .found (.refl w) still (.refl _)
  refine ((resolve_ends still).and (Ends.of_left sought)).traced.mono ?_ fun _ left => left
  rintro body w' ⟨run, kept⟩
  exact ⟨kept, inland w body (.refl w) still (by rw [run])⟩

end Inland

/-- A function has its code where its name says. -/
theorem inland_function {a : Nat} (low : a + 6 < wordCount) (w : World) : w.Inland (.function a) := by
  intro w₁ body _ _ ok
  have here : ((World.resolve (.function a)).on w₁).1 = .ok a := rfl
  obtain rfl := Except.ok.inj (here.symm.trans ok)
  exact low

end Detouring.World
