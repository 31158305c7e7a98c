-- What an operation comes to. It ends well with a result, or it fails, and either way it leaves
-- a state. There is one rule for each way to build an operation from smaller ones.
import Detouring.Operation

namespace Detouring.Op

variable {σ τ α β : Type} {act : Op σ α} {s : σ} {P Q : α → σ → Prop} {E F : σ → Prop}

/-- What is done first leaves the rest to do. -/
theorem on_bind_ok {next : α → Op σ β} {s' : σ} {a : α} (done : act.on s = (.ok a, s')) :
    (act >>= next).on s = (next a).on s' := by
  rw [on_bind, done]

/-- From `s`, the operation gives a result and a state of which `Q` holds, or it fails and leaves
a state of which `E` holds. Looking into it would run the operation. -/
@[irreducible]
def Ends (act : Op σ α) (s : σ) (Q : α → σ → Prop) (E : σ → Prop) : Prop :=
  match act.on s with
  | (.ok a, s') => Q a s'
  | (.error _, s') => E s'

/-- What is known of every accepted call is known of this one. -/
theorem of_accepted {s' : σ} {a : α} (ends : act.Ends s Q E) (accepted : act.on s = (.ok a, s')) :
    Q a s' := by
  unfold Ends at ends
  rw [accepted] at ends
  exact ends

/-- And what is known of every refusal is known of this one. -/
theorem of_refused {s' : σ} {e : Fault} (ends : act.Ends s Q E)
    (refused : act.on s = (.error e, s')) : E s' := by
  unfold Ends at ends
  rw [refused] at ends
  exact ends

namespace Ends

theorem of_on {r : Except Fault α} {s' : σ} (run : act.on s = (r, s'))
    (ok : ∀ a, r = .ok a → Q a s') (error : ∀ e, r = .error e → E s') : act.Ends s Q E := by
  unfold Ends
  rw [run]
  rcases r with e | a
  · exact error e rfl
  · exact ok a rfl

/-- What holds at the end holds of the run. -/
theorem run (h : act.Ends s Q E) :
    (∃ a, (act.on s).1 = .ok a ∧ Q a (act.on s).2) ∨
      ∃ e, (act.on s).1 = .error e ∧ E (act.on s).2 := by
  unfold Ends at h
  rcases done : act.on s with ⟨e | a, s'⟩ <;> rw [done] at h
  · exact Or.inr ⟨e, rfl, h⟩
  · exact Or.inl ⟨a, rfl, h⟩

theorem mono (h : act.Ends s P F) (ok : ∀ a s', P a s' → Q a s') (error : ∀ s', F s' → E s') :
    act.Ends s Q E := by
  unfold Ends at h ⊢
  rcases done : act.on s with ⟨e | a, s'⟩ <;> rw [done] at h
  · exact error s' h
  · exact ok a s' h

/-- Operations that run alike end alike. -/
theorem congr {act' : Op σ α} (same : act.on s = act'.on s) (h : act'.Ends s Q E) :
    act.Ends s Q E := by
  unfold Ends at h ⊢
  rw [same]
  exact h

/-- What is known of the end may be known of the run that led there. -/
theorem traced (h : act.Ends s Q E) :
    act.Ends s (fun a s' => act.on s = (.ok a, s') ∧ Q a s') E := by
  unfold Ends at h ⊢
  rcases done : act.on s with ⟨e | a, s'⟩ <;> rw [done] at h
  · exact h
  · exact ⟨rfl, h⟩

/-- What is known of the end from two sides. -/
theorem and {P' : α → σ → Prop} {F' : σ → Prop} (h : act.Ends s P F) (h' : act.Ends s P' F') :
    act.Ends s (fun a s' => P a s' ∧ P' a s') (fun s' => F s' ∧ F' s') := by
  unfold Ends at h h' ⊢
  rcases done : act.on s with ⟨e | a, s'⟩ <;> rw [done] at h h' <;> exact ⟨h, h'⟩

/-- What holds of the state that is left holds however the operation ends. -/
theorem of_left {P : σ → Prop} (h : P (act.on s).2) : act.Ends s (fun _ => P) P :=
  of_on rfl (fun _ _ => h) fun _ _ => h

/-! ## Plain operations -/

theorem pure {a : α} (h : Q a s) : (Pure.pure a : Op σ α).Ends s Q E := by
  unfold Ends
  exact h

theorem throw {e : Fault} (h : E s) : (MonadExcept.throw e : Op σ α).Ends s Q E := by
  unfold Ends
  exact h

theorem change {f : σ → σ} {Q : Unit → σ → Prop} (h : Q () (f s)) :
    (Op.change f).Ends s Q E := by
  unfold Ends
  exact h

theorem get {Q : σ → σ → Prop} (h : Q s s) : (MonadState.get : Op σ σ).Ends s Q E := by
  unfold Ends
  exact h

theorem lift {r : Except Fault α} (ok : ∀ a, r = .ok a → Q a s) (error : ∀ e, r = .error e → E s) :
    (liftM r : Op σ α).Ends s Q E :=
  of_on (rfl : (liftM r : Op σ α).on s = (r, s)) ok error

/-! ## Compound operations -/

theorem bind {next : α → Op σ β} {Q : β → σ → Prop}
    (h : act.Ends s (fun a s' => (next a).Ends s' Q E) E) : (act >>= next).Ends s Q E := by
  unfold Ends at h ⊢
  rw [on_bind]
  rcases done : act.on s with ⟨e | a, s'⟩ <;> rw [done] at h <;> exact h

theorem map {f : α → β} {Q : β → σ → Prop} (h : act.Ends s (fun a s' => Q (f a) s') E) :
    (f <$> act).Ends s Q E := by
  unfold Ends at h ⊢
  rw [on_map]
  rcases done : act.on s with ⟨e | a, s'⟩ <;> rw [done] at h <;> exact h

theorem outcome {Q : Except Fault α → σ → Prop}
    (h : act.Ends s (fun a s' => Q (.ok a) s') (fun s' => ∀ e, Q (.error e) s')) :
    act.outcome.Ends s Q E := by
  unfold Ends at h ⊢
  simp only [Op.outcome, on_of]
  rcases done : act.on s with ⟨e | a, s'⟩ <;> rw [done] at h
  · exact h e
  · exact h

theorem cleaning {cleanup : σ → σ} (h : act.Ends s Q (fun s' => E (cleanup s'))) :
    (act.cleaning cleanup).Ends s Q E := by
  unfold Ends at h ⊢
  simp only [Op.cleaning, on_of]
  rcases done : act.on s with ⟨e | a, s'⟩ <;> rw [done] at h <;> exact h

theorem within {part : σ → τ} {update : σ → τ → σ} {act : Op τ α}
    (h : act.Ends (part s) (fun a t => Q a (update s t)) (fun t => E (update s t))) :
    (act.within part update).Ends s Q E := by
  unfold Ends at h ⊢
  simp only [Op.within, on_of]
  rcases done : act.on (part s) with ⟨e | a, t⟩ <;> rw [done] at h <;> exact h

/-- An operation for each thing of a list keeps what each one keeps. -/
theorem forM {act : α → Op σ Unit} {l : List α} {I : σ → Prop} (start : I s)
    (step : ∀ a ∈ l, ∀ s, I s → (act a).Ends s (fun _ => I) E) :
    (l.forM act).Ends s (fun _ => I) E := by
  induction l generalizing s with
  | nil => exact pure start
  | cons a rest ih =>
    apply bind
    apply (step a List.mem_cons_self s start).mono _ fun _ h => h
    intro _ s' kept
    exact ih kept fun b mb => step b (List.mem_cons_of_mem a mb)

/-- If one thing of the list reaches `J`, and the others keep it, the whole list reaches `J`. -/
theorem forM_reaches {act : α → Op σ Unit} {l : List α} {I J : σ → Prop} {a : α} (mem : a ∈ l)
    (start : I s) (keep : ∀ b ∈ l, ∀ s, I s → (act b).Ends s (fun _ => I) E)
    (stay : ∀ b ∈ l, ∀ s, J s → (act b).Ends s (fun _ => J) E)
    (reach : ∀ s, I s → (act a).Ends s (fun _ => J) E) : (l.forM act).Ends s (fun _ => J) E := by
  induction l generalizing s with
  | nil => cases mem
  | cons b rest ih =>
    apply bind
    by_cases it : a = b
    · subst it
      apply (reach s start).mono _ fun _ h => h
      rintro ⟨⟩ s' there
      exact forM there fun c mc => stay c (List.mem_cons_of_mem a mc)
    · apply (keep b List.mem_cons_self s start).mono _ fun _ h => h
      rintro ⟨⟩ s' kept
      exact ih ((List.mem_cons.mp mem).resolve_left it) kept
        (fun c mc => keep c (List.mem_cons_of_mem b mc))
        fun c mc => stay c (List.mem_cons_of_mem b mc)

end Ends

/-! ## What operations keep -/

/-- The operation keeps `I`, whatever comes of it. -/
def Keeps (I : σ → Prop) (act : Op σ α) : Prop := ∀ s, I s → act.Ends s (fun _ => I) I

namespace Keeps

variable {I : σ → Prop}

theorem pure (a : α) : Keeps I (Pure.pure a : Op σ α) := fun _ i => Ends.pure i

theorem throw (e : Fault) : Keeps I (MonadExcept.throw e : Op σ α) := fun _ i => Ends.throw i

theorem get : Keeps I (MonadState.get : Op σ σ) := fun _ i => Ends.get i

theorem lift (r : Except Fault α) : Keeps I (liftM r : Op σ α) :=
  fun _ i => Ends.lift (fun _ _ => i) fun _ _ => i

theorem change {f : σ → σ} (h : ∀ s, I s → I (f s)) : Keeps I (Op.change f) :=
  fun s i => Ends.change (h s i)

theorem bind {next : α → Op σ β} (h : Keeps I act) (h' : ∀ a, Keeps I (next a)) :
    Keeps I (act >>= next) :=
  fun s i => Ends.bind ((h s i).mono (fun a s' i' => h' a s' i') fun _ i' => i')

theorem outcome (h : Keeps I act) : Keeps I act.outcome :=
  fun s i => Ends.outcome ((h s i).mono (fun _ _ i' => i') fun _ i' _ => i')

theorem cleaning {cleanup : σ → σ} (clean : ∀ s, I s → I (cleanup s)) (h : Keeps I act) :
    Keeps I (act.cleaning cleanup) :=
  fun s i => Ends.cleaning ((h s i).mono (fun _ _ i' => i') fun s' i' => clean s' i')

theorem forM {act : β → Op σ Unit} (l : List β) (h : ∀ b, Keeps I (act b)) :
    Keeps I (l.forM act) :=
  fun _ i => Ends.forM i fun b _ s i' => h b s i'

theorem optional {act : β → Op σ Unit} (o : Option β) (h : ∀ b, Keeps I (act b)) :
    Keeps I (o.forM act) := by
  cases o with
  | none => exact pure ()
  | some b => exact h b

end Keeps

/-- What holds however an operation ends holds of the state that it leaves. -/
theorem left_of_ends {P : σ → Prop} (h : act.Ends s (fun _ => P) P) : P (act.on s).2 := by
  rcases h.run with ⟨_, _, left⟩ | ⟨_, _, left⟩ <;> exact left

end Detouring.Op
