-- Finding the body of a method may compile it, which tells everybody and changes the runtime.
-- Methods keep their names through all of this, and detours that are not applied stay as they
-- are, and the code with them.
import Detouring.Detour.Body
import Detouring.Proofs.Operation

namespace Detouring

/-- Fresh code is announced. -/
def Compilation.announces : Compilation → Bool
  | .succeeds _ code => code.isSome
  | .fails _ => false

/-! ## Names -/

namespace Runtime

theorem method?_setMethod (r : Runtime) (m : ManagedMethod) (t : Nat) :
    (r.setMethod m).method? t = if t = m.token then some m else r.method? t := by
  have replaced (l : List ManagedMethod) :
      (l.map fun x => if x.token = m.token then m else x).find? (·.token == t) =
        if t = m.token then (l.find? (·.token == t)).map fun _ => m
        else l.find? (·.token == t) := by
    induction l with
    | nil => simp
    | cons x rest ih =>
      by_cases it : t = m.token
      · subst it
        by_cases known : x.token = m.token <;> simp_all
      · by_cases known : x.token = m.token <;> simp_all [List.find?_cons, Ne.symm it]
  unfold setMethod
  split <;> rename_i there
  · unfold method?
    rw [replaced]
    by_cases it : t = m.token
    · subst it
      obtain ⟨x, found⟩ := Option.isSome_iff_exists.mp there
      unfold method? at found
      simp [found]
    · simp [it]
  · unfold method? at there ⊢
    have none : r.methods.find? (·.token == m.token) = none := by simpa using there
    rw [List.find?_append]
    by_cases it : t = m.token
    · subst it
      simp [none]
    · simp [it, Ne.symm it]

/-- A method that is known by the same identity has the same name. -/
theorem identify_setMethod {r : Runtime} {m : ManagedMethod}
    (same : m.identity = (r.method? m.token).bind ManagedMethod.identity) (x : Method) :
    (r.setMethod m).identify x = r.identify x := by
  have support : (r.setMethod m).support = r.support := by
    unfold setMethod
    split <;> rfl
  have known (t : Nat) : ((r.setMethod m).method? t).bind ManagedMethod.identity =
      (r.method? t).bind ManagedMethod.identity := by
    rw [method?_setMethod]
    split
    · rename_i it
      rw [it, ← same]
      rfl
    · rfl
  unfold identify lookup?
  rw [support]
  rcases x.canonical with a | t | ⟨owner, inner⟩
  · rfl
  · simp only [known]
  · rfl

theorem subscribers_setMethod (r : Runtime) (m : ManagedMethod) :
    (r.setMethod m).subscribers = r.subscribers := by
  unfold setMethod
  split <;> rfl

/-- The runtime has no fresh code of the method to announce. -/
def Silent (r : Runtime) (m : Method) : Prop :=
  ∀ x, r.lookup? m = some x → ∀ c ∈ x.compilations, c.announces = false

/-- Compiling the method may bring a notice of this code. -/
def Announces (r : Runtime) (m : Method) (start size : Nat) : Prop :=
  ∃ x, r.lookup? m = some x ∧ ∃ entry, .succeeds entry (some (start, size)) ∈ x.compilations

theorem Announces.not_silent {r : Runtime} {m : Method} {start size : Nat}
    (h : r.Announces m start size) : ¬ r.Silent m := by
  obtain ⟨x, known, entry, mc⟩ := h
  intro silent
  cases silent x known _ mc

/-- A method with no more compilations than before has no more to come. -/
theorem exists_of_lookup_setMethod {r : Runtime} {m x : ManagedMethod}
    (fewer : ∀ c ∈ m.compilations, ∃ x, r.method? m.token = some x ∧ c ∈ x.compilations)
    {name : Method} (known : (r.setMethod m).lookup? name = some x) {c : Compilation}
    (mc : c ∈ x.compilations) : ∃ y, r.lookup? name = some y ∧ c ∈ y.compilations := by
  unfold lookup? at known ⊢
  split at known
  · rename_i t token
    rw [method?_setMethod] at known
    split at known
    · rename_i it
      obtain rfl := Option.some.inj known
      exact it ▸ fewer c mc
    · exact ⟨x, known, mc⟩
  · cases known

theorem Silent.setMethod {r : Runtime} {m : ManagedMethod}
    (fewer : ∀ c ∈ m.compilations, ∃ x, r.method? m.token = some x ∧ c ∈ x.compilations)
    {name : Method} (h : r.Silent name) : (r.setMethod m).Silent name := by
  intro x known c mc
  obtain ⟨y, there, mc⟩ := exists_of_lookup_setMethod fewer known mc
  exact h y there c mc

theorem Announces.of_setMethod {r : Runtime} {m : ManagedMethod}
    (fewer : ∀ c ∈ m.compilations, ∃ x, r.method? m.token = some x ∧ c ∈ x.compilations)
    {name : Method} {start size : Nat} (h : (r.setMethod m).Announces name start size) :
    r.Announces name start size := by
  obtain ⟨x, known, entry, mc⟩ := h
  obtain ⟨y, there, mc⟩ := exists_of_lookup_setMethod fewer known mc
  exact ⟨y, there, entry, mc⟩

theorem identify_setEntry (r : Runtime) (token entry : Nat) (x : Method) :
    (r.setEntry token entry).identify x = r.identify x := by
  refine identify_setMethod ?_ x
  rcases known : r.method? token with _ | m
  · simp [known]
  · have it : m.token = token := by simpa using List.find?_some known
    simp [it, known]

/-- Another entry of a method does not bring more compilations. -/
theorem exists_of_mem_setEntry {r : Runtime} {token entry : Nat} {c : Compilation}
    (mc : c ∈ ((r.method? token).getD { token, entry }).compilations) :
    ∃ x, r.method? ((r.method? token).getD { token, entry }).token = some x ∧
      c ∈ x.compilations := by
  rcases known : r.method? token with _ | m
  · rw [known] at mc
    cases mc
  · have it : m.token = token := by simpa using List.find?_some known
    rw [known] at mc
    exact ⟨m, by simp [it, known], mc⟩

theorem Silent.setEntry {r : Runtime} {name : Method} (h : r.Silent name) (token entry : Nat) :
    (r.setEntry token entry).Silent name := by
  refine h.setMethod fun c mc => ?_
  exact exists_of_mem_setEntry mc

theorem Announces.of_setEntry {r : Runtime} {name : Method} {token entry start size : Nat}
    (h : (r.setEntry token entry).Announces name start size) : r.Announces name start size := by
  refine Announces.of_setMethod (fun c mc => ?_) h
  exact exists_of_mem_setEntry mc

end Runtime

namespace World

open Op

variable {w w' w'' : World} {E : World → Prop}

/-- The name of a method that has identity. -/
def nameOf (w : World) (m : Method) : Method :=
  if w.asks RuntimeFlag.identification then w.runtime.identify m else m.canonical

/-- A name that has identity is no wrapped one. -/
theorem canonical_of_name {m : Method} (name : w.nameOf m = m) : m.canonical = m := by
  unfold nameOf at name
  split at name
  · unfold Runtime.identify at name
    split at name
    · split at name
      · rw [← name]
        rfl
      · exact name
    · exact name
  · exact name

theorem nameOf_function (w : World) (a : Nat) : w.nameOf (.function a) = .function a := by
  unfold nameOf
  split <;> rfl

/-- Owners around a method do not change its name. -/
theorem nameOf_canonical (w : World) (m : Method) : w.nameOf m.canonical = w.nameOf m := by
  unfold nameOf Runtime.identify Runtime.lookup?
  rw [m.canonical_canonical]

/-! ## Doing nothing to detours and hooks -/

/-- The handles of hooks, the factories and the names are as they were. -/
structure Along (w w' : World) : Prop where
  hooks : w'.hooks = w.hooks
  factories : w'.factories = w.factories
  names : ∀ m, w'.nameOf m = w.nameOf m

/-- And so are the platform, the detours, the managers and who is told about fresh code. No more of
it is to be announced. -/
structure Beside (w w' : World) : Prop extends Along w w' where
  subscribers : w'.runtime.subscribers = w.runtime.subscribers
  silent : ∀ m, w.runtime.Silent m → w'.runtime.Silent m
  platform : w'.platform = w.platform
  detours : w'.detours = w.detours
  nextDetour : w'.nextDetour = w.nextDetour
  managers : w'.managers = w.managers
  manager : w'.manager = w.manager

/-- And so are the memory and the arena. -/
structure Quiet (w w' : World) : Prop extends Beside w w' where
  arena : w'.machine.arena = w.machine.arena

/-- How often the method was pinned and has not been let go since. -/
def pinned (w : World) (m : Method) : Int :=
  w.events.count (.pinned m) - w.events.count (.unpinned m)

/-- And no method was pinned or let go, and no more code may be announced than before. -/
structure Calm (w w' : World) : Prop extends Quiet w w' where
  pinned : w'.pinned = w.pinned
  announces : ∀ m start size, w'.runtime.Announces m start size →
    w.runtime.Announces m start size

theorem Along.refl (w : World) : w.Along w := ⟨rfl, rfl, fun _ => rfl⟩

theorem Along.trans (h : w.Along w') (h' : w'.Along w'') : w.Along w'' :=
  ⟨h'.hooks.trans h.hooks, h'.factories.trans h.factories,
    fun m => (h'.names m).trans (h.names m)⟩

theorem Beside.trans (h : w.Beside w') (h' : w'.Beside w'') : w.Beside w'' :=
  ⟨h.toAlong.trans h'.toAlong, h'.subscribers.trans h.subscribers,
    fun m silent => h'.silent m (h.silent m silent), h'.platform.trans h.platform,
    h'.detours.trans h.detours, h'.nextDetour.trans h.nextDetour, h'.managers.trans h.managers,
    h'.manager.trans h.manager⟩

theorem Quiet.refl (w : World) : w.Quiet w :=
  ⟨⟨.refl w, rfl, fun _ h => h, rfl, rfl, rfl, rfl, rfl⟩, rfl⟩

theorem Quiet.trans (h : w.Quiet w') (h' : w'.Quiet w'') : w.Quiet w'' :=
  ⟨h.toBeside.trans h'.toBeside, h'.arena.trans h.arena⟩

theorem beside_machine (w : World) (machine : Machine) : w.Beside { w with machine } :=
  ⟨⟨rfl, rfl, fun _ => rfl⟩, rfl, fun _ h => h, rfl, rfl, rfl, rfl, rfl⟩

theorem quiet_tell (w : World) (events : List Event) : w.Quiet { w with events } :=
  ⟨⟨⟨rfl, rfl, fun _ => rfl⟩, rfl, fun _ h => h, rfl, rfl, rfl, rfl, rfl⟩, rfl⟩

theorem quiet_runtime {runtime : Runtime}
    (names : ∀ m, runtime.identify m = w.runtime.identify m)
    (told : runtime.subscribers = w.runtime.subscribers)
    (silent : ∀ m, w.runtime.Silent m → runtime.Silent m) : w.Quiet { w with runtime } := by
  refine ⟨⟨⟨rfl, rfl, fun m => ?_⟩, told, silent, rfl, rfl, rfl, rfl, rfl⟩, rfl⟩
  show (if w.asks RuntimeFlag.identification then runtime.identify m else m.canonical) = _
  rw [names]
  rfl

theorem Calm.trans (h : w.Calm w') (h' : w'.Calm w'') : w.Calm w'' :=
  ⟨h.toQuiet.trans h'.toQuiet, h'.pinned.trans h.pinned, fun m start size later =>
    h.announces m start size (h'.announces m start size later)⟩

theorem pinned_tell {e : Event} (other : ∀ m, e ≠ .pinned m ∧ e ≠ .unpinned m) :
    ({ w with events := w.events ++ [e] } : World).pinned = w.pinned := by
  have none {x : Event} (differs : e ≠ x) : [e].count x = 0 :=
    List.count_eq_zero.mpr fun mem => differs (List.mem_singleton.mp mem).symm
  funext m
  unfold pinned
  rw [List.count_append, List.count_append, none (other m).1, none (other m).2]
  rfl

theorem calm_tell {e : Event} (other : ∀ m, e ≠ .pinned m ∧ e ≠ .unpinned m) :
    w.Calm { w with events := w.events ++ [e] } :=
  ⟨w.quiet_tell _, pinned_tell other, fun _ _ _ h => h⟩

/-- Somebody was told something, and that is all. -/
def Told (w w' : World) : Prop := ∃ events, w' = { w with events }

theorem Told.refl (w : World) : w.Told w := ⟨w.events, rfl⟩

theorem Told.quiet (h : w.Told w') : w.Quiet w' := by
  obtain ⟨events, rfl⟩ := h
  exact w.quiet_tell events

theorem Told.trans (h : w.Told w') (h' : w'.Told w'') : w.Told w'' := by
  obtain ⟨_, rfl⟩ := h
  obtain ⟨events, rfl⟩ := h'
  exact ⟨events, rfl⟩

/-- Somebody was told something that keeps no method in place and lets none go. -/
structure Mentions (w w' : World) : Prop where
  told : w.Told w'
  pinned : w'.pinned = w.pinned

theorem Mentions.refl (w : World) : w.Mentions w := ⟨.refl w, rfl⟩

theorem Mentions.trans (h : w.Mentions w') (h' : w'.Mentions w'') : w.Mentions w'' :=
  ⟨h.told.trans h'.told, h'.pinned.trans h.pinned⟩

theorem Mentions.quiet (h : w.Mentions w') : w.Quiet w' := h.told.quiet

theorem mentions_tell {e : Event} (other : ∀ m, e ≠ .pinned m ∧ e ≠ .unpinned m) :
    w.Mentions { w with events := w.events ++ [e] } := ⟨⟨_, rfl⟩, pinned_tell other⟩

/-- What a user has in hand. -/
def held (w : World) : List Hook × Option Nat := (w.hooks, w.manager)

theorem Beside.held (h : w.Beside w') : w'.held = w.held := by
  unfold World.held
  rw [h.hooks, h.manager]

theorem Beside.detour? (h : w.Beside w') (id : Nat) : w'.detour? id = w.detour? id := by
  unfold World.detour?
  rw [h.detours]

theorem Beside.chain? (b : w.Beside w') (k : ChainKey) : w'.chain? k = w.chain? k := by
  unfold World.chain? manager?
  rw [b.managers]

theorem Beside.manager? (b : w.Beside w') (id : Nat) : w'.manager? id = w.manager? id := by
  unfold World.manager?
  rw [b.managers]

/-! ## Rules -/

theorem onMachine_ends {α : Type} {act : Op Machine α} {Q : α → World → Prop}
    (h : act.Ends w.machine (fun a machine => Q a { w with machine })
      (fun machine => E { w with machine })) : (onMachine act).Ends w Q E := Ends.within h

theorem changeMachine_ends {f : Machine → Machine} {Q : Unit → World → Prop}
    (h : Q () { w with machine := f w.machine }) : (changeMachine f).Ends w Q E :=
  onMachine_ends (Ends.change h)

/-- A line in the log changes nothing else. -/
theorem report_ends {r : Report} {Q : Unit → World → Prop} (h : ∀ w', w.Quiet w' → Q () w') :
    (report r).Ends w Q E :=
  changeMachine_ends (h _ ⟨w.beside_machine _, rfl⟩)

theorem withDetour_ends {id : Nat} {act : MethodDetour → Op World Unit} {Q : Unit → World → Prop}
    (some : ∀ d, w.detour? id = some d → (act d).Ends w Q E) (none : w.detour? id = none → Q () w) :
    (withDetour id act).Ends w Q E := by
  apply Ends.bind
  apply Ends.get
  split
  · exact some _ ‹_›
  · exact Ends.pure (none ‹_›)

theorem withDetour_found {id : Nat} {d : MethodDetour} {act : MethodDetour → Op World Unit}
    {Q : Unit → World → Prop} (found : w.detour? id = some d) (h : (act d).Ends w Q E) :
    (withDetour id act).Ends w Q E := by
  apply withDetour_ends
  · intro d' found'
    obtain rfl := Option.some.inj (found.symm.trans found')
    exact h
  · intro none
    cases found.symm.trans none

theorem withDetour_missing {id : Nat} {act : MethodDetour → Op World Unit}
    {Q : Unit → World → Prop} (missing : w.detour? id = none) (h : Q () w) :
    (withDetour id act).Ends w Q E := by
  apply withDetour_ends
  · intro d found
    cases missing.symm.trans found
  · exact fun _ => h

/-- A detour that is told of fresh code follows, unless it is not applied, busy, or not concerned. -/
theorem follow_ends {relocated : MethodDetour → Op World Unit} {m : Method} {start size id : Nat}
    {Q : Unit → World → Prop} (none : w.detour? id = none → Q () w)
    (stays : ∀ d, w.detour? id = some d →
      (∀ r, d.redirection = some r → d.busy = false → d.source ≠ m ∧ d.target ≠ m) → Q () w)
    (source : ∀ d r, w.detour? id = some d → d.redirection = some r → d.busy = false →
      d.source = m → (followSource d r start size (relocated d)).Ends w Q E)
    (target : ∀ d r, w.detour? id = some d → d.redirection = some r → d.busy = false →
      d.source ≠ m → d.target = m → (followTarget d r start).Ends w Q E) :
    (follow relocated id m start size).Ends w Q E := by
  apply withDetour_ends _ none
  intro d found
  have applied := d.isApplied_eq
  rcases patched : d.redirection with _ | r <;> rw [patched] at applied
  · rw [applied]
    exact Ends.pure (stays d found fun r there => by cases patched.symm.trans there)
  rcases idle : d.busy with _ | _
  · rw [applied]
    split
    · rename_i refused
      cases refused
    · split
      · exact source d r found patched idle ‹_›
      · split
        · exact target d r found patched idle ‹_› ‹_›
        · exact Ends.pure (stays d found fun _ _ _ => ⟨‹_›, ‹_›⟩)
  · rw [applied]
    exact Ends.pure (stays d found fun _ _ free => by cases idle.symm.trans free)

/-- A failure to follow goes to the log, which is all that telling a detour adds. -/
theorem followOrReport_left {m : Method} {start size id : Nat} {P : World → Prop}
    (follows : (follow (fun d => tellWatcher d.watcher) id m start size).Ends w (fun _ => P) P)
    (quiet : ∀ w₁ w₂, P w₁ → w₁.Quiet w₂ → P w₂) :
    (followOrReport m start size id).Ends w (fun _ => P) E := by
  apply Ends.bind
  apply Ends.outcome
  apply follows.mono
  · exact fun _ _ p => Ends.pure p
  · intro w₁ p e
    apply withDetour_ends
    · exact fun _ _ => report_ends fun w₂ same => quiet w₁ w₂ p same
    · exact fun _ => p

theorem canonicalize_mentions (w : World) (m : Method) :
    (canonicalize m).Ends w (fun name w' => name = w.nameOf m ∧ w.Mentions w') E := by
  apply Ends.bind
  apply Ends.get
  dsimp only
  split
  · apply Ends.bind
    apply Ends.change
    apply Ends.pure
    exact ⟨rfl, mentions_tell fun _ => ⟨nofun, nofun⟩⟩
  · apply Ends.pure
    exact ⟨rfl, .refl w⟩

theorem canonicalize_tells (w : World) (m : Method) :
    (canonicalize m).Ends w (fun name w' => name = w.nameOf m ∧ w.Told w') E :=
  (canonicalize_mentions w m).mono (fun _ _ named => ⟨named.1, named.2.told⟩) fun _ h => h

theorem canonicalize_ends (w : World) (m : Method) :
    (canonicalize m).Ends w (fun name w' => name = w.nameOf m ∧ w.Quiet w') E :=
  (canonicalize_tells w m).mono (fun _ _ ⟨name, told⟩ => ⟨name, told.quiet⟩) fun _ h => h

theorem disableInlining_mentions (w : World) (m : Method) :
    (disableInlining m).Ends w (fun _ w' => w.Mentions w') w.Mentions := by
  have said : w.Mentions { w with events := w.events ++ [.inliningDisabled m] } :=
    mentions_tell fun _ => ⟨nofun, nofun⟩
  apply Ends.bind
  apply Ends.get
  split
  · exact Ends.pure (.refl w)
  · split
    · exact Ends.throw (.refl w)
    · apply Ends.bind
      apply Ends.change
      split
      · exact Ends.throw said
      · exact Ends.pure said

theorem disableInlining_tells (w : World) (m : Method) :
    (disableInlining m).Ends w (fun _ w' => w.Told w') w.Told :=
  (disableInlining_mentions w m).mono (fun _ _ said => said.told) fun _ said => said.told

theorem disableInlining_ends (w : World) (m : Method) :
    (disableInlining m).Ends w (fun _ w' => w.Quiet w') w.Quiet :=
  (disableInlining_tells w m).mono (fun _ _ told => told.quiet) fun _ told => told.quiet

/-! ## Notices that move nothing -/

/-- No detour that has to do with the method is applied. -/
def Unapplied (w : World) (m : Method) : Prop :=
  ∀ d ∈ w.detours, (d.source = m ∨ d.target = m) →
    ∀ x, w.detour? d.id = some x → x.redirection = none

theorem Unapplied.congr {m : Method} (h : w.Unapplied m) (b : w.Beside w') : w'.Unapplied m := by
  intro d md touches x found
  rw [b.detour?] at found
  exact h d (b.detours ▸ md) touches x found

theorem followOrReport_quiet {m : Method} {start size id : Nat}
    (none : ∀ d, w.detour? id = some d → d.redirection = none) :
    (followOrReport m start size id).Ends w (fun _ w' => w' = w) E := by
  apply Ends.bind
  apply Ends.outcome
  have stays : (follow (fun d => tellWatcher d.watcher) id m start size).Ends w
      (fun _ w' => w' = w) (fun _ => False) := by
    have never {d : MethodDetour} {r : Redirection} (found : w.detour? id = some d)
        (patched : d.redirection = some r) : False := by
      cases (none d found).symm.trans patched
    exact follow_ends (fun _ => rfl) (fun _ _ _ => rfl)
      (fun _ _ found patched => (never found patched).elim)
      fun _ _ found patched => (never found patched).elim
  apply stays.mono
  · rintro ⟨⟩ w' rfl
    exact Ends.pure rfl
  · exact fun _ h => h.elim

theorem deliver_quiet {c : CompiledMethod} (h : w.Unapplied (w.nameOf c.method)) :
    (deliver c).Ends w (fun _ w' => w.Quiet w') w.Quiet := by
  apply Ends.bind
  apply Ends.get
  apply Ends.forM (Quiet.refl w)
  intro factory _ s quiet
  apply Ends.bind
  apply Ends.get
  split
  · apply Ends.bind
    apply (canonicalize_ends s c.method).mono _ fun _ h => h
    rintro name s₁ ⟨rfl, quiet₁⟩
    have far := quiet.trans quiet₁
    apply Ends.bind
    apply Ends.get
    apply Ends.forM far
    intro id mid s₂ quiet₂
    obtain ⟨d, md, rfl⟩ := List.mem_map.mp mid
    obtain ⟨md, touches⟩ := List.mem_filter.mp md
    have touches : d.source = s.nameOf c.method ∨ d.target = s.nameOf c.method := by
      have := (Bool.and_eq_true _ _).mp touches
      simpa using this.2
    rw [quiet.names] at touches
    apply (followOrReport_quiet fun x found => ?_).mono (F := w.Quiet)
    · rintro ⟨⟩ _ rfl
      exact quiet₂
    · exact fun _ h => h
    · rw [quiet₂.toBeside.detour?] at found
      exact h d (far.detours ▸ md) touches x found
  · exact Ends.pure quiet

/-- A factory, which may be that of a manager, hears of methods that were compiled again. -/
def Hears (w : World) (factory : Nat) : Prop :=
  factory ∈ w.runtime.subscribers ∧ factory ∈ w.factories

instance (w : World) (factory : Nat) : Decidable (w.Hears factory) :=
  inferInstanceAs (Decidable (_ ∧ _))

/-- Nobody hears of methods that were compiled again. -/
def Deaf (w : World) : Prop := w.runtime.subscribers = []

theorem deliver_deaf {c : CompiledMethod} (h : w.Deaf) :
    (deliver c).Ends w (fun _ w' => w.Quiet w') E := by
  apply Ends.bind
  apply Ends.get
  rw [show w.runtime.subscribers = [] from h]
  exact Ends.pure (.refl w)

/-- Compiling the method moves nothing: nobody hears of it, or there is nothing to hear, or no
detour that has to do with the method is applied. -/
def Still (w : World) (m : Method) : Prop :=
  w.Deaf ∨ w.runtime.Silent m ∨ w.nameOf m = m ∧ w.Unapplied m

theorem Still.congr {m : Method} (h : w.Still m) (b : w.Beside w') : w'.Still m := by
  rcases h with deaf | silent | ⟨name, unapplied⟩
  · exact Or.inl (b.subscribers.trans deaf)
  · exact Or.inr (Or.inl (b.silent m silent))
  · exact Or.inr (Or.inr ⟨(b.names m).trans name, unapplied.congr b⟩)

/-! ## Compiling -/

theorem entryPoint_ends (w : World) (m : Method) :
    (entryPoint m).Ends w (fun _ w' => w' = w) (· = w) := by
  apply Ends.bind
  apply Ends.get
  exact Ends.lift (fun _ _ => rfl) fun _ _ => rfl

/-- Whatever compiling the method may bring about, `I` lasts. -/
structure Lasts (m : Method) (I : World → Prop) : Prop where
  calm : ∀ w w', w.Calm w' → I w → I w'
  told : ∀ w token start size, I w → w.runtime.Announces m start size →
    m.canonical = .token token →
      ∀ w', I w' → (deliver { method := .token token, start, size }).Ends w' (fun _ => I) I

theorem Still.lasts {m : Method} (h : w.Still m) : Lasts m w.Quiet := by
  refine ⟨fun _ _ calm h => h.trans calm.toQuiet,
    fun w₁ token start size quiet₁ tells known w' quiet => ?_⟩
  have back {w'' : World} (quiet' : w'.Quiet w'') : w.Quiet w'' := quiet.trans quiet'
  rcases h with deaf | silent | ⟨name, unapplied⟩
  · exact (deliver_deaf (quiet.subscribers.trans deaf)).mono (fun _ _ => back) fun _ => back
  · exact (tells.not_silent (quiet₁.silent m silent)).elim
  · rw [canonical_of_name name] at known
    subst known
    refine (deliver_quiet ?_).mono (fun _ _ => back) fun _ => back
    rw [quiet.names, name]
    exact unapplied.congr quiet.toBeside

section

variable {m : Method} {I : World → Prop}

/-- What a compilation may announce about its code. -/
theorem announced_lasts (l : Lasts m I) {token : Nat} (known : m.canonical = .token token)
    {code : Option (Nat × Nat)} {w₁ : World} (before : I w₁) (begin : I w) :
    (∀ start size, code = some (start, size) → w₁.runtime.Announces m start size) →
      (match code with
        | some (start, size) => deliver { method := .token token, start, size }
        | none => pure () : Op World Unit).Ends w (fun _ => I) I := by
  intro tells
  rcases code with _ | ⟨start, size⟩
  · exact Ends.pure begin
  · exact l.told w₁ token start size before (tells start size rfl) known w begin

theorem runCompilation_lasts (l : Lasts m I) {token : Nat} (known : m.canonical = .token token)
    {c : Compilation} {w₁ : World} (before : I w₁)
    (tells : ∀ entry start size, c = .succeeds entry (some (start, size)) →
      w₁.runtime.Announces m start size) (begin : I w) :
    (runCompilation token c).Ends w (fun _ => I) I := by
  cases c with
  | fails => exact Ends.throw begin
  | succeeds entry code =>
    have announced {w : World} (begin : I w) := announced_lasts l known before begin
      fun start size (some : code = _) => tells entry start size (by rw [some])
    apply Ends.bind
    cases entry with
    | none =>
      apply Ends.pure
      exact announced begin
    | some entry =>
      apply Ends.change
      have quiet := quiet_runtime (w.runtime.identify_setEntry token entry)
        (w.runtime.subscribers_setMethod _) fun _ h => h.setEntry token entry
      exact announced (l.calm w _ ⟨quiet, rfl, fun _ _ _ h => h.of_setEntry⟩ begin)

theorem compile_lasts (l : Lasts m I) (begin : I w) : (compile m).Ends w (fun _ => I) I := by
  apply Ends.bind
  apply Ends.get
  split
  · apply Ends.bind
    apply Ends.get
    dsimp only
    split
    · exact Ends.throw begin
    · apply Ends.bind
      apply Ends.change
      have told : w.Calm { w with events := w.events ++ [.compiled m] } :=
        calm_tell fun _ => ⟨nofun, nofun⟩
      split
      · rename_i token known
        split
        · exact Ends.throw (l.calm _ _ told begin)
        · rename_i x there
          have it : x.token = token := by simpa using List.find?_some there
          apply Ends.bind
          apply Ends.bind
          apply Ends.change
          apply Ends.pure
          have fewer (c : Compilation) (mc : c ∈ x.compilations.drop 1) :
              ∃ y, w.runtime.method? x.token = some y ∧ c ∈ y.compilations :=
            ⟨x, it.symm ▸ there, List.mem_of_mem_drop mc⟩
          have advanced := told.trans ⟨quiet_runtime (Runtime.identify_setMethod (r := w.runtime)
            (m := { x with compilations := x.compilations.drop 1 })
            (by simp [it, there])) (w.runtime.subscribers_setMethod _) fun _ h =>
              h.setMethod fewer, rfl, fun _ _ _ h => h.of_setMethod fewer⟩
          split
          · rename_i c next
            refine runCompilation_lasts l known begin (fun entry start size announces => ?_)
              (l.calm _ _ advanced begin)
            have found : w.runtime.lookup? m = some x := by
              unfold Runtime.lookup?
              rw [known]
              exact there
            exact ⟨x, found, entry, announces ▸ List.mem_of_head? next⟩
          · exact Ends.pure (l.calm _ _ advanced begin)
      · exact Ends.throw (l.calm _ _ told begin)
  · apply Ends.bind
    apply (entryPoint_ends w m).mono
    · rintro _ _ rfl
      exact Ends.pure begin
    · rintro _ rfl
      exact begin

/-! ## Walking to the body -/

theorem walkFrom_lasts (l : Lasts m I) (limit steps : Nat) (p : Thunk.Position) (begin : I w) :
    (Thunk.walkFrom (bodySource m) limit steps p).Ends w (fun _ => I) I := by
  induction steps generalizing w p with
  | zero => exact Ends.throw begin
  | succ steps ih =>
    unfold Thunk.walkFrom
    split
    · exact Ends.pure begin
    · apply Ends.bind
      apply Ends.get
      dsimp only
      split
      · exact Ends.pure begin
      · split
        · exact ih _ begin
        · split
          · exact Ends.throw begin
          · apply Ends.bind
            apply (compile_lasts l begin).mono _ fun _ h => h
            rintro ⟨⟩ w₁ i₁
            apply Ends.bind
            apply Ends.get
            apply Ends.bind
            apply (entryPoint_ends w₁ m).mono
            · rintro entry _ rfl
              exact ih _ i₁
            · rintro _ rfl
              exact i₁

theorem resolve_lasts (l : Lasts m I) (begin : I w) : (resolve m).Ends w (fun _ => I) I := by
  unfold resolve
  split
  · exact Ends.pure begin
  · apply Ends.bind
    apply Ends.get
    split
    · apply Ends.bind
      apply Ends.get
      apply Ends.bind
      apply (entryPoint_ends w m).mono
      · rintro entry _ rfl
        apply Ends.bind
        apply Ends.get
        exact walkFrom_lasts l _ _ _ begin
      · rintro _ rfl
        exact begin
    · apply (entryPoint_ends w m).mono
      · rintro _ _ rfl
        exact begin
      · rintro _ rfl
        exact begin

/-- Finding a body leaves detours that nobody moves as they are. -/
theorem resolve_ends (h : w.Still m) :
    (resolve m).Ends w (fun _ w' => w.Quiet w') w.Quiet := resolve_lasts h.lasts (.refl w)

end

end World

end Detouring
