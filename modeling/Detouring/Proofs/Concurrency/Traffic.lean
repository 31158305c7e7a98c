-- Threads that call through chains of hooks and update them, in any order of steps. After each
-- step the accounts of the chains agree with what the threads hold, so every law about calls
-- and updates holds for all threads, chains and orders.
import Detouring.Concurrency.CallAccount
import Detouring.Concurrency.Schedule
import Mathlib.Algebra.BigOperators.Finprod
import Mathlib.Logic.Relation

namespace Detouring

/-- Threads that share numbered chains. -/
abbrev Traffic := Schedule CallAccount CallRequest

/-- `true` for what a thread asks of a chain: a call or an update. Draining is a part of an
update. -/
def CallRequest.isOffered : CallRequest → Bool
  | .enter | .claim => true
  | .drain | .watch => false

namespace Traffic

/-! ## Steps -/

/-- The thread waits for nothing. -/
def Idle (s : Traffic) (t : ThreadId) : Prop :=
  ∀ p ∈ s.parked, p.thread = t → ∃ outcome, p.progress = .done outcome

/-- Tries what a parked task waits for; `earlier` and `later` are the tasks around it. -/
def tryParked (s : Traffic) (earlier later : List (Parked CallRequest))
    (p : Parked CallRequest) (wanted : Holding CallRequest) (now : CallRequest) : Traffic :=
  let (s, progress) := s.attempt wanted now
  { s with parked := earlier ++ { p with progress } :: later }

/-- A thread asks something of chain `i`, and tries it at once. -/
def ask (s : Traffic) (t : ThreadId) (i : Nat) (name : String) (what : CallRequest) : Traffic :=
  tryParked s s.parked []
    { thread := t, resource := i, progress := .waiting ⟨t, name, what, i⟩ what }
    ⟨t, name, what, i⟩ what

/-- One step of one thread. A thread that waits does nothing else, but a waiting request may be
tried at any moment, and anybody may end an update that was granted. -/
inductive Step : Traffic → Traffic → Prop
  | ask {s t i name what} : Idle s t → what.isOffered = true → Step s (ask s t i name what)
  | retry {s earlier later p wanted now} : s.parked = earlier ++ p :: later →
      p.progress = .waiting wanted now → Step s (tryParked s earlier later p wanted now)
  | leave {s t name} : Idle s t → Step s (s.drop t name .enter).1
  | endUpdate {s t name} : Step s (s.drop t name .claim).1
  | join {s t} : Idle s t → Step s (s.join t).1

/-- Nobody is inside a chain, and nobody waits. -/
def quiet : Traffic := { resources := fun _ => {} }

def Reachable (s : Traffic) : Prop := Relation.ReflTransGen Step quiet s

/-! ## What the accounts say of the holdings -/

/-- A call through chain `i`. -/
def isCall (i : Nat) (h : Holding CallRequest) : Bool :=
  decide (h.request = .enter ∧ h.resource = i)

/-- A call through chain `i` by thread `t`. -/
def isCallBy (i : Nat) (t : ThreadId) (h : Holding CallRequest) : Bool :=
  isCall i h && h.thread == t

/-- An update of chain `i`. -/
def isUpdate (i : Nat) (h : Holding CallRequest) : Bool :=
  decide (h.request = .claim ∧ h.resource = i)

/-- The update that a task has claimed a chain for, while it waits for the calls of others. -/
def drainOf : TaskProgress CallRequest → List (Holding CallRequest)
  | .waiting wanted .drain => [wanted]
  | _ => []

def draining (s : Traffic) : List (Holding CallRequest) :=
  s.parked.flatMap fun p => drainOf p.progress

/-- The accounts count the calls that are held, know the one update of each chain, held or
draining, and an update that is held has the chain to itself. -/
structure Balanced (accounts : Nat → CallAccount) (held drains : List (Holding CallRequest)) :
    Prop where
  offered : ∀ h ∈ held, h.request.isOffered = true
  depth : ∀ i t, (accounts i).depth t = held.countP (isCallBy i t)
  active : ∀ i, (accounts i).active = held.countP (isCall i)
  asked : ∀ h ∈ drains, h.request = .claim
  single : ∀ i, (held ++ drains).countP (isUpdate i) = (accounts i).isUpdating.toNat
  owner : ∀ h ∈ held ++ drains, h.request = .claim →
    (accounts h.resource).updater = some h.thread
  alone : ∀ h ∈ held, h.request = .claim → ∀ u ≠ h.thread, (accounts h.resource).depth u = 0

/-- A parked task waits for what it asked for or, once its update has claimed the chain, for the
calls of others to leave. -/
def Awaits (progress : TaskProgress CallRequest) : Prop :=
  ∀ wanted now, progress = .waiting wanted now →
    wanted.request.isOffered = true ∧
      (now = wanted.request ∨ wanted.request = .claim ∧ now = .drain)

/-- A thread has one holding of each name and kind. -/
def Named (held : List (Holding CallRequest)) : Prop :=
  held.Pairwise fun h h' => Schedule.Holding.named h.thread h.name h.request h' = false

structure Good (s : Traffic) : Prop where
  balanced : Balanced s.resources s.held (draining s)
  awaits : ∀ p ∈ s.parked, Awaits p.progress
  named : Named s.held

/-! ## Counting -/

/-- The calls of a chain, thread by thread. -/
theorem finsum_isCallBy (i : Nat) (held : List (Holding CallRequest)) :
    (Function.support fun t => held.countP (isCallBy i t)).Finite ∧
      ∑ᶠ t, held.countP (isCallBy i t) = held.countP (isCall i) := by
  induction held with
  | nil => simp
  | cons h held ih =>
    obtain ⟨finite, sum⟩ := ih
    have one : (Function.support fun t => if isCallBy i t h = true then 1 else 0) ⊆
        {h.thread} := by
      intro t ht
      simp only [Function.mem_support, isCallBy, Bool.and_eq_true, beq_iff_eq] at ht
      by_contra other
      simp [Ne.symm other] at ht
    have oneFinite := (Set.finite_singleton h.thread).subset one
    simp only [List.countP_cons]
    refine ⟨(finite.union oneFinite).subset (Function.support_add _ _), ?_⟩
    rw [finsum_add_distrib finite oneFinite, sum, finsum_eq_single _ h.thread]
    · simp [isCallBy]
    · intro t other
      simp [isCallBy, Ne.symm other]

/-- If a thread has as many calls open as there are in all, the others have none. -/
theorem countP_isCallBy_eq_zero {i : Nat} {t u : ThreadId} {held : List (Holding CallRequest)}
    (h : held.countP (isCall i) ≤ held.countP (isCallBy i t)) (other : u ≠ t) :
    held.countP (isCallBy i u) = 0 := by
  have split : held.countP (isCallBy i t) + held.countP (isCallBy i u) ≤
      held.countP (isCall i) := by
    clear h
    induction held with
    | nil => simp
    | cons g held ih =>
      simp only [List.countP_cons, isCallBy, Bool.and_eq_true, beq_iff_eq]
      grind
  omega

namespace Balanced

variable {accounts : Nat → CallAccount} {held drains : List (Holding CallRequest)}

theorem perm {held' drains' : List (Holding CallRequest)} (b : Balanced accounts held drains)
    (hp : held.Perm held') (dp : drains.Perm drains') : Balanced accounts held' drains' := by
  have both := hp.append dp
  refine ⟨fun h m => b.offered h (hp.mem_iff.mpr m), fun i t => ?_, fun i => ?_,
    fun h m => b.asked h (dp.mem_iff.mpr m), fun i => ?_,
    fun h m => b.owner h (both.mem_iff.mpr m), fun h m => b.alone h (hp.mem_iff.mpr m)⟩
  · rw [b.depth, hp.countP_eq]
  · rw [b.active, hp.countP_eq]
  · rw [← both.countP_eq, b.single]

/-- Without an update no holding is one. -/
theorem no_update {i : Nat} (b : Balanced accounts held drains)
    (none : (accounts i).updater = none) {h : Holding CallRequest} (m : h ∈ held ++ drains)
    (claim : h.request = .claim) : h.resource ≠ i := by
  rintro rfl
  simp [b.owner h m claim] at none

/-! ## One account changes -/

theorem open_call (b : Balanced accounts held drains) {i : Nat} {t : ThreadId} (name : String)
    (free : (accounts i).updater = none ∨
      (accounts i).updater ≠ some t ∧ 0 < (accounts i).depth t) :
    Balanced
      (fun j => if j = i then
        { accounts i with
          active := (accounts i).active + 1
          depth := (accounts i).setDepth t ((accounts i).depth t + 1) }
        else accounts j)
      (⟨t, name, .enter, i⟩ :: held) drains := by
  refine ⟨?_, fun j u => ?_, fun j => ?_, b.asked, fun j => ?_, ?_, ?_⟩
  · simpa [CallRequest.isOffered] using b.offered
  · by_cases same : j = i
    · subst same
      by_cases mine : u = t
      · simp [mine, CallAccount.setDepth, isCallBy, isCall, b.depth]
      · simp [mine, Ne.symm mine, CallAccount.setDepth, isCallBy, isCall, b.depth]
    · simp [same, Ne.symm same, isCallBy, isCall, b.depth]
  · by_cases same : j = i
    · simp [same, isCall, b.active]
    · simp [same, Ne.symm same, isCall, b.active]
  · have := b.single j
    by_cases same : j = i
    · subst same; simpa [isUpdate, CallAccount.isUpdating] using this
    · simpa [same, isUpdate] using this
  · rintro h m claim
    rcases List.mem_cons.mp m with rfl | m
    · cases claim
    · have := b.owner h m claim
      by_cases same : h.resource = i
      · simpa [same] using this
      · simpa [same] using this
  · rintro h m claim u other
    rcases List.mem_cons.mp m with rfl | m
    · cases claim
    · have alone := b.alone h m claim
      by_cases same : h.resource = i
      · -- The thread of the new call was inside, so it is the updating one, which was refused.
        have owner := b.owner h (List.mem_append_left _ m) claim
        subst same
        rcases free with none | ⟨notMine, inside⟩
        · simp [owner] at none
        · have mine : t ≠ h.thread := fun e => notMine (by rw [owner, e])
          have := alone t mine
          omega
      · simpa [same] using alone u other

theorem begin_draining (b : Balanced accounts held drains) {i : Nat} (t : ThreadId)
    (name : String) (free : (accounts i).updater = none) :
    Balanced (fun j => if j = i then { accounts i with updater := some t } else accounts j)
      held (⟨t, name, .claim, i⟩ :: drains) := by
  refine ⟨b.offered, fun j u => ?_, fun j => ?_, ?_, fun j => ?_, ?_, ?_⟩
  · by_cases same : j = i <;> simp [same, b.depth]
  · by_cases same : j = i <;> simp [same, b.active]
  · simpa using b.asked
  · have := b.single j
    by_cases same : j = i
    · subst same
      simp only [CallAccount.isUpdating, free, Option.isSome_none, Bool.toNat_false,
        List.countP_append] at this
      simp only [CallAccount.isUpdating, if_true, Option.isSome_some, Bool.toNat_true,
        List.countP_append, List.countP_cons, isUpdate, and_self, decide_true] at this ⊢
      omega
    · simpa [same, Ne.symm same, isUpdate, List.countP_cons] using this
  · rintro h m claim
    rcases List.mem_append.mp m with m | m
    · have := b.no_update free (List.mem_append_left _ m) claim
      simpa [this] using b.owner h (List.mem_append_left _ m) claim
    · rcases List.mem_cons.mp m with rfl | m
      · simp
      · have := b.no_update free (List.mem_append_right _ m) claim
        simpa [this] using b.owner h (List.mem_append_right _ m) claim
  · intro h m claim u other
    have := b.no_update free (List.mem_append_left _ m) claim
    simpa [this] using b.alone h m claim u other

/-- An update is granted when as many calls are open as its own thread has. -/
theorem finish_draining {h : Holding CallRequest} (b : Balanced accounts held (h :: drains))
    (drained : (accounts h.resource).active ≤ (accounts h.resource).depth h.thread) :
    Balanced accounts (h :: held) drains := by
  have claim := b.asked h List.mem_cons_self
  have same : (h :: held ++ drains).Perm (held ++ h :: drains) := List.perm_middle.symm
  refine ⟨?_, fun j u => ?_, fun j => ?_, fun g m => b.asked g (List.mem_cons_of_mem _ m),
    fun j => ?_, fun g m => b.owner g (same.mem_iff.mp m), ?_⟩
  · simpa [claim, CallRequest.isOffered] using b.offered
  · simp [b.depth, isCallBy, isCall, claim]
  · simp [b.active, isCall, claim]
  · rw [same.countP_eq, b.single]
  · intro g m _ u other
    rcases List.mem_cons.mp m with rfl | m
    · rw [b.depth, b.active] at drained
      rw [b.depth, countP_isCallBy_eq_zero drained other]
    · exact b.alone g m ‹_› u other

theorem close_call {h : Holding CallRequest} (b : Balanced accounts (h :: held) drains)
    (call : h.request = .enter) :
    Balanced
      (fun j => if j = h.resource then (accounts h.resource).leave h.thread else accounts j)
      held drains := by
  refine ⟨fun g m => b.offered g (List.mem_cons_of_mem _ m), fun j u => ?_, fun j => ?_, b.asked,
    fun j => ?_, ?_, ?_⟩
  · have := b.depth j u
    by_cases same : j = h.resource
    · subst same
      by_cases mine : u = h.thread
      · subst mine
        simp only [List.countP_cons, isCallBy, isCall, call] at this
        simp [CallAccount.leave, CallAccount.setDepth, this]
      · simp only [List.countP_cons, isCallBy, isCall, call] at this
        simp [CallAccount.leave, CallAccount.setDepth, this, mine, Ne.symm mine]
    · simp only [List.countP_cons, isCallBy, isCall, call] at this
      simp [same, this, Ne.symm same]
  · have := b.active j
    by_cases same : j = h.resource
    · subst same
      simp only [List.countP_cons, isCall, call] at this
      simp [CallAccount.leave, this]
    · simp only [List.countP_cons, isCall, call] at this
      simp [same, this, Ne.symm same]
  · have := b.single j
    simp only [List.cons_append, List.countP_cons, isUpdate, call] at this
    by_cases same : j = h.resource
    · subst same; simpa [CallAccount.leave, CallAccount.isUpdating, isUpdate] using this
    · simpa [same, isUpdate] using this
  · intro g m claim
    have := b.owner g (by simp at m ⊢; tauto) claim
    by_cases same : g.resource = h.resource
    · simpa [same, CallAccount.leave] using this
    · simpa [same] using this
  · intro g m claim u other
    have := b.alone g (List.mem_cons_of_mem _ m) claim u other
    by_cases same : g.resource = h.resource
    · rw [same] at this
      by_cases mine : u = h.thread
      · subst mine
        simp [same, CallAccount.leave, CallAccount.setDepth, this]
      · simp [same, CallAccount.leave, CallAccount.setDepth, this, mine]
    · simpa [same] using this

theorem end_update {h : Holding CallRequest} (b : Balanced accounts (h :: held) drains)
    (update : h.request = .claim) :
    Balanced
      (fun j => if j = h.resource then (accounts h.resource).endUpdate else accounts j)
      held drains := by
  have only : ∀ g ∈ held ++ drains, g.request = .claim → g.resource ≠ h.resource := by
    intro g m claim same
    have one := b.single h.resource
    have owner := b.owner h (by simp) update
    have found : 0 < (held ++ drains).countP (isUpdate h.resource) :=
      List.countP_pos_iff.mpr ⟨g, m, by simp [isUpdate, claim, same]⟩
    rw [CallAccount.isUpdating, owner, List.cons_append, List.countP_cons_of_pos
      (by simp [isUpdate, update])] at one
    simp only [Option.isSome_some, Bool.toNat_true] at one
    omega
  refine ⟨fun g m => b.offered g (List.mem_cons_of_mem _ m), fun j u => ?_, fun j => ?_, b.asked,
    fun j => ?_, ?_, ?_⟩
  · have := b.depth j u
    simp only [List.countP_cons, isCallBy, isCall, update] at this
    by_cases same : j = h.resource
    · subst same; simpa [CallAccount.endUpdate, isCallBy, isCall] using this
    · simpa [same, isCallBy, isCall] using this
  · have := b.active j
    simp only [List.countP_cons, isCall, update] at this
    by_cases same : j = h.resource
    · subst same; simpa [CallAccount.endUpdate, isCall] using this
    · simpa [same, isCall] using this
  · by_cases same : j = h.resource
    · subst same
      simp only [if_true, CallAccount.isUpdating, CallAccount.endUpdate, Option.isSome_none,
        Bool.toNat_false, List.countP_eq_zero]
      intro g m
      simp only [isUpdate, decide_eq_true_eq, not_and]
      exact only g m
    · have := b.single j
      simp only [List.cons_append, List.countP_cons, isUpdate, update] at this
      simpa [same, Ne.symm same, isUpdate] using this
  · intro g m claim
    have := b.owner g (by simp at m ⊢; tauto) claim
    simpa [only g m claim] using this
  · intro g m claim u other
    have := b.alone g (List.mem_cons_of_mem _ m) claim u other
    simpa [only g (List.mem_append_left _ m) claim] using this

end Balanced

end Traffic

end Detouring
