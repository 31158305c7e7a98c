-- Threads that wait for one another at a chain. Calls and updates wait for an update, and an
-- update waits for the calls of others. All threads of a chain can wait for ever in one way only:
-- a thread inside the chain waits to update it, and the update that it waits for waits for the
-- calls of that very thread.
import Detouring.Proofs.Concurrency.Exclusion

namespace Detouring

/-! ## Why a request waits -/

namespace CallAccount

variable {a : CallAccount} {t : ThreadId}

/-- A call waits for an update of another thread, unless its own thread is inside already. -/
theorem enter_waits_iff :
    (a.enter t).2 = .waits .enter ↔ (∃ u ≠ t, a.updater = some u) ∧ a.depth t = 0 := by
  unfold enter
  rcases a.updater with _ | u
  · simp
  · by_cases mine : u = t
    · simp [mine]
    · by_cases inside : 0 < a.depth t
      · simp [mine, inside, Nat.ne_of_gt inside]
      · simp [mine, Nat.eq_zero_of_not_pos inside]

/-- An update that has not claimed the chain waits for an update of another thread. -/
theorem claim_waits_iff : (a.claim t).2 = .waits .claim ↔ ∃ u ≠ t, a.updater = some u := by
  unfold claim
  rcases a.updater with _ | u
  · by_cases drained : a.active ≤ a.depth t <;> simp [drain, drained]
  · by_cases mine : u = t <;> simp [mine]

/-- An update that has claimed the chain waits for the calls of other threads. -/
theorem drain_waits_iff : (a.drain t).2 = .waits .drain ↔ a.depth t < a.active := by
  unfold drain
  by_cases drained : a.active ≤ a.depth t
  · simp [drained]
  · simp [drained]
    omega

end CallAccount

namespace Traffic

/-! ## Threads that wait -/

/-- A request of the thread for chain `i` waits, now for `now`. -/
def Waits (s : Traffic) (i : Nat) (t : ThreadId) (now : CallRequest) : Prop :=
  ∃ p ∈ s.parked, p.thread = t ∧ p.resource = i ∧ ∃ wanted, p.progress = .waiting wanted now

/-- A request of the thread for chain `i` waits for something that has not come: if it is tried
again it waits as before. -/
def Stuck (s : Traffic) (i : Nat) (t : ThreadId) : Prop :=
  ∃ p ∈ s.parked, p.thread = t ∧ p.resource = i ∧
    ∃ wanted now, p.progress = .waiting wanted now ∧
      (s.attempt wanted now).2 = .waiting wanted now

/-- Nobody but these threads has a call or an update of chain `i`, or waits for one. -/
structure Only (s : Traffic) (i : Nat) (threads : Set ThreadId) : Prop where
  held : ∀ h ∈ s.held, h.resource = i → h.thread ∈ threads
  parked : ∀ p ∈ s.parked, p.resource = i → p.thread ∈ threads

/-- Two updates stand in each other's way: one has claimed the chain and waits for the calls of
others, and a thread with calls inside waits for it with an update of its own. -/
structure Crossed (s : Traffic) (i : Nat) (u v : ThreadId) : Prop where
  other : u ≠ v
  claimed : (s.resources i).updater = some u
  drains : s.Waits i u .drain
  inside : 0 < (s.resources i).depth v
  waits : s.Waits i v .claim

/-! ## Tasks and their threads -/

/-- What a task waits for is a request of its own thread, for the chain it was begun at. -/
def Owned (p : Parked CallRequest) : Prop :=
  ∀ wanted now, p.progress = .waiting wanted now →
    wanted.thread = p.thread ∧ wanted.resource = p.resource

/-- A request that waits on after an attempt is still the same one. -/
theorem wanted_of_waiting {s : Traffic} {wanted wanted' : Holding CallRequest}
    {now now' : CallRequest} (h : (s.attempt wanted now).2 = .waiting wanted' now') :
    wanted' = wanted := by
  simp only [Schedule.attempt] at h
  split at h <;> cases h
  rfl

theorem owned_step {s s' : Traffic} (o : ∀ p ∈ s.parked, Owned p) (step : Step s s') :
    ∀ p ∈ s'.parked, Owned p := by
  have dropped (t : ThreadId) (name : String) (what : CallRequest) :
      (s.drop t name what).1.parked = s.parked := by
    simp only [Schedule.drop]
    split <;> rfl
  cases step with
  | @ask t i name what idle offered =>
    intro p m
    rcases List.mem_append.mp m with m | m
    · exact o p m
    · obtain rfl := List.mem_singleton.mp m
      intro wanted now waits
      rw [wanted_of_waiting waits]
      exact ⟨rfl, rfl⟩
  | @retry earlier later q wanted now parked waits =>
    have mine : Owned q := o q (by simp [parked])
    intro p m
    rcases List.mem_append.mp m with m | m
    · exact o p (by simp [parked, m])
    · rcases List.mem_cons.mp m with rfl | m
      · intro wanted' now' waits'
        rw [wanted_of_waiting waits']
        exact mine wanted now waits
      · exact o p (by simp [parked, m])
  | leave idle => exact dropped _ _ _ ▸ o
  | endUpdate => exact dropped _ _ _ ▸ o
  | @join t idle =>
    intro p m
    simp only [Schedule.join] at m
    split at m
    · exact o p m
    · exact o p (List.mem_filter.mp m).1

theorem owned_of_reachable {s : Traffic} (r : Reachable s) : ∀ p ∈ s.parked, Owned p := by
  induction r with
  | refl => simp [quiet]
  | tail _ step ih => exact owned_step ih step

/-! ## Why a thread is stuck -/

theorem attempt_waiting_iff {s : Traffic} {wanted : Holding CallRequest} {now : CallRequest} :
    (s.attempt wanted now).2 = .waiting wanted now ↔
      (Waitable.attempt (s.resources wanted.resource) wanted.thread now).2 = .waits now := by
  simp only [Schedule.attempt]
  rcases Waitable.attempt (s.resources wanted.resource) wanted.thread now with
    ⟨a, _ | _ | _ | _ | now'⟩ <;> simp

/-- A stuck thread waits for the update of another thread, as a call from outside or as an
update, or it has claimed the chain and waits for calls of others. -/
theorem Stuck.cases {s : Traffic} {i : Nat} {t : ThreadId} (g : Good s)
    (o : ∀ p ∈ s.parked, Owned p) (stuck : s.Stuck i t) :
    (∃ u ≠ t, (s.resources i).updater = some u) ∧
        ((s.resources i).depth t = 0 ∨ s.Waits i t .claim) ∨
      (s.resources i).updater = some t ∧ (s.resources i).depth t < (s.resources i).active ∧
        s.Waits i t .drain := by
  obtain ⟨p, mp, rfl, rfl, wanted, now, waits, again⟩ := stuck
  obtain ⟨thread, resource⟩ := o p mp wanted now waits
  have here : s.Waits p.resource p.thread now := ⟨p, mp, rfl, rfl, wanted, waits⟩
  rw [attempt_waiting_iff, thread, resource] at again
  obtain ⟨offered, rfl | ⟨claim, rfl⟩⟩ := g.awaits p mp wanted now waits
  · rcases what : wanted.request with _ | _ | _ | _ <;> rw [what] at again here offered
    · obtain ⟨blocked, outside⟩ := CallAccount.enter_waits_iff.mp again
      exact Or.inl ⟨blocked, Or.inl outside⟩
    · exact Or.inl ⟨CallAccount.claim_waits_iff.mp again, Or.inr here⟩
    · cases offered
    · cases offered
  · have drains : wanted ∈ draining s := by
      refine List.mem_flatMap.mpr ⟨p, mp, ?_⟩
      rw [waits]
      exact List.mem_singleton_self wanted
    have owner := g.balanced.owner wanted (List.mem_append_right _ drains) claim
    rw [thread, resource] at owner
    exact Or.inr ⟨owner, CallAccount.drain_waits_iff.mp again, here⟩

/-- While calls of others are inside, one of the threads that have some is another one. -/
theorem Good.exists_inside {s : Traffic} (g : Good s) {i : Nat} {t : ThreadId}
    (more : (s.resources i).depth t < (s.resources i).active) :
    ∃ h ∈ s.held, h.resource = i ∧ h.thread ≠ t ∧ 0 < (s.resources i).depth h.thread := by
  rw [g.balanced.depth, g.balanced.active] at more
  by_contra none
  push Not at none
  refine Nat.not_le.mpr more (List.countP_mono_left fun h mh call => ?_)
  have there : h.resource = i := by
    simp only [isCall, decide_eq_true_eq] at call
    exact call.2
  by_cases mine : h.thread = t
  · simp [isCallBy, call, mine]
  · have inside : 0 < (s.resources i).depth h.thread := by
      rw [g.balanced.depth]
      exact List.countP_pos_iff.mpr ⟨h, mh, by simp [isCallBy, call]⟩
    have := none h mh there mine
    omega

/-- Whoever has claimed a chain has asked for it: its update is held or waits for calls. -/
theorem Good.updater_mem {s : Traffic} (g : Good s) (o : ∀ p ∈ s.parked, Owned p) {i : Nat}
    {threads : Set ThreadId} (only : s.Only i threads) {u : ThreadId}
    (claimed : (s.resources i).updater = some u) : u ∈ threads := by
  have one := g.balanced.single i
  rw [CallAccount.isUpdating, claimed, Option.isSome_some, Bool.toNat_true] at one
  have found : 0 < (s.held ++ draining s).countP (isUpdate i) := by omega
  obtain ⟨h, mh, update⟩ := List.countP_pos_iff.mp found
  simp only [isUpdate, decide_eq_true_eq] at update
  obtain ⟨claim, rfl⟩ := update
  have owner := g.balanced.owner h mh claim
  rw [claimed, Option.some.injEq] at owner
  subst owner
  rcases List.mem_append.mp mh with mh | mh
  · exact only.held h mh rfl
  · obtain ⟨p, mp, drains⟩ := List.mem_flatMap.mp mh
    rcases progress : p.progress with ⟨wanted, _ | _ | _ | _⟩ | outcome <;>
      rw [progress] at drains <;>
      simp only [drainOf, List.not_mem_nil, List.mem_singleton] at drains
    subst drains
    obtain ⟨thread, resource⟩ := o p mp _ _ progress
    exact thread ▸ only.parked p mp resource.symm

/-- Neither of two updates that stand in each other's way can go on. -/
theorem Crossed.stuck {s : Traffic} (g : Good s) (o : ∀ p ∈ s.parked, Owned p) {i : Nat}
    {u v : ThreadId} (crossed : s.Crossed i u v) : s.Stuck i u ∧ s.Stuck i v := by
  have again {t : ThreadId} {now : CallRequest} (waits : s.Waits i t now)
      (blocked : (Waitable.attempt (s.resources i) t now).2 = .waits now) : s.Stuck i t := by
    obtain ⟨p, mp, rfl, rfl, wanted, progress⟩ := waits
    obtain ⟨thread, resource⟩ := o p mp wanted now progress
    exact ⟨p, mp, rfl, rfl, wanted, now, progress,
      attempt_waiting_iff.mpr (by rw [thread, resource]; exact blocked)⟩
  refine ⟨again crossed.drains (CallAccount.drain_waits_iff.mpr ?_),
    again crossed.waits (CallAccount.claim_waits_iff.mpr ⟨u, crossed.other, crossed.claimed⟩)⟩
  by_contra drained
  have inside := crossed.inside
  rw [g.balanced.depth, g.balanced.active] at drained
  rw [g.balanced.depth, countP_isCallBy_eq_zero (Nat.not_lt.mp drained) crossed.other.symm] at inside
  cases inside

/-! ## The law -/

/-- In every state that threads can come to, whatever they ask and in whatever order: of the
threads of a chain one can go on, because it waits for nothing or what it waits for has come,
unless two of their updates stand in each other's way. Then neither of these two can. -/
theorem one_can_go_on_unless_updates_cross {s : Traffic} (r : Reachable s) {i : Nat}
    {threads : Set ThreadId} (some : threads.Nonempty) (only : s.Only i threads) :
    ((∃ t ∈ threads, ¬ s.Stuck i t) ∨ ∃ u ∈ threads, ∃ v ∈ threads, s.Crossed i u v) ∧
      ∀ u v, s.Crossed i u v → s.Stuck i u ∧ s.Stuck i v := by
  have g := good_of_reachable r
  have o := owned_of_reachable r
  refine ⟨?_, fun u v crossed => crossed.stuck g o⟩
  by_cases free : ∃ t ∈ threads, ¬ s.Stuck i t
  · exact Or.inl free
  push Not at free
  -- Whatever a stuck thread waits for, some thread has claimed the chain.
  obtain ⟨u, claimed⟩ : ∃ u, (s.resources i).updater = Option.some u := by
    obtain ⟨t, mt⟩ := some
    rcases (free t mt).cases g o with ⟨⟨u, _, claimed⟩, _⟩ | ⟨claimed, _⟩
    · exact ⟨u, claimed⟩
    · exact ⟨t, claimed⟩
  have mu := g.updater_mem o only claimed
  rcases (free u mu).cases g o with ⟨⟨u', other, claimed'⟩, _⟩ | ⟨_, more, drains⟩
  · cases claimed.symm.trans claimed'
    exact absurd rfl other
  · -- Its update waits, so a call of another thread is inside, and that thread is stuck too.
    obtain ⟨h, mh, there, other, inside⟩ := g.exists_inside more
    have mv := only.held h mh there
    rcases (free h.thread mv).cases g o with ⟨_, outside | waits⟩ | ⟨claimed', _⟩
    · omega
    · exact Or.inr ⟨u, mu, h.thread, mv, Ne.symm other, claimed, drains, inside, waits⟩
    · cases claimed.symm.trans claimed'
      exact absurd rfl other

/-! ### A call, and an update that waits for it -/

/-- One thread is inside a chain, another waits to update it, and a third waits to enter. -/
def awaited : Traffic :=
  ask (ask (ask quiet 1 0 "call" .enter) 2 0 "update" .claim) 3 0 "other" .enter

/-- The thread that is inside waits to update the chain as well. -/
def crossing : Traffic :=
  ask (ask (ask quiet 1 0 "call" .enter) 2 0 "update" .claim) 1 0 "update" .claim

/-- The tasks of the threads before the last request. -/
theorem parked_awaiting :
    (ask (ask quiet 1 0 "call" .enter) 2 0 "update" .claim).parked =
      [⟨1, 0, .done (.answered .granted)⟩, ⟨2, 0, .waiting ⟨2, "update", .claim, 0⟩ .drain⟩] :=
  rfl

theorem reachable_awaiting : Reachable (ask (ask quiet 1 0 "call" .enter) 2 0 "update" .claim) := by
  have first : Idle quiet 1 := fun _ m => by cases m
  have second : Idle (ask quiet 1 0 "call" .enter) 2 := by
    intro p m other
    have parked : (ask quiet 1 0 "call" .enter).parked = [⟨1, 0, .done (.answered .granted)⟩] :=
      rfl
    rw [parked, List.mem_singleton] at m
    simp [m] at other
  exact (Relation.ReflTransGen.single (Step.ask first rfl)).tail (Step.ask second rfl)

theorem one_can_go_on_in_awaited :
    Reachable awaited ∧ awaited.Only 0 {1, 2, 3} ∧
      ∃ t ∈ ({1, 2, 3} : Set ThreadId), ¬ awaited.Stuck 0 t := by
  have third : Idle (ask (ask quiet 1 0 "call" .enter) 2 0 "update" .claim) 3 := by
    intro p m other
    simp only [parked_awaiting, List.mem_cons, List.not_mem_nil, or_false] at m
    rcases m with rfl | rfl <;> cases other
  have r : Reachable awaited := reachable_awaiting.tail (Step.ask third rfl)
  have parked : awaited.parked = [⟨1, 0, .done (.answered .granted)⟩,
      ⟨2, 0, .waiting ⟨2, "update", .claim, 0⟩ .drain⟩,
      ⟨3, 0, .waiting ⟨3, "other", .enter, 0⟩ .enter⟩] := rfl
  have held : awaited.held = [⟨1, "call", .enter, 0⟩] := rfl
  have only : awaited.Only 0 {1, 2, 3} := by
    refine ⟨fun h m _ => ?_, fun p m _ => ?_⟩
    · simp only [held, List.mem_singleton] at m
      simp [m]
    · simp only [parked, List.mem_cons, List.not_mem_nil, or_false] at m
      rcases m with rfl | rfl | rfl <;> simp
  refine ⟨r, only, ?_⟩
  rcases (one_can_go_on_unless_updates_cross r ⟨1, by simp⟩ only).1 with
    free | ⟨u, _, v, _, crossed⟩
  · exact free
  · obtain ⟨p, m, _, _, wanted, waits⟩ := crossed.waits
    simp only [parked, List.mem_cons, List.not_mem_nil, or_false] at m
    rcases m with rfl | rfl | rfl <;> cases waits

/-- Two threads wait for each other for ever: one has a call inside, and both want to update. -/
theorem two_updates_can_block_each_other :
    ¬ ∀ (s : Traffic) (i : Nat) (threads : Set ThreadId), Reachable s → threads.Nonempty →
      s.Only i threads → ∃ t ∈ threads, ¬ s.Stuck i t := by
  intro never
  have inside : Idle (ask (ask quiet 1 0 "call" .enter) 2 0 "update" .claim) 1 := by
    intro p m other
    simp only [parked_awaiting, List.mem_cons, List.not_mem_nil, or_false] at m
    rcases m with rfl | rfl
    · exact ⟨_, rfl⟩
    · cases other
  have r : Reachable crossing := reachable_awaiting.tail (Step.ask inside rfl)
  have parked : crossing.parked = [⟨1, 0, .done (.answered .granted)⟩,
      ⟨2, 0, .waiting ⟨2, "update", .claim, 0⟩ .drain⟩,
      ⟨1, 0, .waiting ⟨1, "update", .claim, 0⟩ .claim⟩] := rfl
  have held : crossing.held = [⟨1, "call", .enter, 0⟩] := rfl
  have only : crossing.Only 0 {1, 2} := by
    refine ⟨fun h m _ => ?_, fun p m _ => ?_⟩
    · simp only [held, List.mem_singleton] at m
      simp [m]
    · simp only [parked, List.mem_cons, List.not_mem_nil, or_false] at m
      rcases m with rfl | rfl | rfl <;> simp
  obtain ⟨t, mt, free⟩ := never crossing 0 {1, 2} r ⟨1, by simp⟩ only
  refine free ?_
  rcases mt with rfl | rfl
  · exact ⟨_, by simp [parked]; exact Or.inr (Or.inr rfl), rfl, rfl, _, _, rfl, rfl⟩
  · exact ⟨_, by simp [parked]; exact Or.inr (Or.inl rfl), rfl, rfl, _, _, rfl, rfl⟩

end Traffic

end Detouring
