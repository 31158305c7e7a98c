-- The laws of calls and updates, for every state that threads can come to: the accounts are
-- balanced, a refused request changes nothing, and an update that is held is alone in its chain.
import Detouring.Proofs.Concurrency.Traffic

namespace Detouring

namespace Traffic

/-! ## Giving back and keeping -/

/-- The account of a holding that is given up. -/
theorem Balanced.giveBack {s : Traffic} {h : Holding CallRequest}
    {held drains : List (Holding CallRequest)} (b : Balanced s.resources (h :: held) drains) :
    Balanced (s.giveBack h).resources held drains := by
  have offered := b.offered h List.mem_cons_self
  rcases h with ⟨t, name, _ | _ | _ | _, i⟩
  · exact b.close_call rfl
  · exact b.end_update rfl
  · cases offered
  · cases offered

theorem giveBack_all (given : List (Holding CallRequest)) (s : Traffic) :
    (given.foldl Schedule.giveBack s).held = s.held ∧
      (given.foldl Schedule.giveBack s).parked = s.parked := by
  induction given generalizing s with
  | nil => exact ⟨rfl, rfl⟩
  | cons h given ih => exact ih (s.giveBack h)

theorem Balanced.giveBack_all {held drains : List (Holding CallRequest)}
    (given : List (Holding CallRequest)) {s : Traffic}
    (b : Balanced s.resources (given ++ held) drains) :
    Balanced (given.foldl Schedule.giveBack s).resources held drains := by
  induction given generalizing s with
  | nil => exact b
  | cons h given ih => exact ih b.giveBack

theorem held_keep (s : Traffic) (h : Holding CallRequest) :
    (s.keep h).held =
      s.held.filter (fun x => !Schedule.Holding.named h.thread h.name h.request x) ++ [h] :=
  (giveBack_all _ _).1

theorem parked_keep (s : Traffic) (h : Holding CallRequest) : (s.keep h).parked = s.parked :=
  (giveBack_all _ _).2

theorem Balanced.keep {s : Traffic} {h : Holding CallRequest}
    {drains : List (Holding CallRequest)} (b : Balanced s.resources (h :: s.held) drains) :
    Balanced (s.keep h).resources (s.keep h).held drains := by
  rw [held_keep]
  apply Balanced.giveBack_all
  refine b.perm ?_ (List.Perm.refl _)
  have parts := List.filter_append_perm (Schedule.Holding.named h.thread h.name h.request) s.held
  calc (h :: s.held).Perm (s.held ++ [h]) := (List.perm_append_singleton h s.held).symm
    List.Perm _ _ := by
      rw [← List.append_assoc]
      exact parts.symm.append_right [h]

theorem Named.keep {s : Traffic} (h : Holding CallRequest) (n : Named s.held) :
    Named (s.keep h).held := by
  rw [held_keep]
  refine List.pairwise_append.mpr ⟨n.filter _, List.pairwise_singleton _ _, ?_⟩
  intro g m g' m'
  rw [List.mem_singleton] at m'
  subst m'
  have other := (List.mem_filter.mp m).2
  simp only [Schedule.Holding.named, Bool.not_eq_true'] at other ⊢
  grind

/-- A holding that is dropped is the only one of its name. -/
theorem Named.found {held : List (Holding CallRequest)} (n : Named held) {t : ThreadId}
    {name : String} {what : CallRequest} {h : Holding CallRequest}
    (found : held.find? (Schedule.Holding.named t name what) = some h) :
    held.Perm (h :: held.filter fun x => !Schedule.Holding.named t name what x) := by
  induction held with
  | nil => cases found
  | cons g held ih =>
    obtain ⟨first, n⟩ := List.pairwise_cons.mp n
    by_cases it : Schedule.Holding.named t name what g = true
    · rw [List.find?_cons_of_pos it] at found
      cases found
      have others : held.filter (fun x => !Schedule.Holding.named t name what x) = held := by
        refine List.filter_eq_self.mpr fun x m => ?_
        have := first x m
        simp only [Schedule.Holding.named] at it this ⊢
        grind
      simp [it, others]
    · rw [List.find?_cons_of_neg it] at found
      have rest := (ih n found).cons g
      simp only [List.filter_cons, it]
      exact rest.trans (List.Perm.swap _ _ _)

/-! ## One attempt -/

/-- What one attempt of a request comes to. -/
structure Tried (s s' : Traffic) (others : List (Holding CallRequest))
    (progress : TaskProgress CallRequest) : Prop where
  balanced : Balanced s'.resources s'.held (drainOf progress ++ others)
  awaits : Awaits progress
  named : Named s'.held
  parked : s'.parked = s.parked

theorem Tried.granted {s : Traffic} {others : List (Holding CallRequest)}
    (wanted : Holding CallRequest) {account : CallAccount} (n : Named s.held)
    (b : Balanced (fun j => if j = wanted.resource then account else s.resources j)
      (wanted :: s.held) others) :
    Tried s ((s.setResource wanted.resource account).keep wanted) others
      (.done (.answered .granted)) := by
  refine ⟨Balanced.keep b, ?_, Named.keep wanted n, parked_keep _ _⟩
  rintro _ _ ⟨⟩

theorem setResource_self (s : Traffic) (i : Nat) : s.setResource i (s.resources i) = s := by
  have : (fun j => if j = i then s.resources i else s.resources j) = s.resources := by
    funext j
    split <;> simp_all
  simp [Schedule.setResource, this]

theorem setResource_setResource (s : Traffic) (i : Nat) (a b : CallAccount) :
    (s.setResource i a).setResource i b = s.setResource i b := by
  have : (fun j => if j = i then b else if j = i then a else s.resources j) =
      fun j => if j = i then b else s.resources j := by
    funext j
    split <;> rfl
  simp [Schedule.setResource, this]

theorem Tried.unchanged {s : Traffic} {others : List (Holding CallRequest)}
    {progress : TaskProgress CallRequest} (i : Nat) (n : Named s.held)
    (b : Balanced s.resources s.held (drainOf progress ++ others)) (a : Awaits progress) :
    Tried s (s.setResource i (s.resources i)) others progress := by
  rw [setResource_self]
  exact ⟨b, a, n, rfl⟩

theorem tried_enter {s : Traffic} {others : List (Holding CallRequest)} (t : ThreadId)
    (name : String) (i : Nat) (n : Named s.held) (b : Balanced s.resources s.held others) :
    Tried s (s.attempt ⟨t, name, .enter, i⟩ .enter).1 others
      (s.attempt ⟨t, name, .enter, i⟩ .enter).2 := by
  simp only [Schedule.attempt, Waitable.attempt]
  rcases free : (s.resources i).updater with _ | u
  · have opened := b.open_call (t := t) name (Or.inl free)
    simp only [CallAccount.enter, free] at opened ⊢
    exact Tried.granted ⟨t, name, .enter, i⟩ n opened
  · by_cases mine : u = t
    · simp only [CallAccount.enter, free, mine, if_true]
      exact Tried.unchanged i n b (by rintro _ _ ⟨⟩)
    · by_cases inside : 0 < (s.resources i).depth t
      · have other : (s.resources i).updater ≠ some t := by simpa [free] using mine
        have opened := b.open_call (t := t) name (Or.inr ⟨other, inside⟩)
        simp only [CallAccount.enter, free, mine, inside, if_true, if_false] at opened ⊢
        exact Tried.granted ⟨t, name, .enter, i⟩ n opened
      · simp only [CallAccount.enter, free, mine, inside, if_false]
        refine Tried.unchanged i n b ?_
        rintro _ _ ⟨⟩
        exact ⟨rfl, Or.inl rfl⟩

theorem tried_drain {s : Traffic} {others : List (Holding CallRequest)}
    {wanted : Holding CallRequest} (n : Named s.held)
    (b : Balanced s.resources s.held (wanted :: others)) :
    Tried s (s.attempt wanted .drain).1 others (s.attempt wanted .drain).2 := by
  have claim := b.asked wanted List.mem_cons_self
  simp only [Schedule.attempt, Waitable.attempt]
  by_cases drained : (s.resources wanted.resource).active ≤
      (s.resources wanted.resource).depth wanted.thread
  · simp only [CallAccount.drain, drained, if_true]
    refine Tried.granted wanted n ?_
    have same : (fun j => if j = wanted.resource then s.resources wanted.resource
        else s.resources j) = s.resources :=
      congrArg Schedule.resources (setResource_self s wanted.resource)
    rw [same]
    exact b.finish_draining drained
  · simp only [CallAccount.drain, drained, if_false]
    refine Tried.unchanged _ n b ?_
    rintro _ _ ⟨⟩
    exact ⟨by rw [claim]; rfl, Or.inr ⟨claim, rfl⟩⟩

/-- An update that finds its chain free claims it and then tries to drain it. -/
theorem attempt_claim {s : Traffic} {wanted : Holding CallRequest}
    (free : (s.resources wanted.resource).updater = none) :
    s.attempt wanted .claim =
      (s.setResource wanted.resource
        { s.resources wanted.resource with updater := some wanted.thread }).attempt
          wanted .drain := by
  have found : (s.setResource wanted.resource
      { s.resources wanted.resource with updater := some wanted.thread }).resources
        wanted.resource = { s.resources wanted.resource with updater := some wanted.thread } := by
    simp [Schedule.setResource]
  simp only [Schedule.attempt, Waitable.attempt, CallAccount.claim, free, found,
    setResource_setResource]

theorem tried_claim {s : Traffic} {others : List (Holding CallRequest)} (t : ThreadId)
    (name : String) (i : Nat) (n : Named s.held) (b : Balanced s.resources s.held others) :
    Tried s (s.attempt ⟨t, name, .claim, i⟩ .claim).1 others
      (s.attempt ⟨t, name, .claim, i⟩ .claim).2 := by
  rcases free : (s.resources i).updater with _ | u
  · rw [attempt_claim free]
    have claimed := tried_drain (s := s.setResource i { s.resources i with updater := some t })
      n (b.begin_draining t name free)
    exact ⟨claimed.balanced, claimed.awaits, claimed.named, claimed.parked⟩
  · simp only [Schedule.attempt, Waitable.attempt]
    by_cases mine : u = t
    · simp only [CallAccount.claim, free, mine, if_true]
      exact Tried.unchanged i n b (by rintro _ _ ⟨⟩)
    · simp only [CallAccount.claim, free, mine, if_false]
      refine Tried.unchanged i n b ?_
      rintro _ _ ⟨⟩
      exact ⟨rfl, Or.inl rfl⟩

/-- Whatever a task waits for, one attempt leaves the accounts balanced. -/
theorem tried {s : Traffic} {others : List (Holding CallRequest)}
    {wanted : Holding CallRequest} {now : CallRequest} (n : Named s.held)
    (a : Awaits (.waiting wanted now))
    (b : Balanced s.resources s.held (drainOf (.waiting wanted now) ++ others)) :
    Tried s (s.attempt wanted now).1 others (s.attempt wanted now).2 := by
  obtain ⟨offered, rfl | ⟨claim, rfl⟩⟩ := a wanted now rfl
  · rcases wanted with ⟨t, name, _ | _ | _ | _, i⟩
    · exact tried_enter t name i n b
    · exact tried_claim t name i n b
    · cases offered
    · cases offered
  · exact tried_drain n b

/-! ## Every step -/

theorem draining_eq (s : Traffic) {earlier later : List (Parked CallRequest)}
    {p : Parked CallRequest} (parked : s.parked = earlier ++ p :: later) :
    (draining s).Perm (drainOf p.progress ++
      (earlier ++ later).flatMap fun p => drainOf p.progress) := by
  simp only [draining, parked, List.flatMap_append, List.flatMap_cons]
  rw [← List.append_assoc, ← List.append_assoc]
  exact List.perm_append_comm.append_right _

theorem good_tryParked {s : Traffic} {earlier later : List (Parked CallRequest)}
    {p : Parked CallRequest} {wanted : Holding CallRequest} {now : CallRequest}
    (n : Named s.held) (a : Awaits (.waiting wanted now))
    (around : ∀ q ∈ earlier ++ later, Awaits q.progress)
    (b : Balanced s.resources s.held (drainOf (.waiting wanted now) ++
      (earlier ++ later).flatMap fun q => drainOf q.progress)) :
    Good (tryParked s earlier later p wanted now) := by
  have t := tried n a b
  have drains := draining_eq (tryParked s earlier later p wanted now) rfl
  refine ⟨t.balanced.perm (List.Perm.refl _) drains.symm, ?_, t.named⟩
  intro q m
  rcases List.mem_append.mp m with m | m
  · exact around q (List.mem_append_left _ m)
  · rcases List.mem_cons.mp m with rfl | m
    · exact t.awaits
    · exact around q (List.mem_append_right _ m)

theorem good_drop {s : Traffic} (g : Good s) (t : ThreadId) (name : String)
    (what : CallRequest) : Good (s.drop t name what).1 := by
  rcases found : s.held.find? (Schedule.Holding.named t name what) with _ | h
  · simp only [Schedule.drop, found]
    exact g
  · simp only [Schedule.drop, found]
    have b := g.balanced.perm (g.named.found found) (List.Perm.refl _)
    exact ⟨Balanced.giveBack (s := { s with
        held := s.held.filter fun x => !Schedule.Holding.named t name what x }) b,
      g.awaits, g.named.filter _⟩

theorem good_join {s : Traffic} (g : Good s) {t : ThreadId} (idle : Idle s t) :
    Good (s.join t).1 := by
  rcases found : s.parked.find? (·.thread == t) with _ | p
  · simp only [Schedule.join, found]
    exact g
  · simp only [Schedule.join, found]
    refine ⟨?_, fun p m => g.awaits p (List.mem_filter.mp m).1, g.named⟩
    have same : draining { s with parked := s.parked.filter (·.thread != t) } = draining s := by
      unfold draining
      unfold Idle at idle
      dsimp only at idle ⊢
      generalize s.parked = parked at idle
      induction parked with
      | nil => rfl
      | cons p parked ih =>
        have ih := ih fun p m => idle p (List.mem_cons_of_mem _ m)
        by_cases mine : p.thread = t
        · obtain ⟨outcome, done⟩ := idle p List.mem_cons_self mine
          have none : drainOf p.progress = [] := by rw [done]; rfl
          simp [mine, ih, none]
        · simp [mine, ih]
    rw [same]
    exact g.balanced

theorem good_quiet : Good quiet := by
  refine ⟨⟨?_, ?_, ?_, ?_, ?_, ?_, ?_⟩, ?_, List.Pairwise.nil⟩ <;>
    simp [quiet, draining, CallAccount.isUpdating]

theorem good_step {s s' : Traffic} (g : Good s) (step : Step s s') : Good s' := by
  cases step with
  | @ask t i name what _ offered =>
    refine good_tryParked g.named ?_ (by simpa using g.awaits) ?_
    · rintro _ _ ⟨⟩
      exact ⟨offered, Or.inl rfl⟩
    · have none : drainOf (.waiting ⟨t, name, what, i⟩ what) = [] := by
        cases what <;> simp_all [drainOf, CallRequest.isOffered]
      rw [none, List.append_nil, List.nil_append]
      exact g.balanced
  | @retry earlier later p wanted now parked waits =>
    have mine : p ∈ s.parked := by simp [parked]
    refine good_tryParked g.named (waits ▸ g.awaits p mine) (fun q m => g.awaits q ?_) ?_
    · rw [parked]; simp at m ⊢; tauto
    · rw [← waits]
      exact g.balanced.perm (List.Perm.refl _) (draining_eq s parked)
  | leave _ => exact good_drop g _ _ _
  | endUpdate => exact good_drop g _ _ _
  | join idle => exact good_join g idle

theorem good_of_reachable {s : Traffic} (r : Reachable s) : Good s := by
  induction r with
  | refl => exact good_quiet
  | tail _ step ih => exact good_step ih step

/-! ## The scheduler

What the scheduler does with the requests that are handed over to it is one order of such
steps. -/

theorem keep_parked (s : Traffic) (parked : List (Parked CallRequest))
    (h : Holding CallRequest) :
    ({ s with parked }).keep h = { s.keep h with parked } := by
  have all (given : List (Holding CallRequest)) (s : Traffic) :
      given.foldl Schedule.giveBack { s with parked } =
        { given.foldl Schedule.giveBack s with parked } := by
    induction given generalizing s with
    | nil => rfl
    | cons g given ih => exact ih (s.giveBack g)
  exact all (s.held.filter (Schedule.Holding.named h.thread h.name h.request))
    { s with held :=
        s.held.filter (fun x => !Schedule.Holding.named h.thread h.name h.request x) ++ [h] }

/-- What is parked has no say in an attempt. -/
theorem attempt_parked (s : Traffic) (parked : List (Parked CallRequest))
    (wanted : Holding CallRequest) (now : CallRequest) :
    ({ s with parked }).attempt wanted now =
      ({ (s.attempt wanted now).1 with parked }, (s.attempt wanted now).2) := by
  simp only [Schedule.attempt]
  generalize Waitable.attempt (s.resources wanted.resource) wanted.thread now = tried
  obtain ⟨account, answer⟩ := tried
  cases answer with
  | granted =>
    exact Prod.ext (keep_parked (s.setResource wanted.resource account) parked wanted) rfl
  | passed | declined | refused | waits => rfl

theorem parked_attempt (s : Traffic) (wanted : Holding CallRequest) (now : CallRequest) :
    (s.attempt wanted now).1.parked = s.parked := by
  simpa using congrArg (fun r => r.1.parked) (attempt_parked s s.parked wanted now)

/-- What a round does with one parked task. -/
def settleNext (acc : Traffic) (p : Parked CallRequest) : Traffic :=
  match p.progress with
  | .waiting wanted now =>
    let (acc, progress) := acc.attempt wanted now
    { acc with parked := acc.parked ++ [{ p with progress }] }
  | .done _ => { acc with parked := acc.parked ++ [p] }

theorem settleOnce_eq (s : Traffic) :
    s.settleOnce = s.parked.foldl settleNext { s with parked := [] } := by
  unfold Schedule.settleOnce
  congr 1
  funext acc p
  unfold settleNext
  cases p.progress with
  | waiting wanted now => rfl
  | done outcome => rfl

theorem steps_settleNext (rest : List (Parked CallRequest)) (acc : Traffic) :
    Relation.ReflTransGen Step { acc with parked := acc.parked ++ rest }
      (rest.foldl settleNext acc) := by
  induction rest generalizing acc with
  | nil => simpa using Relation.ReflTransGen.refl
  | cons p rest ih =>
    rw [List.foldl_cons]
    rcases waits : p.progress with ⟨wanted, now⟩ | outcome
    · have step : Step { acc with parked := acc.parked ++ p :: rest } _ :=
        Step.retry rfl waits
      refine Relation.ReflTransGen.head step ?_
      simpa [tryParked, settleNext, waits, attempt_parked, parked_attempt] using
        ih (settleNext acc p)
    · simpa [settleNext, waits] using ih (settleNext acc p)

theorem steps_settleOnce (s : Traffic) : Relation.ReflTransGen Step s s.settleOnce := by
  rw [settleOnce_eq]
  exact steps_settleNext s.parked { s with parked := [] }

theorem steps_settle (s : Traffic) : Relation.ReflTransGen Step s s.settle := by
  unfold Schedule.settle
  generalize List.range (2 * s.parked.length) = rounds
  induction rounds generalizing s with
  | nil => exact Relation.ReflTransGen.refl
  | cons _ rounds ih => exact (steps_settleOnce s).trans (ih s.settleOnce)

theorem steps_handOver {s : Traffic} {t : ThreadId} (i : Nat) (name : String)
    {what : CallRequest} (idle : Idle s t) (offered : what.isOffered = true) :
    Relation.ReflTransGen Step s (s.handOver t i (.request name what)) := by
  have same : s.handOver t i (.request name what) = (ask s t i name what).settle := by
    simp only [Schedule.handOver, Schedule.start, ask, tryParked, parked_attempt]
  rw [same]
  exact Relation.ReflTransGen.head (Step.ask idle offered) (steps_settle _)

/-! ## The laws -/

/-- A request that is refused, or has to wait as it is, changes nothing at all. An update that
has claimed its chain is never refused. -/
theorem attempt_in_vain {s : Traffic} {wanted : Holding CallRequest} {now : CallRequest}
    (a : Awaits (.waiting wanted now))
    (vain : (s.attempt wanted now).2 = .waiting wanted wanted.request ∨
      ∃ e, (s.attempt wanted now).2 = .done (.answered (.refused e))) :
    now = wanted.request ∧ (s.attempt wanted now).1 = s := by
  have drain_not_vain (s : Traffic) (claim : wanted.request = .claim) :
      ¬ ((s.attempt wanted .drain).2 = .waiting wanted wanted.request ∨
        ∃ e, (s.attempt wanted .drain).2 = .done (.answered (.refused e))) := by
    simp only [Schedule.attempt, Waitable.attempt, CallAccount.drain]
    by_cases drained : (s.resources wanted.resource).active ≤
        (s.resources wanted.resource).depth wanted.thread
    · simp [drained]
    · simp [drained, claim]
  obtain ⟨offered, rfl | ⟨claim, rfl⟩⟩ := a wanted now rfl
  · refine ⟨rfl, ?_⟩
    rcases wanted with ⟨t, name, _ | _ | _ | _, i⟩
    · simp only [Schedule.attempt, Waitable.attempt, CallAccount.enter] at vain ⊢
      rcases free : (s.resources i).updater with _ | u
      · simp [free] at vain
      · by_cases mine : u = t
        · simp only [mine, if_true]
          exact setResource_self s i
        · by_cases inside : 0 < (s.resources i).depth t
          · simp [free, mine, inside] at vain
          · simp only [mine, inside, if_false]
            exact setResource_self s i
    · rcases free : (s.resources i).updater with _ | u
      · rw [attempt_claim free] at vain
        exact absurd vain (drain_not_vain _ rfl)
      · simp only [Schedule.attempt, Waitable.attempt, CallAccount.claim, free]
        by_cases mine : u = t
        · simp only [mine, if_true]
          exact setResource_self s i
        · simp only [mine, if_false]
          exact setResource_self s i
    · cases offered
    · cases offered
  · exact absurd vain (drain_not_vain s claim)

/-- Nobody enters a chain while an update of it is held: the updating thread is turned away, all
others wait. -/
theorem attempt_enter_of_held {s : Traffic} (g : Good s) {h : Holding CallRequest}
    (held : h ∈ s.held) (update : h.request = .claim) (u : ThreadId) (name : String) :
    s.attempt ⟨u, name, .enter, h.resource⟩ .enter =
      (s, if u = h.thread then .done (.answered (.refused .updateReentry))
        else .waiting ⟨u, name, .enter, h.resource⟩ .enter) := by
  have owner := g.balanced.owner h (List.mem_append_left _ held) update
  simp only [Schedule.attempt, Waitable.attempt, CallAccount.enter, owner]
  by_cases mine : u = h.thread
  · simp [mine, setResource_self]
  · have outside := g.balanced.alone h held update u mine
    simp [mine, Ne.symm mine, outside, setResource_self]

/-- In every state that threads can come to, in whatever order they act: the calls inside each
chain are those that the threads have open there; a request that is refused has changed nothing,
also while it waited before; and while an update of a chain is held, no other thread is inside
and nobody enters. -/
theorem an_update_has_its_chain_to_itself {s : Traffic} (r : Reachable s) :
    (∀ i, (Function.support (s.resources i).depth).Finite ∧
      (s.resources i).active = ∑ᶠ t, (s.resources i).depth t) ∧
    (∀ wanted now, Awaits (.waiting wanted now) →
      ((s.attempt wanted now).2 = .waiting wanted wanted.request ∨
        ∃ e, (s.attempt wanted now).2 = .done (.answered (.refused e))) →
      now = wanted.request ∧ (s.attempt wanted now).1 = s) ∧
    (∀ h ∈ s.held, h.request = .claim →
      (∀ u ≠ h.thread, (s.resources h.resource).depth u = 0) ∧
      ∀ u name, s.attempt ⟨u, name, .enter, h.resource⟩ .enter =
        (s, if u = h.thread then .done (.answered (.refused .updateReentry))
          else .waiting ⟨u, name, .enter, h.resource⟩ .enter)) := by
  have g := good_of_reachable r
  refine ⟨fun i => ?_, fun _ _ a vain => attempt_in_vain a vain, fun h held update => ?_⟩
  · have counted : (s.resources i).depth = fun t => s.held.countP (isCallBy i t) :=
      funext fun t => g.balanced.depth i t
    rw [counted, g.balanced.active]
    exact ⟨(finsum_isCallBy i s.held).1, (finsum_isCallBy i s.held).2.symm⟩
  · exact ⟨g.balanced.alone h held update, attempt_enter_of_held g held update⟩

/-- One thread updates a chain from inside a call of its own, and another waits to enter. -/
def busy : Traffic :=
  ask (ask (ask quiet 1 0 "outer" .enter) 1 0 "update" .claim) 2 0 "other" .enter

theorem busy_has_its_chain_to_itself :
    Reachable busy ∧ (⟨1, "update", .claim, 0⟩ : Holding CallRequest) ∈ busy.held ∧
      (busy.resources 0).depth 1 = 1 ∧ (busy.resources 0).depth 2 = 0 ∧
      (busy.resources 0).active = ∑ᶠ t, (busy.resources 0).depth t := by
  have first : Idle (ask quiet 1 0 "outer" .enter) 1 := by
    intro p m _
    have parked : (ask quiet 1 0 "outer" .enter).parked =
      [⟨1, 0, .done (.answered .granted)⟩] := rfl
    rw [parked, List.mem_singleton] at m
    exact ⟨_, by rw [m]⟩
  have second : Idle (ask (ask quiet 1 0 "outer" .enter) 1 0 "update" .claim) 2 := by
    intro p m other
    have parked : (ask (ask quiet 1 0 "outer" .enter) 1 0 "update" .claim).parked =
      [⟨1, 0, .done (.answered .granted)⟩, ⟨1, 0, .done (.answered .granted)⟩] := rfl
    simp only [parked, List.mem_cons, List.not_mem_nil, or_false, or_self] at m
    simp [m] at other
  have r : Reachable busy :=
    ((Relation.ReflTransGen.single (Step.ask (fun _ m => by cases m) rfl)).tail
      (Step.ask first rfl)).tail (Step.ask second rfl)
  have held : (⟨1, "update", .claim, 0⟩ : Holding CallRequest) ∈ busy.held := by
    have : busy.held = [⟨1, "outer", .enter, 0⟩, ⟨1, "update", .claim, 0⟩] := rfl
    simp [this]
  obtain ⟨counts, _, updates⟩ := an_update_has_its_chain_to_itself r
  exact ⟨r, held, rfl, (updates _ held rfl).1 2 (by decide), (counts 0).2⟩

end Traffic

end Detouring
