-- What is done to detours, to the machine and to the runtime leaves the chains of a manager alone,
-- whatever comes of it. Only what changes the books of a chain or its links is left to be looked
-- at.
import Detouring.Proofs.Detour.Aloof
import Detouring.Proofs.Detour.Records
import Detouring.Proofs.Hook.Relinking

namespace Detouring.World

open Op

variable {k : ChainKey} {next : Nat} {P P' : Option Chain → Prop} {α β : Type} {w w' : World}

/-! ## What a manager has on file -/

/-- The manager in hand has this on file about the method. The next hook will have at least the
number `next`. -/
structure OnFile (k : ChainKey) (next : Nat) (P : Option Chain → Prop) (w : World) : Prop where
  inHand : w.manager = some k.manager
  counted : ∃ m, w.manager? k.manager = some m ∧ next ≤ m.nextHook
  chain : P (w.chain? k)

namespace OnFile

theorem mono (o : OnFile k next P w) (h : ∀ c, P c → P' c) : OnFile k next P' w :=
  ⟨o.inHand, o.counted, h _ o.chain⟩

/-- What is on file is looked up. -/
theorem exactly {c : Chain} (o : OnFile k next P w) (here : w.chain? k = some c) :
    OnFile k next (· = some c) w := ⟨o.inHand, o.counted, here⟩

theorem congr (o : OnFile k next P w) (inHand : w'.manager = w.manager)
    (managers : w'.managers = w.managers) : OnFile k next P w' := by
  have found : w'.manager? k.manager = w.manager? k.manager := by
    unfold manager?
    rw [managers]
  have chain : w'.chain? k = w.chain? k := by
    unfold chain?
    rw [found]
  exact ⟨inHand.trans o.inHand, found ▸ o.counted, chain ▸ o.chain⟩

theorem beside (o : OnFile k next P w) (b : w.Beside w') : OnFile k next P w' :=
  o.congr b.manager b.managers

theorem rehook (o : OnFile k next P w) (hooks : List Hook) : OnFile k next P { w with hooks } :=
  o.congr rfl rfl

/-- The chain has changed. -/
theorem withChain (o : OnFile k next P w) {f : Chain → Chain}
    (same : ∀ c, (f c).method = c.method) (h : ∀ c, P c → P' (c.map f)) :
    OnFile k next P' (w.withChain k f) := by
  refine ⟨o.inHand, ?_, ?_⟩
  · obtain ⟨m, found, below⟩ := o.counted
    rw [manager?_withChain, found]
    exact ⟨_, rfl, below⟩
  · rw [chain?_withChain w k same]
    exact h _ o.chain

theorem rechain {c : Chain} (o : OnFile k next (· = some c) w) (f : Chain → Chain)
    (same : ∀ c, (f c).method = c.method) : OnFile k next (· = some (f c)) (w.withChain k f) :=
  o.withChain same fun _ there => congrArg (Option.map f) there

end OnFile

/-! ## Operations that leave it alone -/

/-- The operation leaves alone what the manager has on file about the method. -/
def Spares (k : ChainKey) (act : Op World α) : Prop := ∀ next P, Keeps (OnFile k next P) act

theorem aloof_onFile (k : ChainKey) (next : Nat) (P : Option Chain → Prop) :
    Aloof (OnFile k next P) :=
  ⟨fun w _ o => o.beside (w.beside_machine _), fun _ _ o => o.congr rfl rfl,
    fun _ _ _ o => o.congr rfl rfl⟩

namespace Spares

variable {act : Op World α}

theorem pure (a : α) : Spares k (Pure.pure a : Op World α) := fun _ _ => .pure a

theorem throw (e : Fault) : Spares k (MonadExcept.throw e : Op World α) := fun _ _ => .throw e

theorem lift (r : Except Fault α) : Spares k (liftM r : Op World α) := fun _ _ => .lift r

theorem get : Spares k (MonadState.get : Op World World) := fun _ _ => .get

theorem bind {following : α → Op World β} (h : Spares k act) (h' : ∀ a, Spares k (following a)) :
    Spares k (act >>= following) := fun next P => (h next P).bind fun a => h' a next P

theorem outcome (h : Spares k act) : Spares k act.outcome := fun next P => (h next P).outcome

theorem change {f : World → World} (inHand : ∀ w, (f w).manager = w.manager)
    (managers : ∀ w, (f w).managers = w.managers) : Spares k (Op.change f) :=
  fun _ _ => .change fun w o => o.congr (inHand w) (managers w)

theorem cleaning {cleanup : World → World} (inHand : ∀ w, (cleanup w).manager = w.manager)
    (managers : ∀ w, (cleanup w).managers = w.managers) (h : Spares k act) :
    Spares k (act.cleaning cleanup) :=
  fun next P => .cleaning (fun w o => o.congr (inHand w) (managers w)) (h next P)

theorem forM {act : β → Op World Unit} (l : List β) (h : ∀ b, Spares k (act b)) :
    Spares k (l.forM act) := fun next P => .forM l fun b => h b next P

theorem onMachine (act : Op Machine α) : Spares k (World.onMachine act) :=
  fun next P => (aloof_onFile k next P).onMachine act

theorem report (r : Report) : Spares k (World.report r) := onMachine (Op.change (·.report r))

theorem tell (e : Event) : Spares k (World.tell e) := change (fun _ => rfl) fun _ => rfl

theorem withDetour (id : Nat) {act : MethodDetour → Op World Unit} (h : ∀ d, Spares k (act d)) :
    Spares k (World.withDetour id act) :=
  fun next P => Aloof.withDetour id fun d => h d next P

theorem setDetour (d : MethodDetour) : Spares k (World.setDetour d) :=
  change (fun _ => rfl) fun _ => rfl

theorem updateDetour (id : Nat) (f : MethodDetour → MethodDetour) :
    Spares k (World.updateDetour id f) := withDetour id fun d => setDetour (f d)

theorem canonicalize (m : Method) : Spares k (World.canonicalize m) :=
  fun next P => (aloof_onFile k next P).canonicalize m

theorem pinIfNeeded (m : Method) : Spares k (World.pinIfNeeded m) := fun _ _ w o =>
  (pinIfNeeded_pinned w m).mono (fun _ _ q => o.beside q.1.quiet.toBeside) fun _ same => same ▸ o

theorem disableInlining (m : Method) : Spares k (World.disableInlining m) := fun _ _ w o =>
  (disableInlining_ends w m).mono (fun _ _ q => o.beside q.toBeside) fun _ q => o.beside q.toBeside

/-! ## Notices -/

theorem deliver (c : CompiledMethod) : Spares k (World.deliver c) :=
  fun next P => (aloof_onFile k next P).deliver c

theorem resolve (m : Method) : Spares k (World.resolve m) := fun next P _ o =>
  resolve_lasts (I := OnFile k next P)
    ⟨fun _ _ q o => o.beside q.toBeside, fun _ _ _ _ _ _ _ w o => deliver _ next P w o⟩ o

/-! ## Detours -/

theorem establish (d : MethodDetour) {beforePatch : Option Nat → Op World Unit}
    (h : ∀ entry, Spares k (beforePatch entry)) : Spares k (World.establish d beforePatch) := by
  have redirects (source target : Nat) : Spares k (redirect source target beforePatch) := by
    refine get.bind fun w => (onMachine _).bind fun plan => bind ?_ fun _ => onMachine _
    exact cleaning (fun _ => rfl) (fun _ => rfl) (h _)
  refine (pinIfNeeded _).bind fun pins => bind ?_ fun more => ?_
  · exact cleaning (fun _ => rfl) (fun _ => rfl) (pinIfNeeded _)
  refine cleaning (fun _ => rfl) (fun _ => rfl) ?_
  exact (resolve _).bind fun source => (resolve _).bind fun target =>
    (redirects source target).bind fun r => .pure _

theorem applyDetour (id : Nat) {beforePatch : Option Nat → Op World Unit}
    (h : ∀ entry, Spares k (beforePatch entry)) : Spares k (World.applyDetour id beforePatch) := by
  refine withDetour id fun d => ?_
  split
  · exact throw _
  · split
    · exact throw _
    · refine (setDetour _).bind fun _ => (establish d h).outcome.bind fun answer => ?_
      refine (updateDetour _ _).bind fun _ => (lift answer).bind fun _ => ?_
      exact (updateDetour _ _).bind fun _ => change (fun _ => rfl) fun _ => rfl

theorem undoDetour (id : Nat) : Spares k (World.undoDetour id) := by
  have withdraws (d : MethodDetour) (r : Redirection) : Spares k (withdraw d r) :=
    (onMachine _).bind fun answer => (onMachine _).bind fun _ => (setDetour _).bind fun _ =>
      (lift answer).bind fun _ => .pure _
  refine withDetour id fun d => ?_
  split
  · exact throw _
  · split
    · exact throw _
    · refine bind (fun next P => .optional _ fun r => withdraws d r next P) fun _ => ?_
      exact (updateDetour _ _).bind fun _ => change (fun _ => rfl) fun _ => rfl

theorem createDetour (factory : Nat) (source target : Method) :
    Spares k (World.createDetour factory source target false) := by
  refine (canonicalize _).bind fun source => (canonicalize _).bind fun target => ?_
  split
  · exact throw _
  · refine (disableInlining _).bind fun _ => get.bind fun w => bind ?_ fun _ => .pure _
    exact change (fun _ => rfl) fun _ => rfl

theorem releaseNode (node : ChainNode) : Spares k (Op.change (World.releaseNode k node)) :=
  change (fun w => (releaseNode_beside k node w).manager)
    fun w => (releaseNode_beside k node w).managers

end Spares

end Detouring.World
