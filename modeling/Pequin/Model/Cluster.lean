import Mathlib.Order.Interval.Finset.Nat
import Pequin.Framework.Run
import Pequin.Model.Replica

/-!
# The cluster

The replicas of all groups, a network that delivers messages in any order and any number of times, and clients and
Byzantine replicas that send what they like. A signature in a message is one that its signer has made before, unless
the signer is Byzantine. A `Node` is the entries of one replica for one digest, with everything it has signed for it.
-/

namespace Pequin

inductive Message where
  | phase1 (txn : Transaction) (isGossip : Bool)
  | phase1FB (txn : Transaction)
  | phase2 (msg : Phase2)
  | phase2FB (msg : Phase2FB)
  | invokeFB (msg : InvokeFB)
  | electFB (msg : SignedMessage)
  | decisionFB (msg : DecisionFB)
  | moveView (txnDigest : Digest) (view : Nat)
  | writeback (msg : Writeback)
  | supply (txnDigest : Digest) (proof : CommittedProof)
  deriving DecidableEq, Repr

structure Node where
  state : TxnState := {}
  /-- The messages signed for the digest. -/
  signed : List SignedBody := []

/-- What makes a node act: a message, a dispatched task that gets its turn, or the end of
the last dependency. -/
inductive Input where
  | message (msg : Message) (occ : OccOutcome)
  | task (i : Nat) (occ : OccOutcome)
  | wake (depsCommitted : Bool)
  deriving DecidableEq, Repr

def handleMessage (srv : Server) (d : Digest) (st : TxnState) (occ : OccOutcome) : Message → Act
  | .phase1 txn isGossip => handlePhase1 srv d st txn isGossip
  | .phase1FB txn => handlePhase1FB srv d st txn occ
  | .phase2 msg => handlePhase2 srv d st msg
  | .phase2FB msg => handlePhase2FB srv d st msg
  | .invokeFB msg => handleInvokeFB srv d st msg
  | .electFB msg => handleElectFB srv d st msg
  | .decisionFB msg => handleDecisionFB st msg
  | .moveView _ view => handleMoveView srv st view
  | .writeback msg => handleWriteback srv d st msg
  | .supply _ proof => processSuppliedTxn srv d st proof

/-- What a node does on an input. A wake-up is registered after `Prepare`. -/
def TxnState.act (srv : Server) (d : Digest) (st : TxnState) : Input → Act
  | .message msg occ => handleMessage srv d st occ msg
  | .task i occ =>
    match st.tasks[i]? with
    | none => (st, [])
    | some t => completeTask srv d { st with tasks := st.tasks.eraseIdx i } occ t
  | .wake depsCommitted =>
    if st.prepared || st.p1.result == some .wait then checkDependents srv d st depsCommitted
    else (st, [])

def Node.step (srv : Server) (d : Digest) (nd : Node) (inp : Input) : Node :=
  let a := nd.state.act srv d inp
  ⟨a.1, nd.signed ++ a.2⟩

/-- The digest a signed message is about. -/
def SignedBody.digest : SignedBody → Digest
  | .concurrencyControl _ d _ => d
  | .phase2Decision _ d _ _ => d
  | .electMessage _ d _ _ => d
  | .currentView _ d _ => d

def GroupedSignatures.sigs (gs : GroupedSignatures) : List Sig :=
  gs.flatMap fun g => g.2.map Signature.signature

def ProofSigs.sigs : ProofSigs → List Sig
  | .p1 gs => gs.sigs
  | .p2 gs _ => gs.sigs
  | .none => []

def WritebackSigs.sigs : WritebackSigs → List Sig
  | .p1 gs => gs.sigs
  | .p2 gs _ => gs.sigs
  | .conflict proof => proof.sigs.sigs
  | .none => []

def Phase2FB.sigs (m : Phase2FB) : List Sig :=
  (m.p1Sigs.elim [] GroupedSignatures.sigs) ++ (m.p2Replies.elim [] fun l => l.map SignedMessage.signature)

def Message.sigs : Message → List Sig
  | .phase1 _ _ => []
  | .phase1FB _ => []
  | .phase2 m => m.groupedSigs.sigs
  | .phase2FB m => m.sigs
  | .invokeFB m => (m.p2fb.elim [] Phase2FB.sigs) ++ (m.viewSigned.elim [] fun l => l.map SignedMessage.signature)
  | .electFB m => [m.signature]
  | .decisionFB m => m.electSigs.map Signature.signature
  | .moveView _ _ => []
  | .writeback m => m.sigs.sigs
  | .supply _ proof => proof.sigs.sigs

/-- The parameters shared by the servers, and the Byzantine replicas. -/
structure Cluster where
  config : Configuration
  allToAllFb : Bool
  cacheReadSet : Bool
  digestOf : Transaction → Digest
  byzantine : Nat → Bool

def Cluster.server (c : Cluster) (r : Nat) : Server where
  config := c.config
  groupIdx := r / c.config.n
  idx := r % c.config.n
  allToAllFb := c.allToAllFb
  cacheReadSet := c.cacheReadSet
  digestOf := c.digestOf

def Cluster.members (c : Cluster) (g : Nat) : Finset Nat :=
  Finset.Ico (g * c.config.n) ((g + 1) * c.config.n)

/-- The fault assumption: groups of `5f + 1` replicas, at most `f` of each group Byzantine. -/
structure Cluster.Tolerant (c : Cluster) : Prop where
  n_eq : c.config.n = 5 * c.config.f + 1
  faulty : ∀ g, ((c.members g).filter fun r => c.byzantine r).card ≤ c.config.f

/-- The digest under which a message is handled. -/
def Message.digest (digestOf : Transaction → Digest) : Message → Digest
  | .phase1 txn _ => digestOf txn
  | .phase1FB txn => digestOf txn
  | .phase2 m => m.txnDigest.getD (m.txn.elim [] digestOf)
  | .phase2FB m => m.txnDigest
  | .invokeFB m => m.txnDigest
  | .electFB m => m.data.bytes 2
  | .decisionFB m => m.txnDigest
  | .moveView d _ => d
  | .writeback m => m.txnDigest.getD (m.txn.elim [] digestOf)
  | .supply d _ => d

/-- All correct replicas, with their entries for every digest. -/
abbrev World := Nat → Digest → Node

namespace World

def init : World := fun _ _ => {}

def set (w : World) (r : Nat) (d : Digest) (nd : Node) : World :=
  Function.update w r (Function.update (w r) d nd)

/-- A signature that exists: its signer is Byzantine or has made it. -/
def genuine (c : Cluster) (w : World) (s : Sig) : Bool :=
  c.byzantine s.signer || (w s.signer s.body.digest).signed.contains s.body

end World

inductive Event where
  | deliver (r : Nat) (msg : Message) (occ : OccOutcome)
  | complete (r : Nat) (d : Digest) (i : Nat) (occ : OccOutcome)
  | wake (r : Nat) (d : Digest) (depsCommitted : Bool)
  deriving DecidableEq, Repr

namespace Event

def replica : Event → Nat
  | .deliver r _ _ => r
  | .complete r _ _ _ => r
  | .wake r _ _ => r

def digest (digestOf : Transaction → Digest) : Event → Digest
  | .deliver _ msg _ => msg.digest digestOf
  | .complete _ d _ _ => d
  | .wake _ d _ => d

def input : Event → Input
  | .deliver _ msg occ => .message msg occ
  | .complete _ _ i occ => .task i occ
  | .wake _ _ b => .wake b

def sigs : Event → List Sig
  | .deliver _ msg _ => msg.sigs
  | _ => []

end Event

namespace World

def step (c : Cluster) (w : World) (e : Event) : Option World :=
  if c.byzantine e.replica || !e.sigs.all (genuine c w) then none
  else
    let d := e.digest c.digestOf
    some (w.set e.replica d ((w e.replica d).step (c.server e.replica) d e.input))

theorem set_self (w : World) (r : Nat) (d : Digest) (nd : Node) : w.set r d nd r d = nd := by
  simp [set]

theorem set_of_ne (w : World) {r r' : Nat} {d d' : Digest} (nd : Node) (h : ¬ (r' = r ∧ d' = d)) :
    w.set r d nd r' d' = w r' d' := by
  by_cases hr : r' = r
  · subst hr
    have hd : d' ≠ d := fun hd => h ⟨rfl, hd⟩
    simp [set, hd]
  · simp [set, hr]

theorem step_eq {c : Cluster} {w w' : World} {e : Event} (h : step c w e = some w') :
    c.byzantine e.replica = false ∧ (∀ s ∈ e.sigs, genuine c w s = true) ∧ w' = w.set e.replica (e.digest c.digestOf)
        ((w e.replica (e.digest c.digestOf)).step (c.server e.replica) (e.digest c.digestOf) e.input) := by
  rw [step] at h
  split at h
  · cases h
  · rename_i hg
    rw [Bool.or_eq_true, not_or, Bool.not_eq_true, Bool.not_eq_true, Bool.not_eq_false'] at hg
    exact ⟨hg.1, List.all_eq_true.mp hg.2, (Option.some.inj h).symm⟩

theorem signed_mono_step {c : Cluster} {w w' : World} {e : Event} (h : step c w e = some w')
    {r : Nat} {d : Digest} {b : SignedBody} (hb : b ∈ (w r d).signed) : b ∈ (w' r d).signed := by
  obtain ⟨-, -, rfl⟩ := step_eq h
  by_cases hrd : r = e.replica ∧ d = e.digest c.digestOf
  · obtain ⟨rfl, rfl⟩ := hrd
    rw [set_self]
    exact List.mem_append_left _ hb
  · rw [set_of_ne _ _ hrd]
    exact hb

/-- A run changes only the nodes that act in it. -/
theorem exec_untouched {c : Cluster} {w w' : World} {es : List Event}
    (h : Run.exec (step c) w es = some w') {r : Nat} {d : Digest}
    (hno : (r, d) ∉ es.map fun e => (e.replica, e.digest c.digestOf)) : w' r d = w r d := by
  induction es generalizing w with
  | nil =>
    cases h
    rfl
  | cons e es ih =>
    rw [List.map_cons, List.mem_cons, not_or] at hno
    obtain ⟨w₁, hs, hrest⟩ := Run.exec_cons h
    obtain ⟨-, -, rfl⟩ := step_eq hs
    rw [ih hrest hno.2]
    exact set_of_ne _ _ fun hrd => hno.1 (by rw [hrd.1, hrd.2])

theorem node_invariant {c : Cluster} {ok : World → Event → Prop} {P : Nat → Digest → Node → Prop}
    (hinit : ∀ r d, P r d {}) (hstep : ∀ {w : World} {e : Event}, ok w e → c.byzantine e.replica = false →
      (∀ s ∈ e.sigs, genuine c w s = true) → P e.replica (e.digest c.digestOf) (w e.replica (e.digest c.digestOf)) →
      P e.replica (e.digest c.digestOf)
        ((w e.replica (e.digest c.digestOf)).step (c.server e.replica) (e.digest c.digestOf) e.input))
    {w : World} {es : List Event} (hm : Run.Meets (step c) ok init es)
    (h : Run.exec (step c) init es = some w) (r : Nat) (d : Digest) : P r d (w r d) := by
  refine Run.exec_invariant_of_meets (P := fun w => ∀ r d, P r d (w r d)) ?_ (fun r d => hinit r d)
    hm h r d
  intro w e w' hP hok hs r d
  obtain ⟨hb, hg, rfl⟩ := step_eq hs
  by_cases hrd : r = e.replica ∧ d = e.digest c.digestOf
  · obtain ⟨rfl, rfl⟩ := hrd
    rw [set_self]
    exact hstep hok hb hg (hP _ _)
  · rw [set_of_ne _ _ hrd]
    exact hP r d

end World

end Pequin
