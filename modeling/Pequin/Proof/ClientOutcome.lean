import Pequin.Proof.Collect
import Pequin.Proof.Equivocation
import Pequin.Proof.Validate

/-!
# Decisions that a client reports

A shard client reports the decision of a transaction once `4f + 1` signed Phase2 decisions agree. It finds the
transaction by the request id or the digest of the envelope, and reads only the decision and the view of what is
signed. In a fallback it does so at every involved group, and takes a view that is not set for `0`.
-/

namespace Pequin

open Function List Option ShardClient ShardEvent Signature

section

variable (c : Configuration) (group : Nat) (d : Digest)

/-- A replica of the group, by its global id, has signed the decision in the view. -/
def Signature.Decides (dec : CommitDecision) (view : Nat) (s : Signature) : Prop :=
  s.processId / c.n = group ∧ s.signature.signer = s.processId ∧ ∃ g, s.signature.body = .phase2Decision dec d g view

/-- A decision of the transaction by a replica of the group; the client compares hosts only. -/
def SignedMessage.decidesFor (m : SignedMessage) : Bool :=
  !(isReplicaInGroup c m.processId group && verify m.processId m.data m.signature) ||
    m.processId / c.n == group && match m.signature.body with
      | .phase2Decision _ d' _ _ => d' == d
      | _ => false

def Phase2Reply.decidesFor (reply : Phase2Reply) : Bool :=
  reply.signedP2Decision.all fun m => m.decidesFor c group d

end

/-- The signatures that an event brings. -/
def ShardEvent.entries : ShardEvent → List Signature
  | .phase2Reply reply => (reply.signedP2Decision.map SignedMessage.entry).toList
  | .phase1FBReply _ msg _ => (msg.p2r.bind fun p2r => p2r.signedP2Decision.map SignedMessage.entry).toList
  | .phase2FBReply _ p2r _ => (p2r.signedP2Decision.map SignedMessage.entry).toList
  | _ => []

/-- A signature on the decision that was received. -/
def Backs (received : List Signature) (c : Configuration) (group : Nat) (d : Digest)
    (dec : CommitDecision) (view : Nat) (s : Signature) : Prop :=
  s ∈ received ∧ s.Decides c group d dec view

variable {received : List Signature} {c : Configuration} {group : Nat} {reply : Phase2Reply} {d : Digest}

theorem Phase2Reply.brings_of_decidesFor (hd : reply.decidesFor c group d = true)
    (hrec : ∀ s ∈ (reply.signedP2Decision.map SignedMessage.entry).toList, s ∈ received) :
    reply.Brings c group (Backs received c group d) := by
  intro m dec view h
  obtain ⟨hm, hgroup, hverify, hparse⟩ := verifiedP2Decision_eq_some h
  obtain ⟨hsigner, hwire⟩ := verify_iff.mp hverify
  rw [Phase2Reply.decidesFor, hm, all_some, SignedMessage.decidesFor, hgroup, hverify] at hd
  simp only [Bool.and_self, Bool.not_true, Bool.false_or, Bool.and_eq_true, beq_iff_eq] at hd
  obtain ⟨hmember, hd⟩ := hd
  split at hd
  · rename_i dec₁ d₁ g v hbody
    rw [beq_iff_eq] at hd
    subst hd
    rw [← hwire, hbody, parsePhase2Decision_wire] at hparse
    cases hparse
    refine ⟨hrec m.entry ?_, hmember, hsigner, g, hbody⟩
    rw [hm]
    exact mem_singleton_self _
  · cases hd

section Runs

variable (received) (c) (group) (digestOf : Transaction → Digest)

/-- `4f + 1` replicas of the log group have signed the decision, with view and digest. -/
def Report.Signed (r : Report) : Prop :=
  r.txnDigest = digestOf r.txn ∧ ∃ logGrp, getLogGroup r.txn r.txnDigest = some logGrp ∧
    Tally.Attained processId
      (Backs received c logGrp r.txnDigest r.outcome.decision r.outcome.view) c.quorumSize

/-- The group is the log group of the transaction. -/
def LoggedHere (txn : Transaction) (d : Digest) : Prop :=
  d = digestOf txn ∧ getLogGroup txn d = some group

/-- What the client keeps for its requests, and what it has reported, rests on received signatures. -/
structure ShardClient.Sound (s : ShardClient) : Prop where
  phase2s : ∀ id p, s.pendingPhase2s id = some p →
    p.Kept c (Backs received c group p.txnDigest) ∧ LoggedHere group digestOf p.txn p.txnDigest
  fallbacks : ∀ d fb, s.pendingFallbacks d = some fb →
    fb.Kept (Backs received c group fb.txnDigest) ∧ fb.txnDigest = d ∧ LoggedHere group digestOf fb.txn fb.txnDigest
  reports : ∀ r ∈ s.reports, r.Signed received c digestOf

/-- What is counted is a decision of the transaction it is filed under, and a fallback runs at the log group. -/
def ShardEvent.proper (s : ShardClient) : ShardEvent → Bool
  | .phase2Reply reply => (s.pendingPhase2s reply.reqId).all fun p => reply.decidesFor c group p.txnDigest
  | .phase1FB txn => getLogGroup txn (digestOf txn) == some group
  | .phase1FBReply d msg _ => msg.p2r.all fun p2r => p2r.decidesFor c group d
  | .phase2FBReply d p2r _ => p2r.decidesFor c group d
  | _ => true

variable {received} {c} {digestOf} {group} {s s' : ShardClient}

theorem LoggedHere.signed {txn : Transaction} {r : P2Outcome}
    (h : LoggedHere group digestOf txn d) (hr : r.Backed c (Backs received c group d)) :
    Report.Signed received c digestOf ⟨txn, d, r⟩ :=
  ⟨h.1, group, h.2, hr.1.attained hr.2.ge⟩

namespace ShardClient

theorem Sound.init : init.Sound received c group digestOf where
  phase2s _ _ h := by cases h
  fallbacks _ _ h := by cases h
  reports _ h := by cases h

section

variable (h : s.Sound received c group digestOf)
include h

theorem Sound.setPhase2 {id : Nat} {o : Option PendingPhase2} {n : Nat}
    (ho : ∀ p, o = some p → p.Kept c (Backs received c group p.txnDigest) ∧
      LoggedHere group digestOf p.txn p.txnDigest) :
    Sound received c group digestOf
      { s with lastReqId := n, pendingPhase2s := Function.update s.pendingPhase2s id o } where
  phase2s := (forall_update_iff s.pendingPhase2s fun _ o => ∀ p, o = some p →
    p.Kept c (Backs received c group p.txnDigest) ∧ LoggedHere group digestOf p.txn p.txnDigest).mpr
      ⟨ho, fun id _ => h.phase2s id⟩
  fallbacks := h.fallbacks
  reports := h.reports

theorem Sound.setFallback {o : Option PendingFB} (ho : ∀ fb, o = some fb →
      fb.Kept (Backs received c group fb.txnDigest) ∧ fb.txnDigest = d ∧
        LoggedHere group digestOf fb.txn fb.txnDigest) :
    Sound received c group digestOf { s with pendingFallbacks := Function.update s.pendingFallbacks d o } where
  phase2s := h.phase2s
  fallbacks := (forall_update_iff s.pendingFallbacks fun d o => ∀ fb, o = some fb →
    fb.Kept (Backs received c group fb.txnDigest) ∧ fb.txnDigest = d ∧
      LoggedHere group digestOf fb.txn fb.txnDigest).mpr
      ⟨ho, fun d _ => h.fallbacks d⟩
  reports := h.reports

theorem Sound.report {l : List Report} (hl : ∀ r ∈ l, r.Signed received c digestOf) : Sound received c group digestOf
    { s with reports := s.reports ++ l } where
  phase2s := h.phase2s
  fallbacks := h.fallbacks
  reports r hr := by
    rcases mem_append.mp hr with hr | hr
    · exact h.reports r hr
    · exact hl r hr

theorem Sound.update {fb : PendingFB} (hfb : s.pendingFallbacks d = some fb) {r : PendingFB × List FBCallback}
    (hr : PendingFB.Handled c (Backs received c group fb.txnDigest) fb r) :
    (s.update d r.1 r.2).Sound received c group digestOf := by
  obtain ⟨-, hd, hlog⟩ := h.fallbacks d fb hfb
  rw [← hr.txn, ← hr.txnDigest] at hlog
  refine (h.setFallback fun fb' he => ?_).report fun x hx => ?_
  · rw [← some.inj he]
    exact ⟨hr.txnDigest.symm ▸ hr.kept, hr.txnDigest.trans hd, hlog⟩
  obtain ⟨call, hcall, hc⟩ := mem_filterMap.mp hx
  split at hc
  · cases hc
    exact hlog.signed (hr.txnDigest.symm ▸ hr.backed _ hcall)
  · cases hc

theorem Sound.phase2Reply {zt : Bool} (hp : (phase2Reply reply).proper c group digestOf s = true)
    (hrec : ∀ x ∈ (phase2Reply reply).entries, x ∈ received)
    (hs : step c digestOf zt group s (.phase2Reply reply) = some s') : s'.Sound received c group digestOf := by
  simp only [step] at hs
  split at hs
  · cases hs
    exact h
  rename_i p hpend
  obtain ⟨hkept, hlog⟩ := h.phase2s _ p hpend
  rw [proper, hpend, all_some] at hp
  have hbrings : reply.Brings c group (Backs received c group p.txnDigest) :=
    Phase2Reply.brings_of_decidesFor hp hrec
  split at hs
  · rename_i p' he
    obtain ⟨htxn, hdig, hkept', -⟩ := hkept.handlePhase2Reply hbrings he
    cases hs
    refine h.setPhase2 fun q hq => ?_
    rw [← some.inj hq, htxn, hdig]
    exact ⟨hkept' rfl, hlog⟩
  · rename_i p' outcome he
    obtain ⟨htxn, hdig, -, hsigned⟩ := hkept.handlePhase2Reply hbrings he
    cases hs
    refine (h.setPhase2 fun q hq => by cases hq).report fun r hr => ?_
    rw [mem_singleton.mp hr, htxn, hdig]
    exact hlog.signed (hsigned outcome rfl)

theorem Sound.step {zt : Bool} {e : ShardEvent}
    (hp : e.proper c group digestOf s = true) (hrec : ∀ x ∈ e.entries, x ∈ received)
    (hs : step c digestOf zt group s e = some s') : s'.Sound received c group digestOf := by
  cases e with
  | phase2 txn =>
    simp only [ShardClient.step] at hs
    split at hs
    · rename_i hlog
      cases hs
      refine h.setPhase2 fun p hp => ?_
      rw [← some.inj hp]
      exact ⟨.new txn (digestOf txn), rfl, hlog⟩
    · cases hs
  | phase2Timeout reqId =>
    cases hs
    exact h.setPhase2 fun _ hp => by cases hp
  | phase2Reply reply => exact h.phase2Reply hp hrec hs
  | phase1FB txn =>
    simp only [ShardClient.step] at hs
    split at hs
    · cases hs
      refine h.setFallback fun fb hfb => ?_
      rw [← some.inj hfb]
      exact ⟨fun _ _ => ⟨.nil _, rfl⟩, rfl, rfl, beq_iff_eq.mp hp⟩
    · cases hs
  | phase1FBReply d msg active =>
    simp only [ShardClient.step] at hs
    split at hs
    · cases hs
      exact h
    rename_i fb hfb
    obtain ⟨hkept, rfl, -⟩ := h.fallbacks d fb hfb
    obtain ⟨r, hr, rfl⟩ := map_eq_some_iff.mp hs
    refine h.update hfb (hkept.handlePhase1FBReply (fun reply hm => ?_) hr)
    rw [proper, hm, all_some] at hp
    rw [entries, hm] at hrec
    exact Phase2Reply.brings_of_decidesFor hp hrec
  | phase2FBReply d p2r active =>
    simp only [ShardClient.step] at hs
    split at hs
    · cases hs
      exact h
    · rename_i fb hfb
      obtain ⟨hkept, rfl, -⟩ := h.fallbacks d fb hfb
      cases hs
      exact h.update hfb (hkept.processP2FBR (Phase2Reply.brings_of_decidesFor hp hrec) active rfl)
  | fbTimeout d =>
    simp only [ShardClient.step] at hs
    split at hs
    · cases hs
    · rename_i fb hfb
      obtain ⟨r, hr, rfl⟩ := map_eq_some_iff.mp hs
      exact h.update hfb (.of_quiet (h.fallbacks d fb hfb).1 (PendingFB.quiet_timeout hr))
  | stopP1FB d =>
    simp only [ShardClient.step] at hs
    split at hs
    · cases hs
      exact h
    · rename_i fb hfb
      cases hs
      exact h.update hfb (r := ({ fb with p1 := false }, []))
        (.of_quiet (h.fallbacks d fb hfb).1 (.of_calls nofun rfl rfl rfl))
  | invokeFB d view =>
    simp only [ShardClient.step] at hs
    split at hs
    · cases hs
      exact h
    · rename_i fb hfb
      cases hs
      exact h.update hfb (r := ({ fb with lastView := view }, []))
        (.of_quiet (h.fallbacks d fb hfb).1 (.of_calls nofun rfl rfl rfl))
  | cleanFB d =>
    cases hs
    exact h.setFallback fun _ hfb => by cases hfb

end

end ShardClient

/-- A decision is reported only if `4f + 1` distinct replicas of the log group have signed it, with view and digest. -/
theorem reported_decision_signed {zeroTimeout : Bool} {es : List ShardEvent}
    (h : Run.exec (step c digestOf zeroTimeout group) init es = some s)
    (hproper : Run.Meets (step c digestOf zeroTimeout group)
      (fun s e => e.proper c group digestOf s = true) init es) {r : Report} (hr : r ∈ s.reports) :
    r.txnDigest = digestOf r.txn ∧ ∃ logGrp, getLogGroup r.txn r.txnDigest = some logGrp ∧
      Tally.Attained processId (fun sig => sig ∈ es.flatMap ShardEvent.entries ∧
          sig.Decides c logGrp r.txnDigest r.outcome.decision r.outcome.view) (4 * c.f + 1) := by
  have hmeets := hproper.and_of_mem (Q := fun e => ∀ x ∈ e.entries, x ∈ es.flatMap entries)
    fun e he x hx => mem_flatMap.mpr ⟨e, he, hx⟩
  have hsound : s.Sound (es.flatMap entries) c group digestOf :=
    Run.exec_invariant_of_meets (fun hs hp he => hs.step hp.1 hp.2 he) .init hmeets h
  exact hsound.reports r hr

end Runs

def answeredRun (d : Digest) : List ShardEvent :=
  .phase2 sampleTxn :: [0, 1, 2, 3, 4].map fun r =>
    .phase2Reply ⟨0, some (.signedBy r (.phase2Decision .abort d 0 0))⟩

def viewsRun : List ShardEvent :=
  .phase1FB sampleTxn :: [0, 1, 2, 3, 4].map fun r =>
    .phase2FBReply [4] ⟨0, some (.signedBy r (.currentView 0 [4] r))⟩ true

def sampleShard (es : List ShardEvent) : Option ShardClient :=
  Run.exec (step sixReplicas.config sixReplicas.digestOf false 0) init es

/-- Nothing that was received is a signed decision for the digest. -/
def noDecisionFor (d : Digest) (es : List ShardEvent) : Bool :=
  (es.flatMap ShardEvent.entries).all fun s =>
    match s.signature.body with
    | .phase2Decision _ d' _ _ => d' != d
    | _ => true

theorem not_attained_of_noDecisionFor {group view : Nat}
    {dec : CommitDecision} {es : List ShardEvent} (h : noDecisionFor d es = true) :
    ¬ Tally.Attained processId (fun s => s ∈ es.flatMap entries ∧
      s.Decides c group d dec view) (4 * c.f + 1) := by
  rintro ⟨l, -, hall, hlen⟩
  obtain ⟨s, hs⟩ := exists_mem_of_length_pos (show 0 < l.length by omega)
  obtain ⟨hmem, -, -, g, hbody⟩ := hall s hs
  have hno := all_eq_true.mp h s hmem
  rw [hbody] at hno
  simp at hno

/-- A run that reports a decision of view `0` for the digest, without a signed one. -/
theorem exists_unsigned_report {es : List ShardEvent} {dec : CommitDecision}
    (h : ((sampleShard es).any fun s => s.reports.any fun r =>
      r.txnDigest = d ∧ r.outcome.decision = dec ∧ r.outcome.view = 0) = true) (hno : noDecisionFor d es = true) :
    ∃ s, sampleShard es = some s ∧ ∃ r ∈ s.reports, r.txnDigest = d ∧ r.outcome.decision = dec ∧
      r.outcome.view = 0 ∧ ¬ Tally.Attained processId
        (fun sig => sig ∈ es.flatMap entries ∧ sig.Decides sixReplicas.config 0 d dec 0) 5 := by
  obtain ⟨s, hs, hp⟩ := Run.exec_of_any h
  obtain ⟨r, hr, hfields⟩ := any_eq_true.mp hp
  obtain ⟨hd, hdec, hview⟩ := of_decide_eq_true hfields
  exact ⟨s, hs, r, hr, hd, hdec, hview, not_attained_of_noDecisionFor hno⟩

/-- Decisions of another transaction, and current views, are counted; nobody has signed one of the transaction. -/
theorem replayed_decisions : (∃ s, sampleShard (answeredRun [7]) = some s ∧
      ∃ r ∈ s.reports, r.txnDigest = sixReplicas.digestOf sampleTxn ∧ r.outcome.decision = .abort ∧ r.outcome.view = 0 ∧
        ¬ Tally.Attained processId (fun sig => sig ∈ (answeredRun [7]).flatMap ShardEvent.entries ∧
            sig.Decides sixReplicas.config 0 (sixReplicas.digestOf sampleTxn) .abort 0) 5) ∧
    (∃ s, sampleShard viewsRun = some s ∧ ∃ r ∈ s.reports, r.txnDigest = sixReplicas.digestOf sampleTxn ∧
        r.outcome.decision = .commit ∧ r.outcome.view = 0 ∧ ¬ Tally.Attained processId
          (fun sig => sig ∈ viewsRun.flatMap ShardEvent.entries ∧
            sig.Decides sixReplicas.config 0 (sixReplicas.digestOf sampleTxn) .commit 0) 5) :=
  ⟨exists_unsigned_report (by decide +kernel) (by decide +kernel),
    exists_unsigned_report (by decide +kernel) (by decide +kernel)⟩

theorem reported_decision_signed_answered :
    ∃ s, Run.Meets (step sixReplicas.config sixReplicas.digestOf false 0)
        (fun s e => e.proper sixReplicas.config 0 sixReplicas.digestOf s = true) init (answeredRun [4]) ∧
      sampleShard (answeredRun [4]) = some s ∧ ∃ r ∈ s.reports, ∃ logGrp, getLogGroup r.txn r.txnDigest = some logGrp ∧
        Tally.Attained processId (fun sig => sig ∈ (answeredRun [4]).flatMap ShardEvent.entries ∧
            sig.Decides sixReplicas.config logGrp r.txnDigest r.outcome.decision r.outcome.view) 5 := by
  have hm : Run.Meets (step sixReplicas.config sixReplicas.digestOf false 0)
      (fun s e => e.proper sixReplicas.config 0 sixReplicas.digestOf s = true) init (answeredRun [4]) := by
    decide +kernel
  have hany : ((sampleShard (answeredRun [4])).any fun s => s.reports.any fun _ => true) = true := by
    decide +kernel
  obtain ⟨s, hs, hp⟩ := Run.exec_of_any hany
  obtain ⟨r, hr, -⟩ := any_eq_true.mp hp
  exact ⟨s, hm, hs, r, hr, (reported_decision_signed hs hm hr).2⟩

end Pequin
