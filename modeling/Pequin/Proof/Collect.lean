import Pequin.Framework.Tally
import Pequin.Model.ShardClient

/-!
# What a shard client has collected

The handlers of Phase2 replies keep the signatures they count by view and decision. Here `P` is any property that the
signature of a decision in a view may have.

* `Phase2Reply.Brings`: a reply adds only signatures with the property.
-/

namespace Pequin

open FBCallback Option

variable {m : SignedMessage} {dec : CommitDecision} {r : PendingFB × List FBCallback} {c : Configuration}
  {group view : Nat} {reply : Phase2Reply} {P : CommitDecision → Nat → Signature → Prop} {p : PendingPhase2}
  {digestOf : Transaction → Digest} {zeroTimeout : Bool}

/-- Whatever decision the reply carries, its signature has the property. -/
def Phase2Reply.Brings (c : Configuration) (group : Nat) (P : CommitDecision → Nat → Signature → Prop)
    (reply : Phase2Reply) : Prop :=
  ∀ m dec view, verifiedP2Decision c group reply = some (m, dec, view) → P dec (view.getD 0) m.entry

theorem verifiedP2Decision_eq_some {view : Option Nat} (h : verifiedP2Decision c group reply = some (m, dec, view)) :
    reply.signedP2Decision = some m ∧ isReplicaInGroup c m.processId group = true ∧
      verify m.processId m.data m.signature = true ∧ parsePhase2Decision m.data = some (dec, view) := by
  unfold verifiedP2Decision at h
  split at h
  · cases h
  rename_i m' hm
  split at h
  · rename_i hchecks
    obtain ⟨hgroup, hverify⟩ := Bool.and_eq_true_iff.mp hchecks
    obtain ⟨p, hparse, hp⟩ := map_eq_some_iff.mp h
    cases hp
    exact ⟨hm, hgroup, hverify, hparse⟩
  · cases h

theorem parsePhase2Decision_wire (dec : CommitDecision) (d : Digest) (g view : Nat) :
    parsePhase2Decision (SignedBody.phase2Decision dec d g view).wire = some (dec, some view) := by
  cases dec <;> rfl

/-- The signatures are a quorum of different replicas, each with the property. -/
def P2Outcome.Backed (c : Configuration) (P : CommitDecision → Nat → Signature → Prop) (r : P2Outcome) : Prop :=
  Tally.Kept Signature.processId (P r.decision r.view) (r.sigs.map Signature.processId) r.sigs ∧
    r.sigs.length = c.quorumSize

/-- The signatures counted for each view and decision, still short of a quorum. -/
def PendingPhase2.Kept (c : Configuration) (P : CommitDecision → Nat → Signature → Prop) (p : PendingPhase2) : Prop :=
  ∀ view dec, Tally.Kept Signature.processId (P dec view)
      (p.manageP2ReplySigs view).replicasVerified ((p.manageP2ReplySigs view).decisionSigs dec) ∧
    ((p.manageP2ReplySigs view).decisionSigs dec).length < c.quorumSize

theorem PendingPhase2.Kept.new (txn : Transaction) (d : Digest) :
    PendingPhase2.Kept c P { txn := txn, txnDigest := d } :=
  fun _ _ => ⟨.nil _, Nat.succ_pos _⟩

/-- One more signature: only its own view and decision may now have a quorum. -/
theorem PendingPhase2.Kept.addSig (h : p.Kept c P) (hm : P dec view m.entry)
    (hnew : m.processId ∉ (p.manageP2ReplySigs view).replicasVerified) (view' : Nat) (dec' : CommitDecision) :
    Tally.Kept Signature.processId (P dec' view') ((p.addSig m dec view).manageP2ReplySigs view').replicasVerified
        (((p.addSig m dec view).manageP2ReplySigs view').decisionSigs dec') ∧ if view' = view ∧ dec' = dec then
        (((p.addSig m dec view).manageP2ReplySigs view').decisionSigs dec').length ≤ c.quorumSize
      else (((p.addSig m dec view).manageP2ReplySigs view').decisionSigs dec').length < c.quorumSize := by
  obtain ⟨hkept, hlen⟩ := h view' dec'
  unfold PendingPhase2.addSig
  by_cases hv : view' = view
  · subst hv
    by_cases hd : dec' = dec
    · subst hd
      simp only [Function.update_self, and_self, ↓reduceIte]
      refine ⟨hkept.cast hm hnew, ?_⟩
      rw [List.length_append, List.length_singleton]
      exact hlen
    · simpa [hd] using ⟨hkept.hear m.processId, hlen⟩
  · simpa [hv] using ⟨hkept, hlen⟩

/-- A reply leaves the signatures kept, or completes a quorum that they back. -/
theorem PendingPhase2.Kept.handlePhase2Reply (h : p.Kept c P)
    (hr : reply.Brings c group P) {p' : PendingPhase2} {out : Option P2Outcome}
    (he : p.handlePhase2Reply c group reply = (p', out)) :
    p'.txn = p.txn ∧ p'.txnDigest = p.txnDigest ∧ (out = none → p'.Kept c P) ∧ ∀ r, out = some r → r.Backed c P := by
  unfold PendingPhase2.handlePhase2Reply at he
  split at he
  · rename_i m dec view hv
    have hm : P dec view m.entry := hr m dec (some view) hv
    split at he
    · cases he
      exact ⟨rfl, rfl, fun _ => h, nofun⟩
    rename_i hnew
    have hadd := h.addSig hm hnew
    obtain ⟨hkept, hle⟩ := hadd view dec
    rw [if_pos ⟨rfl, rfl⟩] at hle
    cases he
    split
    · rename_i hq
      refine ⟨rfl, rfl, nofun, fun r hr => ?_⟩
      cases hr
      exact ⟨hkept.own, Nat.le_antisymm hle hq⟩
    · rename_i hq
      refine ⟨rfl, rfl, fun _ view' dec' => ?_, fun r hr => by cases hr⟩
      obtain ⟨hkept', hlen'⟩ := hadd view' dec'
      split at hlen'
      · rename_i heq
        obtain ⟨rfl, rfl⟩ := heq
        exact ⟨hkept', Nat.lt_of_not_le hq⟩
      · exact ⟨hkept', hlen'⟩
  · cases he
    exact ⟨rfl, rfl, fun _ => h, nofun⟩

/-- The signatures counted for each view and decision, with their number. -/
def PendingFB.Kept (P : CommitDecision → Nat → Signature → Prop) (fb : PendingFB) : Prop :=
  ∀ view dec, Tally.Kept Signature.processId (P dec view)
      (fb.pendingP2s view dec).replicasVerified (fb.pendingP2s view dec).p2ReplySigs ∧
    (fb.pendingP2s view dec).matchingReplies = (fb.pendingP2s view dec).p2ReplySigs.length

/-- Every quorum that is called up is backed. -/
def BackedCalls (c : Configuration) (P : CommitDecision → Nat → Signature → Prop) (calls : List FBCallback) : Prop :=
  ∀ r, phase2 r ∈ calls → r.Backed c P

/-- All upcalls but the one that asks for an election. -/
def FBCallback.acts : FBCallback → Bool
  | .invoke => false
  | _ => true

/-- A part of a handler that collects nothing: old views may be dropped, and no decision is called up. -/
structure PendingFB.Quiet (fb fb' : PendingFB) (calls : List FBCallback) : Prop where
  txn : fb'.txn = fb.txn
  txnDigest : fb'.txnDigest = fb.txnDigest
  votes : ∀ view dec, fb'.pendingP2s view dec = fb.pendingP2s view dec ∨ fb'.pendingP2s view dec = {}
  calls : ∀ r, phase2 r ∉ calls

/-- A part of `ProcessP2FBR` that counts nothing. It may forward replies once, which ends the collection of votes. -/
structure PendingFB.Forwards (fb fb' : PendingFB) (calls : List FBCallback) : Prop where
  txn : fb'.txn = fb.txn
  txnDigest : fb'.txnDigest = fb.txnDigest
  votes : ∀ view dec, fb'.pendingP2s view dec = fb.pendingP2s view dec ∨ fb'.pendingP2s view dec = {}
  pendingP1 : fb'.pendingP1 = fb.pendingP1
  p1 : fb'.p1 = true → fb.p1 = true
  calls : calls.filter acts = [] ∨
    fb.p1 = true ∧ fb'.p1 = false ∧ ∃ dec l, calls.filter acts = [.phase1B dec l]

namespace PendingFB

variable {fb fb' fb'' : PendingFB} {calls calls' : List FBCallback}

theorem Quiet.of_calls (hc : ∀ r, phase2 r ∉ calls) (ht : fb'.txn = fb.txn)
    (hd : fb'.txnDigest = fb.txnDigest) (hv : fb'.pendingP2s = fb.pendingP2s) : Quiet fb fb' calls :=
  ⟨ht, hd, fun _ _ => .inl (by rw [hv]), hc⟩

theorem Quiet.refl (fb : PendingFB) : Quiet fb fb [] := .of_calls nofun rfl rfl rfl

theorem Kept.of_quiet (h : fb.Kept P) (hq : Quiet fb fb' calls) : fb'.Kept P := by
  intro view dec
  rcases hq.votes view dec with e | e
  · rw [e]
    exact h view dec
  · rw [e]
    exact ⟨.nil _, rfl⟩

theorem Forwards.refl (fb : PendingFB) : Forwards fb fb [] :=
  ⟨rfl, rfl, fun _ _ => .inl rfl, rfl, id, .inl rfl⟩

theorem Forwards.trans (h : Forwards fb fb' calls) (h' : Forwards fb' fb'' calls') :
    Forwards fb fb'' (calls ++ calls') where
  txn := h'.txn.trans h.txn
  txnDigest := h'.txnDigest.trans h.txnDigest
  votes view dec := by
    rcases h'.votes view dec with e | e
    · rw [e]
      exact h.votes view dec
    · exact .inr e
  pendingP1 := h'.pendingP1.trans h.pendingP1
  p1 hp := h.p1 (h'.p1 hp)
  calls := by
    rw [List.filter_append]
    rcases h.calls with e | ⟨hopen, hclosed, dec, l, e⟩
    · rw [e, List.nil_append]
      exact h'.calls.imp_right fun ⟨hopen, hrest⟩ => ⟨h.p1 hopen, hrest⟩
    -- the votes are closed, so nothing more is forwarded
    have hclosed' : ¬fb''.p1 = true := fun hp => by cases hclosed.symm.trans (h'.p1 hp)
    rcases h'.calls with e' | ⟨hopen', -⟩
    · exact .inr ⟨hopen, Bool.eq_false_iff.mpr hclosed', dec, l, by rw [e, e', List.append_nil]⟩
    · cases hclosed.symm.trans hopen'

theorem Forwards.quiet (h : Forwards fb fb' calls) : Quiet fb fb' calls where
  txn := h.txn
  txnDigest := h.txnDigest
  votes := h.votes
  calls r hr := by
    have hmem : phase2 r ∈ calls.filter acts := List.mem_filter.mpr ⟨hr, rfl⟩
    rcases h.calls with e | ⟨-, -, dec, l, e⟩ <;> simp [e] at hmem

theorem forwards_forwardP2 (fb : PendingFB) (reply : Phase2Reply) (pid : Nat) (dec : CommitDecision) :
    Forwards fb (fb.forwardP2 c reply pid dec).1 (fb.forwardP2 c reply pid dec).2 := by
  have hs : Forwards fb (fb.storeReply reply pid dec) [] := by
    unfold storeReply
    split <;> exact ⟨rfl, rfl, fun _ _ => .inl rfl, rfl, id, .inl rfl⟩
  unfold forwardP2
  split
  · rename_i hopen
    simp only
    split
    · exact ⟨hs.txn, hs.txnDigest, hs.votes, hs.pendingP1, fun _ => hopen, .inr ⟨hopen, rfl, dec, _, rfl⟩⟩
    · exact hs
  · exact .refl fb

theorem forwards_raise (fb : PendingFB) (view : Nat) (raised : Bool) : Forwards fb (fb.raise view raised) [] := by
  cases raised <;> exact ⟨rfl, rfl, fun _ _ => .inl rfl, rfl, id, .inl rfl⟩

theorem forwards_diverge (fb : PendingFB) (view : Nat) :
    Forwards fb (fb.diverge c view).1 (fb.diverge c view).2 := by
  unfold diverge
  split
  · refine ⟨rfl, rfl, fun _ _ => .inl rfl, rfl, nofun, .inl ?_⟩
    split <;> rfl
  · exact .refl fb

theorem forwards_dropOld (fb : PendingFB) : Forwards fb fb.dropOld [] := by
  refine ⟨rfl, rfl, fun view dec => ?_, rfl, id, .inl rfl⟩
  rw [dropOld]
  by_cases h : (view + 1) % 2 ^ 64 < fb.maxDecisionView
  · exact .inr (by simp only [if_pos h])
  · exact .inl (by simp only [if_neg h])

theorem forwards_continueP2FBR (fb : PendingFB) (reply : Phase2Reply) (pid : Nat) (dec : CommitDecision)
    (view : Nat) (raised active : Bool) : Forwards fb (fb.continueP2FBR c reply pid dec view raised active).1
      (fb.continueP2FBR c reply pid dec view raised active).2.1 := by
  have h₁ := forwards_forwardP2 (c := c) fb reply pid dec
  have h₂ := forwards_diverge (c := c) (fb.forwardP2 c reply pid dec).1 view
  unfold continueP2FBR
  simp only
  split
  · exact h₁
  split
  · exact h₁.trans h₂
  · split
    · simpa using (h₁.trans h₂).trans (forwards_dropOld _)
    · exact h₁.trans h₂

/-- `ProcessP2FBR` ignores the reply, or it counts it and then completes a quorum or goes on. -/
theorem processP2FBR_cases {active : Bool} {r : PendingFB × List FBCallback × Bool}
    (he : fb.processP2FBR c group reply active = r) : r = (fb, [], false) ∨
      ∃ m dec view fb₁, verifiedP2Decision c group reply = some (m, dec, view) ∧
        m.processId ∉ (fb.pendingP2s (view.getD 0) dec).replicasVerified ∧
        Forwards (fb.count m dec (view.getD 0)) fb₁ [] ∧
        ((fb₁.pendingP2s (view.getD 0) dec).matchingReplies = c.quorumSize ∧ r = (fb₁,
            [.phase2 ⟨dec, view.getD 0, (fb₁.pendingP2s (view.getD 0) dec).p2ReplySigs⟩], true) ∨
          Forwards fb₁ r.1 r.2.1) := by
  unfold PendingFB.processP2FBR at he
  split at he
  · exact .inl he.symm
  rename_i m dec view hv
  simp only at he
  split at he
  · exact .inl he.symm
  split at he
  · exact .inl he.symm
  rename_i hnew
  have hraise := forwards_raise (fb.count m dec (view.getD 0)) (view.getD 0)
    ((fb.count m dec (view.getD 0)).raises c dec (view.getD 0))
  refine .inr ⟨m, dec, view, _, hv, hnew, hraise, ?_⟩
  split at he
  · rename_i hq
    exact .inl ⟨hq, he.symm⟩
  · subst he
    exact .inr (forwards_continueP2FBR _ _ _ _ _ _ _)

/-- After a handler: the signatures are kept, and each quorum that is called up is backed by them. -/
structure Handled (c : Configuration) (P : CommitDecision → Nat → Signature → Prop) (fb : PendingFB)
    (r : PendingFB × List FBCallback) : Prop where
  kept : r.1.Kept P
  txn : r.1.txn = fb.txn
  txnDigest : r.1.txnDigest = fb.txnDigest
  backed : BackedCalls c P r.2

theorem Handled.of_quiet (h : fb.Kept P) (hq : Quiet fb fb' calls) : Handled c P fb (fb', calls) :=
  ⟨h.of_quiet hq, hq.txn, hq.txnDigest, fun r hr => absurd hr (hq.calls r)⟩

theorem Handled.then (h : Handled c P fb (fb', calls)) (hq : Quiet fb' fb'' calls') :
    Handled c P fb (fb'', calls ++ calls') where
  kept := h.kept.of_quiet hq
  txn := hq.txn.trans h.txn
  txnDigest := hq.txnDigest.trans h.txnDigest
  backed r hr := by
    rcases List.mem_append.mp hr with hr | hr
    · exact h.backed r hr
    · exact absurd hr (hq.calls r)

theorem Kept.count (h : fb.Kept P) (hm : P dec view m.entry)
    (hnew : m.processId ∉ (fb.pendingP2s view dec).replicasVerified) : (fb.count m dec view).Kept P := by
  intro view' dec'
  obtain ⟨hkept, hlen⟩ := h view' dec'
  unfold PendingFB.count
  by_cases hv : view' = view
  · subst hv
    by_cases hd : dec' = dec
    · subst hd
      have hcast := hkept.cast hm hnew
      simp only [Function.update_self]
      exact ⟨hcast, by rw [List.length_append, List.length_singleton, hlen]⟩
    · simpa [hd] using ⟨hkept, hlen⟩
  · simpa [hv] using ⟨hkept, hlen⟩

theorem Kept.processP2FBR (h : fb.Kept P) (hr : reply.Brings c group P)
    (active : Bool) {r : PendingFB × List FBCallback × Bool}
    (he : fb.processP2FBR c group reply active = r) : Handled c P fb (r.1, r.2.1) := by
  rcases processP2FBR_cases he with rfl | ⟨m, dec, view, fb₁, hv, hnew, hraise, hrest⟩
  · exact .of_quiet h (.refl fb)
  have hkept := (h.count (hr m dec view hv) hnew).of_quiet hraise.quiet
  rcases hrest with ⟨hq, rfl⟩ | hrest
  · refine ⟨hkept, hraise.txn, hraise.txnDigest, fun r hr => ?_⟩
    cases List.mem_singleton.mp hr
    obtain ⟨hsigs, hlen⟩ := hkept (view.getD 0) dec
    exact ⟨hsigs.own, hlen.symm.trans hq⟩
  · exact ⟨hkept.of_quiet hrest.quiet, hrest.txn.trans hraise.txn, hrest.txnDigest.trans hraise.txnDigest,
      fun r hr => absurd hr (hrest.quiet.calls r)⟩

theorem Kept.processP2r (h : fb.Kept P) {p2r : Option Phase2Reply}
    (hr : ∀ reply, p2r = some reply → reply.Brings c group P) (active : Bool) :
    Handled c P fb ((fb.processP2r c group p2r active).1, (fb.processP2r c group p2r active).2.1) := by
  cases p2r with
  | none => exact .of_quiet h (.refl fb)
  | some p2r => exact h.processP2FBR (hr p2r rfl) active rfl

theorem quiet_processP1FBR {reply : Phase1Reply} (h : fb.processP1FBR c digestOf zeroTimeout group reply = some r) :
    Quiet fb r.1 r.2 := by
  obtain ⟨⟨p1, done⟩, -, rfl⟩ := map_eq_some_iff.mp h
  cases done <;> exact .of_calls (fun r hr => by simp at hr) rfl rfl rfl

theorem quiet_timeout (h : fb.timeout = some r) : Quiet fb r.1 r.2 := by
  unfold PendingFB.timeout at h
  split at h
  · obtain ⟨p1, -, rfl⟩ := map_eq_some_iff.mp h
    exact .of_calls (fun r hr => by simp at hr) rfl rfl rfl
  · cases h

theorem Kept.handlePhase1FBReply {zeroTimeout active : Bool}
    {msg : Phase1FBReply} (h : fb.Kept P) (hmsg : ∀ reply, msg.p2r = some reply → reply.Brings c group P)
    (he : fb.handlePhase1FBReply c digestOf zeroTimeout group msg active = some r) : Handled c P fb r := by
  unfold PendingFB.handlePhase1FBReply at he
  split at he
  · cases he
    exact .of_quiet h (.of_calls (fun r hr => by simp at hr) rfl rfl rfl)
  have hp2 := h.processP2r hmsg active
  simp only at he
  split at he
  · cases he
    exact hp2
  split at he
  · cases he
    exact hp2
  · obtain ⟨r', hr', rfl⟩ := map_eq_some_iff.mp he
    exact hp2.then (quiet_processP1FBR hr')

end PendingFB

end Pequin
