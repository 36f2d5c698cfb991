import Pequin.Proof.Collect

/-!
# The votes a shard client has collected

`ProcessP1R` counts the votes of a group and keeps their signatures, until they decide. Here `V` is any property that
the signature of a vote may have, and `X` one of the conflict that an abort carries.
-/

namespace Pequin

open FBCallback Option Phase1Validator

variable {v : Phase1Validator} {cc : ConcurrencyControl} {calls : List FBCallback} {c : Configuration} {group : Nat}
  {digestOf : Transaction → Digest} {zeroTimeout : Bool} {V : Result → Signature → Prop} {X : CommittedProof → Prop}

section Votes

variable {txn : Transaction} {d : Digest} {p : PendingPhase1}

/-- The votes that the state of a validator stands for. -/
def Phase1Validator.Reached (c : Configuration) (v : Phase1Validator) : Prop :=
  match v.state with
  | .notEnough => True
  | .fastAbort => True
  | .fastCommit => v.commits = c.n
  | .slowCommitTentative => c.slowCommitQuorumSize ≤ v.commits
  | .slowCommitFinal => c.slowCommitQuorumSize ≤ v.commits
  | .fastAbstain => c.fastAbortQuorumSize ≤ v.abstains
  | .slowAbortTentative => c.slowAbortQuorumSize ≤ v.abstains
  | .slowAbortTentative2 => c.slowAbortQuorumSize ≤ v.abstains
  | .slowAbortFinal => c.slowAbortQuorumSize ≤ v.abstains

theorem Phase1Validator.Reached.commit (h : v.Reached c) (hs : v.state ≠ .fastCommit) : (v.commit c).Reached c := by
  unfold Phase1Validator.commit
  simp only
  split
  · assumption
  split
  · rename_i hq
    exact hq.1
  split
  · assumption
  · -- the state stays, and the commits have grown
    unfold Reached at h ⊢
    cases hv : v.state <;> simp only [hv] at h hs ⊢ <;> first | trivial | omega

theorem Phase1Validator.Reached.abstain (h : v.Reached c) : (v.abstain c).Reached c := by
  unfold Phase1Validator.abstain
  simp only
  split
  · assumption
  split
  · rename_i hs
    unfold Reached at h ⊢
    simpa only [hs] using h
  split
  · rename_i hq
    exact hq.1
  split
  · assumption
  split
  · rename_i hq
    exact hq.1
  · unfold Reached at h ⊢
    cases hv : v.state <;> simp only [hv] at h ⊢ <;> first | trivial | omega

theorem Phase1Validator.commit_state_ne (h : v.state ≠ .fastAbort) : (v.commit c).state ≠ .fastAbort := by
  unfold Phase1Validator.commit
  simp only
  repeat' split
  all_goals first | assumption | simp

theorem Phase1Validator.abstain_state_ne (h : v.state ≠ .fastAbort) : (v.abstain c).state ≠ .fastAbort := by
  unfold Phase1Validator.abstain
  simp only
  repeat' split
  all_goals first | assumption | simp

/-- What a reply may add: a signed vote has the property `V`, and a conflict has `X`. -/
structure Phase1Reply.Brings (c : Configuration) (group : Nat) (d : Digest) (V : Result → Signature → Prop)
    (X : CommittedProof → Prop) (reply : Phase1Reply) : Prop where
  signed : ∀ m cc, reply.signedCC = some m → isReplicaInGroup c m.processId group = true →
    verify m.processId m.data m.signature = true → parseCC m.data = some cc → cc.txnDigest = d →
    V cc.ccr m.entry ∧ X cc.committedConflict
  unsigned : ∀ cc, reply.cc = some cc → cc.ccr = .abort → X cc.committedConflict

/-- The votes collected, as long as they do not decide. -/
structure PendingPhase1.Kept (c : Configuration) (V : Result → Signature → Prop) (p : PendingPhase1) : Prop where
  sigs : ∀ r, Tally.Kept Signature.processId (V r) p.replicasVerified (p.p1ReplySigs r)
  commits : (p.p1ReplySigs .commit).length = p.validator.commits
  abstains : (p.p1ReplySigs .abstain).length = p.validator.abstains
  reached : p.validator.Reached c
  timer : ∀ dec, p.timer = some dec → p1QuorumSize c dec false ≤ (p.p1ReplySigs (ccrOf dec)).length
  conflict : p.conflict = none

def ValidConflict (c : Configuration) (digestOf : Transaction → Digest) (txn : Transaction)
    (X : CommittedProof → Prop) (proof : CommittedProof) : Prop :=
  validateCommittedConflict c proof (digestOf proof.txn) txn = true ∧ X proof

/-- The votes and the proof behind a decision of Phase1. -/
structure PendingPhase1.Decided (c : Configuration) (digestOf : Transaction → Digest) (txn : Transaction)
    (V : Result → Signature → Prop) (X : CommittedProof → Prop) (p : PendingPhase1) : Prop where
  sigs : ∀ r, Tally.Kept Signature.processId (V r) p.replicasVerified (p.p1ReplySigs r)
  slowCommit : p.decision = .commit → p.fast = false → c.slowCommitQuorumSize ≤ (p.p1ReplySigs .commit).length
  fastCommit : p.decision = .commit → p.fast = true → (p.p1ReplySigs .commit).length = c.n
  abort : p.decision = .abort → p.conflict = none → p1QuorumSize c .abort p.fast ≤ (p.p1ReplySigs .abstain).length
  conflict : ∀ x, p.conflict = some x → p.decision = .abort ∧ p.fast = true ∧ ValidConflict c digestOf txn X x

namespace PendingPhase1

theorem Kept.new : PendingPhase1.Kept c V {} where
  sigs _ := .nil _
  commits := rfl
  abstains := rfl
  reached := trivial
  timer _ h := by cases h
  conflict := rfl

theorem Kept.hear (h : p.Kept c V) (id : Nat) :
    PendingPhase1.Kept c V { p with replicasVerified := id :: p.replicasVerified } :=
  { h with sigs := fun r => (h.sigs r).hear id }

theorem Kept.decided_slow (h : p.Kept c V) {dec : CommitDecision} {b : Bool}
    (hq : p1QuorumSize c dec false ≤ (p.p1ReplySigs (ccrOf dec)).length) :
    PendingPhase1.Decided c digestOf txn V X { p with decision := dec, fast := false, firstDecision := b } where
  sigs := h.sigs
  slowCommit hd _ := by
    cases hd
    exact hq
  fastCommit _ hf := by cases hf
  abort hd _ := by
    cases hd
    exact hq
  conflict x hx := by
    rw [h.conflict] at hx
    cases hx

variable {r : PendingPhase1 × Bool}

theorem Kept.tentative (h : p.Kept c V) {dec : CommitDecision}
    (hq : p1QuorumSize c dec false ≤ (p.p1ReplySigs (ccrOf dec)).length) (he : p.tentative zeroTimeout dec = r) :
    (r.2 = false → r.1.Kept c V) ∧ (r.2 = true → r.1.Decided c digestOf txn V X) := by
  unfold PendingPhase1.tentative at he
  split at he
  · subst he
    exact ⟨nofun, fun _ => h.decided_slow hq⟩
  split at he
  · subst he
    exact ⟨fun _ => h, nofun⟩
  · subst he
    refine ⟨fun _ => { h with timer := fun dec' hd => ?_ }, nofun⟩
    cases hd
    exact hq

theorem Kept.decide (h : p.Kept c V) {conflict : CommittedProof}
    (hx : p.validator.state = .fastAbort → ValidConflict c digestOf txn X conflict)
    (he : p.decide zeroTimeout conflict = r) :
    (r.2 = false → r.1.Kept c V) ∧ (r.2 = true → r.1.Decided c digestOf txn V X) := by
  have hreached := h.reached
  have hnone : ∀ x, p.conflict = some x → False := fun x hx => by rw [h.conflict] at hx; cases hx
  unfold PendingPhase1.decide at he
  unfold Reached at hreached
  split at he <;> rename_i hs <;> simp only [hs] at hreached
  · subst he
    exact ⟨fun _ => h, nofun⟩
  · subst he
    refine ⟨nofun, fun _ => ⟨h.sigs, nofun, fun _ _ => ?_, nofun, fun x hx => (hnone x hx).elim⟩⟩
    exact h.commits.trans hreached
  · subst he
    refine ⟨nofun, fun _ => ⟨h.sigs, nofun, nofun, nofun, fun x hx' => ?_⟩⟩
    cases hx'
    exact ⟨rfl, rfl, hx hs⟩
  · subst he
    refine ⟨nofun, fun _ => ⟨h.sigs, nofun, nofun, fun _ _ => ?_, fun x hx => (hnone x hx).elim⟩⟩
    exact hreached.trans_eq h.abstains.symm
  · subst he
    exact ⟨nofun, fun _ => h.decided_slow (hreached.trans_eq h.commits.symm)⟩
  · subst he
    exact ⟨nofun, fun _ => h.decided_slow (hreached.trans_eq h.abstains.symm)⟩
  · refine h.tentative ?_ he
    exact hreached.trans_eq h.commits.symm
  · refine h.tentative ?_ he
    exact hreached.trans_eq h.abstains.symm
  · refine h.tentative ?_ he
    exact hreached.trans_eq h.abstains.symm

/-- A message that is accepted is for the transaction, and has a valid conflict or is a vote that is counted. -/
theorem processMessage_eq_some {v' : Phase1Validator} (h : v.processMessage c digestOf txn d cc = some v') :
    cc.txnDigest = d ∧ v.state ≠ .fastCommit ∧ v.state ≠ .fastAbort ∧
      ((cc.ccr = .abort ∧ v' = { v with state := .fastAbort } ∧
          validateCommittedConflict c cc.committedConflict (digestOf cc.committedConflict.txn) txn = true) ∨
        (cc.ccr = .commit ∧ v' = v.commit c) ∨ (cc.ccr = .abstain ∧ v' = v.abstain c)) := by
  unfold processMessage at h
  split at h
  · cases h
  rename_i hd
  split at h
  · cases h
  rename_i hs
  rw [not_or] at hs
  refine ⟨not_not.mp hd, hs.1, hs.2, ?_⟩
  split at h
  · rename_i hccr
    split at h
    · rename_i hvalid
      exact .inl ⟨hccr, (some.inj h).symm, hvalid⟩
    · cases h
  · rename_i hccr
    exact .inr (.inl ⟨hccr, (some.inj h).symm⟩)
  · rename_i hccr
    exact .inr (.inr ⟨hccr, (some.inj h).symm⟩)
  all_goals cases h

theorem addSig_length (r r' : Result) (s : Signature) :
    ((p.addSig r s).p1ReplySigs r').length = (p.p1ReplySigs r').length + if r' = r then 1 else 0 := by
  unfold addSig
  by_cases h : r' = r
  · subst h
    simp
  · simp [h]

theorem Kept.vote (h : p.Kept c V) {m : SignedMessage} (hnew : m.processId ∉ p.replicasVerified) (hV : V cc.ccr m.entry)
    (hv : p.validator.processMessage c digestOf txn d cc = some v) :
    (addSig { p with replicasVerified := m.processId :: p.replicasVerified, validator := v } cc.ccr m.entry).Kept
      c V := by
  obtain ⟨-, hfast, -, hcases⟩ := processMessage_eq_some hv
  refine ⟨fun r => ?_, ?_, ?_, ?_, fun dec hd => ?_, h.conflict⟩
  · unfold addSig
    by_cases hr : r = cc.ccr
    · subst hr
      simp only [Function.update_self]
      exact (h.sigs cc.ccr).cast hV hnew
    · simp only [Function.update_of_ne hr]
      exact (h.sigs r).hear m.processId
  · rw [addSig_length]
    show (p.p1ReplySigs .commit).length + _ = v.commits
    rw [h.commits]
    rcases hcases with ⟨hr, rfl, -⟩ | ⟨hr, rfl⟩ | ⟨hr, rfl⟩ <;>
      simp [hr, Phase1Validator.commit, Phase1Validator.abstain]
  · rw [addSig_length]
    show (p.p1ReplySigs .abstain).length + _ = v.abstains
    rw [h.abstains]
    rcases hcases with ⟨hr, rfl, -⟩ | ⟨hr, rfl⟩ | ⟨hr, rfl⟩ <;>
      simp [hr, Phase1Validator.commit, Phase1Validator.abstain]
  · show v.Reached c
    rcases hcases with ⟨-, rfl, -⟩ | ⟨-, rfl⟩ | ⟨-, rfl⟩
    · trivial
    · exact h.reached.commit hfast
    · exact h.reached.abstain
  · rw [addSig_length]
    exact (h.timer dec hd).trans (Nat.le_add_right _ _)

theorem validConflict_of_state {v' : Phase1Validator}
    (h : v.processMessage c digestOf txn d cc = some v') (hX : cc.ccr = .abort → X cc.committedConflict)
    (hs : v'.state = .fastAbort) : ValidConflict c digestOf txn X cc.committedConflict := by
  obtain ⟨-, -, hne, ⟨hr, -, hvalid⟩ | ⟨-, rfl⟩ | ⟨-, rfl⟩⟩ := processMessage_eq_some h
  · exact ⟨hvalid, hX hr⟩
  · exact absurd hs (commit_state_ne hne)
  · exact absurd hs (abstain_state_ne hne)

theorem Kept.processP1R (h : p.Kept c V) {reply : Phase1Reply} (hr : reply.Brings c group d V X)
    (he : p.processP1R c digestOf zeroTimeout group txn d reply = some r) :
    (r.2 = false → r.1.Kept c V) ∧ (r.2 = true → r.1.Decided c digestOf txn V X) := by
  have hignored : ∀ {q : PendingPhase1}, q.Kept c V → some (q, false) = some r →
      (r.2 = false → r.1.Kept c V) ∧ (r.2 = true → r.1.Decided c digestOf txn V X) := by
    rintro q hq hqr
    cases hqr
    exact ⟨fun _ => hq, nofun⟩
  unfold PendingPhase1.processP1R at he
  split at he
  · -- an abort that comes without a signature
    rename_i cc hcc
    obtain ⟨hmem, habort⟩ := filter_eq_some_iff.mp hcc
    have hccr : cc.ccr = .abort := by simpa using habort
    unfold processVote at he
    split at he
    · cases he
    rename_i v hv
    obtain ⟨-, -, -, ⟨-, rfl, -⟩ | ⟨hr', -⟩ | ⟨hr', -⟩⟩ := processMessage_eq_some hv
    · refine Kept.decide (p := { p with validator := { p.validator with state := .fastAbort } })
        ⟨h.sigs, h.commits, h.abstains, trivial, h.timer, h.conflict⟩
        (validConflict_of_state hv (hr.unsigned cc hmem)) (some.inj he)
    · rw [hccr] at hr'
      cases hr'
    · rw [hccr] at hr'
      cases hr'
  · split at he
    · exact hignored h he
    rename_i m hm
    split at he
    · exact hignored h he
    rename_i hnew
    simp only at he
    split at he
    · exact hignored (h.hear m.processId) he
    rename_i hchecks
    simp only [Bool.or_eq_true, Bool.not_eq_true', not_or, Bool.not_eq_false] at hchecks
    split at he
    · exact hignored (h.hear m.processId) he
    rename_i cc hparse
    unfold processVote at he
    split at he
    · cases he
    · rename_i v hv
      have hd := (processMessage_eq_some hv).1
      obtain ⟨hV, hX⟩ := hr.signed m cc hm hchecks.1 hchecks.2 hparse hd
      exact (h.vote hnew hV hv).decide (validConflict_of_state hv fun _ => hX) (some.inj he)

theorem Kept.timeout (h : p.Kept c V) {p' : PendingPhase1} (he : p.timeout = some p') :
    p'.Decided c digestOf txn V X := by
  obtain ⟨dec, hdec, rfl⟩ := map_eq_some_iff.mp he
  exact h.decided_slow (h.timer dec hdec)

end PendingPhase1

end Votes

section FallbackVotes

variable {active : Bool} {fb fb' : PendingFB}

/-- What a handler may call up, at most one thing apart from an election. -/
inductive PendingFB.Upcall (c : Configuration) (digestOf : Transaction → Digest)
    (V : Result → Signature → Prop) (X : CommittedProof → Prop) (fb fb' : PendingFB) : List FBCallback → Prop
  | none : Upcall c digestOf V X fb fb' []
  | writeback (wb : Writeback) : Upcall c digestOf V X fb fb' [.writeback wb]
  | phase2 (outcome : P2Outcome) : Upcall c digestOf V X fb fb' [.phase2 outcome]
  | phase1A (p1 : PendingPhase1) (hopen : fb.p1 = true) (hclosed : fb'.p1 = false)
      (hp1 : p1.Decided c digestOf fb.txn V X) : Upcall c digestOf V X fb fb' [.phase1A p1]
  | phase1B (dec : CommitDecision) (p2Replies : List Phase2Reply) (hopen : fb.p1 = true)
      (hclosed : fb'.p1 = false) : Upcall c digestOf V X fb fb' [.phase1B dec p2Replies]

/-- A group reports its votes once, and not after it has forwarded Phase2 decisions. -/
structure PendingFB.VotesHandled (c : Configuration) (digestOf : Transaction → Digest)
    (V : Result → Signature → Prop) (X : CommittedProof → Prop) (fb : PendingFB)
    (r : PendingFB × List FBCallback) : Prop where
  p1 : r.1.p1 = true → fb.p1 = true
  votes : r.1.p1 = true → r.1.pendingP1.Kept c V
  upcall : PendingFB.Upcall c digestOf V X fb r.1 (r.2.filter FBCallback.acts)

namespace PendingFB

/-- The Phase2 part of a handler leaves the votes alone, and has at most one such upcall. -/
structure P2Part (fb fb' : PendingFB) (calls : List FBCallback) : Prop where
  pendingP1 : fb'.pendingP1 = fb.pendingP1
  txn : fb'.txn = fb.txn
  txnDigest : fb'.txnDigest = fb.txnDigest
  p1 : fb'.p1 = true → fb.p1 = true
  calls : calls.filter FBCallback.acts = [] ∨ (∃ r, calls.filter FBCallback.acts = [.phase2 r]) ∨
    fb.p1 = true ∧ fb'.p1 = false ∧ ∃ dec l, calls.filter FBCallback.acts = [.phase1B dec l]

theorem P2Part.refl (fb : PendingFB) : P2Part fb fb [] := ⟨rfl, rfl, rfl, id, .inl rfl⟩

theorem Upcall.of_part {fb'' : PendingFB} {calls' : List FBCallback} (hp2 : P2Part fb fb' calls)
    (hopen : fb'.p1 = true) (h : Upcall c digestOf V X fb' fb'' calls') : Upcall c digestOf V X fb fb'' calls' := by
  cases h with
  | none => exact .none
  | writeback wb => exact .writeback wb
  | phase2 outcome => exact .phase2 outcome
  | phase1A p1 _ hclosed hp1 => exact .phase1A p1 (hp2.p1 hopen) hclosed (hp2.txn ▸ hp1)
  | phase1B dec l _ hclosed => exact .phase1B dec l (hp2.p1 hopen) hclosed

theorem P2Part.upcall (h : P2Part fb fb' calls) : Upcall c digestOf V X fb fb' (calls.filter acts) := by
  rcases h.calls with e | ⟨r, e⟩ | ⟨hopen, hclosed, dec, l, e⟩ <;> rw [e]
  · exact .none
  · exact .phase2 r
  · exact .phase1B dec l hopen hclosed

variable {r : PendingFB × List FBCallback × Bool}

theorem p2Part_processP2FBR (fb : PendingFB) (reply : Phase2Reply) (he : fb.processP2FBR c group reply active = r) :
    P2Part fb r.1 r.2.1 ∧ (r.2.2 = false → ∀ o, phase2 o ∉ r.2.1) := by
  rcases processP2FBR_cases he with rfl | ⟨m, dec, view, fb₁, -, -, hs, ⟨-, rfl⟩ | hrest⟩
  · exact ⟨.refl fb, fun _ o ho => by cases ho⟩
  · exact ⟨⟨hs.pendingP1, hs.txn, hs.txnDigest, hs.p1, .inr (.inl ⟨_, rfl⟩)⟩, nofun⟩
  · have ht := hs.trans hrest
    exact ⟨⟨ht.pendingP1, ht.txn, ht.txnDigest, ht.p1, ht.calls.imp_right .inr⟩, fun _ => hrest.quiet.calls⟩

theorem p2Part_processP2r (p2r : Option Phase2Reply) (he : fb.processP2r c group p2r active = r) :
    P2Part fb r.1 r.2.1 ∧ (r.2.2 = false → ∀ o, phase2 o ∉ r.2.1) := by
  cases p2r with
  | none =>
    subst he
    exact ⟨.refl fb, fun _ o ho => by cases ho⟩
  | some p2r => exact p2Part_processP2FBR fb p2r he

theorem P2Part.silent (h : P2Part fb fb' calls) (hopen : fb'.p1 = true)
    (hno : ∀ o, phase2 o ∉ calls) : calls.filter acts = [] := by
  rcases h.calls with e | ⟨r, e⟩ | ⟨-, hclosed, -⟩
  · exact e
  · exact absurd (List.mem_filter.mp (e ▸ List.mem_singleton_self _)).1 (hno r)
  · rw [hopen] at hclosed
    cases hclosed

theorem P2Part.votesHandled (h : P2Part fb fb' calls)
    (hv : fb.p1 = true → fb.pendingP1.Kept c V) : VotesHandled c digestOf V X fb (fb', calls) :=
  ⟨h.p1, fun hp => h.pendingP1.symm ▸ hv (h.p1 hp), h.upcall⟩

theorem votes_processP1FBR (hopen : fb.p1 = true) (h : fb.pendingP1.Kept c V) {reply : Phase1Reply}
    (hr : reply.Brings c group fb.txnDigest V X) {r : PendingFB × List FBCallback}
    (he : fb.processP1FBR c digestOf zeroTimeout group reply = some r) : VotesHandled c digestOf V X fb r := by
  obtain ⟨⟨p1, done⟩, hp, rfl⟩ := map_eq_some_iff.mp he
  obtain ⟨hkept, hdecided⟩ := h.processP1R hr hp
  cases done with
  | false => exact ⟨fun _ => hopen, fun _ => hkept rfl, .none⟩
  | true => exact ⟨nofun, nofun, .phase1A p1 hopen rfl (hdecided rfl)⟩

theorem votes_timeout (h : fb.p1 = true → fb.pendingP1.Kept c V) {r : PendingFB × List FBCallback}
    (he : fb.timeout = some r) : VotesHandled c digestOf V X fb r := by
  unfold PendingFB.timeout at he
  split at he
  · rename_i hopen
    obtain ⟨p1, hp1, rfl⟩ := map_eq_some_iff.mp he
    exact ⟨nofun, nofun, .phase1A p1 hopen rfl ((h hopen).timeout hp1)⟩
  · cases he

theorem votes_handlePhase1FBReply (h : fb.p1 = true → fb.pendingP1.Kept c V) {msg : Phase1FBReply}
    (hr : ∀ reply, msg.p1r = some reply → reply.Brings c group fb.txnDigest V X) {r : PendingFB × List FBCallback}
    (he : fb.handlePhase1FBReply c digestOf zeroTimeout group msg active = some r) :
    VotesHandled c digestOf V X fb r := by
  unfold PendingFB.handlePhase1FBReply at he
  split at he
  · cases he
    exact ⟨id, h, .writeback _⟩
  obtain ⟨hp2, hno⟩ := p2Part_processP2r msg.p2r (c := c) (r := fb.processP2r c group msg.p2r active) rfl
  simp only at he
  split at he
  · cases he
    exact hp2.votesHandled h
  rename_i hdone
  split at he
  · cases he
    exact hp2.votesHandled h
  rename_i p1r hp1r
  split at hp1r
  · -- votes are still collected, so the first part has called up nothing
    rename_i hopen
    obtain ⟨r', hr', rfl⟩ := map_eq_some_iff.mp he
    have hkept : (fb.processP2r c group msg.p2r active).1.pendingP1.Kept c V :=
      hp2.pendingP1.symm ▸ h (hp2.p1 hopen)
    have hv := votes_processP1FBR hopen hkept (hp2.txnDigest.symm ▸ hr p1r hp1r) hr'
    have hnil := hp2.silent hopen (hno (by simpa using hdone))
    refine ⟨fun hp => hp2.p1 (hv.p1 hp), hv.votes, ?_⟩
    rw [List.filter_append, hnil, List.nil_append]
    exact hv.upcall.of_part hp2 hopen
  · cases hp1r

end PendingFB

end FallbackVotes

end Pequin
