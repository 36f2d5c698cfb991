import Pequin.Proof.ProperRuns

/-!
# Agreement

In the client-driven mode, and in proper runs in which no correct replica signs two Phase2 decisions for one view, a
transaction does not have both a COMMIT and an ABORT certificate (`agreement`).
The outcomes at correct replicas agree too, and rest on the votes of a quorum.
-/

namespace Pequin

open Bool Pequin.Configuration Quorum World

variable {dec dec' : CommitDecision} {v : Nat}

section Agreement

variable {c : Cluster} {T : Transaction} {d : Digest} {w : World}

/-- No correct replica has signed two Phase2 decisions for one view of the transaction. -/
def OneDecisionPerView (c : Cluster) (d : Digest) (w : World) : Prop :=
  ∀ r, c.byzantine r = false → ∀ g g' v,
    ¬ (.phase2Decision .commit d g v ∈ (w r d).signed ∧ .phase2Decision .abort d g' v ∈ (w r d).signed)

theorem OneDecisionPerView.eq (h : OneDecisionPerView c d w) {r : Nat} (hr : c.byzantine r = false)
    (hs : setP2 (c.server r) d dec v ∈ (w r d).logger.signed)
    (hs' : setP2 (c.server r) d dec' v ∈ (w r d).logger.signed) : dec = dec' := by
  have hmem := (List.mem_filter.mp hs).1
  have hmem' := (List.mem_filter.mp hs').1
  cases dec <;> cases dec'
  · rfl
  · exact absurd ⟨hmem, hmem'⟩ (h r hr _ _ v)
  · exact absurd ⟨hmem', hmem⟩ (h r hr _ _ v)
  · rfl

theorem oneDecisionPerView_of_meets {es : List Event} (hm : Run.Meets (step c) (oneDecision c) init es)
    (h : Run.exec (step c) init es = some w) : OneDecisionPerView c d w := by
  rintro r - g g' v ⟨hc, ha⟩
  have hcom := (phase2Decision_own h hc).1
  have hab := (phase2Decision_own h ha).1
  cases (consistent_of_oneDecision hm h r d).unique _ _ v hcom hab

section

variable (ht : c.Tolerant) (hmode : c.allToAllFb = false) (hinv : ClusterInv c T d w) (hone : OneDecisionPerView c d w)
  (hd : Decided c T d w dec v)
include ht hmode hinv hone hd

/-- A Phase2 certificate of a view locks every later election. -/
theorem elected_of_decided (u : Nat) (hu : v < u) (he : Elected c T d w dec' u) : dec' = dec := by
  -- by induction on the view of the election
  induction u using Nat.strongRecOn generalizing dec' with
  | ind u ih =>
    obtain ⟨L, hL, hdecided⟩ := hd
    obtain ⟨L', hL', helected⟩ := he
    obtain rfl : L = L' := Option.some.inj (hL.symm.trans hL')
    obtain ⟨r, -, hr, hp2, helect⟩ := hdecided.meet (ht.faulty L) helected
      (by rw [card_members, ht.n_eq, quorumSize]; omega)
    rw [not_eq_true] at hr
    -- the replica that is in both quorums
    obtain ⟨v₁, hlt, helected₁, hsigned, hlast, -⟩ := (((hinv r hr).locks hmode).elect dec' u helect).locked
    have hle : v ≤ v₁ := hlast dec v hp2 hu
    rcases Nat.eq_or_lt_of_le hle with rfl | hlater
    · have hown := hsigned.resolve_right fun hnone => hnone dec hp2
      exact hone.eq hr hown hp2
    · exact ih v₁ hlt hlater (helected₁ (by omega))

theorem decided_unique {v' : Nat} (hd' : Decided c T d w dec' v') (hle : v ≤ v') : dec' = dec := by
  have hquorum : c.config.f < c.config.quorumSize := by rw [quorumSize]; omega
  rcases Nat.eq_or_lt_of_le hle with rfl | hlt
  · obtain ⟨L, hL, hatt⟩ := hd
    obtain ⟨L', hL', hatt'⟩ := hd'
    obtain rfl : L = L' := Option.some.inj (hL.symm.trans hL')
    obtain ⟨r, -, hr, hs, hs'⟩ := hatt.meet (ht.faulty L) hatt'
      (by rw [card_members, ht.n_eq, quorumSize]; omega)
    rw [not_eq_true] at hr
    exact hone.eq hr hs' hs
  · obtain ⟨L', -, hatt'⟩ := hd'
    obtain ⟨r, -, hr, hs'⟩ := hatt'.exists_correct (ht.faulty L') hquorum
    rw [not_eq_true] at hr
    have helected := (((hinv r hr).locks hmode).signed dec' v' hs').2 (by omega)
    exact elected_of_decided ht hmode hinv hone hd v' hlt helected

end

/-- Two quorums that are large enough are not for different decisions. -/
theorem not_voted_both (ht : c.Tolerant) {q q' : Nat} (hq : c.config.n + c.config.f < q + q')
    (hcom : Votes c T d w q .commit) (hab : Votes c T d w q' .abort) : False := by
  obtain ⟨g, hg, hrefuse⟩ := hab
  obtain ⟨r, -, -, haccepts, hrefuses⟩ := (hcom g hg).meet (ht.faulty g) hrefuse
    (by rw [card_members]; exact hq)
  exact Outcome.not_accepts_of_refuses hrefuses haccepts

theorem not_cert_both (ht : c.Tolerant) (hmode : c.allToAllFb = false) (hinv : ClusterInv c T d w)
    (hone : OneDecisionPerView c d w) (hcom : (know c T d w).cert .commit) (hab : (know c T d w).cert .abort) :
    False := by
  have hn := ht.n_eq
  have hvotedCom : Votes c T d w c.config.slowCommitQuorumSize .commit := voted_of_cert ht hinv hcom
  have hvotedAb : Votes c T d w c.config.slowAbortQuorumSize .abort := voted_of_cert ht hinv hab
  rcases hcom with hfast | ⟨v, hdecided⟩
  · refine not_voted_both ht ?_ hfast hvotedAb
    simp only [p1QuorumSize, fastQuorumSize, slowAbortQuorumSize]
    omega
  rcases hab with hfast | ⟨v', hdecided'⟩
  · refine not_voted_both ht ?_ hvotedCom hfast
    simp only [p1QuorumSize, slowCommitQuorumSize, fastAbortQuorumSize]
    omega
  rcases Nat.le_total v v' with hle | hle
  · cases decided_unique ht hmode hinv hone hdecided hdecided' hle
  · cases decided_unique ht hmode hinv hone hdecided' hdecided hle

/-- The signatures pass a validator, at a process that is not one of the signers. -/
def certifies (c : Configuration) (T : Transaction) (d : Digest) (dec : CommitDecision) : ProofSigs → Bool
  | .p1 gs => validateP1Replies c dec true T d gs 0 none || asyncValidateP1Replies c dec true T d gs 0 none
  | .p2 gs view =>
    validateP2Replies c dec view T d gs 0 none || asyncValidateP2Replies c dec view T d gs 0 none
  | .none => false

section

variable (c T d)

/-- A certificate that is not empty, and names what `ProperSigs` asks for. -/
structure ProperCertificate (dec : CommitDecision) (sigs : ProofSigs) : Prop where
  nonempty : sigs ≠ .p1 []
  proper : ProperSigs c T d dec sigs

/-- A certificate made of signatures that exist. -/
def Certificate (w : World) (dec : CommitDecision) (sigs : ProofSigs) : Prop :=
  certifies c.config T d dec sigs = true ∧ ∀ s ∈ sigs.sigs, World.genuine c w s = true

end

theorem cert_of_certificate (ht : c.Tolerant) (h32 : ∀ g ∈ T.involvedGroups, g < 2 ^ 32)
    (hinv : ClusterInv c T d w) {sigs : ProofSigs}
    (h : Certificate c T d w dec sigs) (hp : ProperCertificate c T d dec sigs) : (know c T d w).cert dec := by
  obtain ⟨hvalid, hg⟩ := h
  cases sigs with
  | p1 gs =>
    have hne : gs ≠ [] := fun hnil => hp.nonempty (by rw [hnil])
    rw [certifies, or_eq_true] at hvalid
    rcases hvalid with hsync | hasync
    · have hbacked := validateP1Replies_sound hp.proper hne h32 hsync
      exact (votes_of_backed ht hinv hbacked hg fun _ h => h.elim).elim .inl id
    · exact cert_of_async ht h32 hinv hp.proper hg (fun _ h => (by cases h)) hasync
  | p2 gs view =>
    rw [certifies, or_eq_true] at hvalid
    refine .inr ⟨view, decided_of_distinct ht ?_ hp.proper hg⟩
    exact hvalid.elim validateP2Replies_sound asyncValidateP2Replies_sound
  | none => cases hvalid

/-- In proper runs without two Phase2 decisions for one view, no transaction has both a COMMIT and an ABORT certificate.
-/
theorem agreement (ht : c.Tolerant) (hmode : c.allToAllFb = false)
    (h32 : ∀ g ∈ T.involvedGroups, g < 2 ^ 32) {es : List Event}
    (hm : Run.Meets (World.step c) (World.proper c T d) World.init es)
    (h : Run.exec (World.step c) World.init es = some w) (hone : OneDecisionPerView c d w)
    {com ab : ProofSigs} (hcom : ProperCertificate c T d .commit com) (hab : ProperCertificate c T d .abort ab) :
    ¬ (Certificate c T d w .commit com ∧ Certificate c T d w .abort ab) := by
  rintro ⟨hc, ha⟩
  have hinv := clusterInv_of_proper ht h32 hm h
  exact not_cert_both ht hmode hinv hone (cert_of_certificate ht h32 hinv hc hcom)
    (cert_of_certificate ht h32 hinv ha hab)

section Outcomes

variable (ht : c.Tolerant) (h32 : ∀ g ∈ T.involvedGroups, g < 2 ^ 32) {es : List Event}
  (hm : Run.Meets (World.step c) (World.proper c T d) World.init es)
  (h : Run.exec (World.step c) World.init es = some w) {r : Nat} (hr : c.byzantine r = false)
include ht h32 hm h hr

/-- A correct replica commits only with a COMMIT quorum of every involved group, and aborts on a certificate only with
an ABORT quorum of one. -/
theorem outcomes_voted :
    ((w r d).state.committed.isSome = true → Votes c T d w c.config.slowCommitQuorumSize .commit) ∧
    ((w r d).state.writeback.any Writeback.hasCert = true → Votes c T d w c.config.slowAbortQuorumSize .abort) := by
  have hinv := clusterInv_of_proper ht h32 hm h
  have hvotes := (hinv r hr).votes
  exact ⟨fun hc => voted_of_cert ht hinv (hvotes.committed hc), fun ha => voted_of_cert ht hinv (hvotes.aborted ha)⟩

/-- With one Phase2 decision per view, what one commits none aborts on a certificate. -/
theorem outcomes_agree (hmode : c.allToAllFb = false) (hone : OneDecisionPerView c d w) {r' : Nat}
    (hr' : c.byzantine r' = false) :
    ¬ ((w r d).state.committed.isSome = true ∧ (w r' d).state.writeback.any Writeback.hasCert = true) := by
  rintro ⟨hc, ha⟩
  have hinv := clusterInv_of_proper ht h32 hm h
  have hcommit := (hinv r hr).votes.committed hc
  have habort := (hinv r' hr').votes.aborted ha
  exact not_cert_both ht hmode hinv hone hcommit habort

end Outcomes

end Agreement

/-! ## A fallback that commits

The election of view 1 is won by COMMIT, and five replicas adopt the decision. -/

/-- `electionRun`, and the other correct replicas adopt the decision of the leader too. -/
def fallbackRun : List Event :=
  electionRun ++ [1, 2, 3, 4].flatMap (Event.handle [4] (.decide [4] .commit 1 [0, 1, 2]) .commit)

def phase2Cert (d : Digest) (dec : CommitDecision) (view : Nat) (signers : List Nat) : ProofSigs :=
  .p2 [(0, signers.map fun r => .signedBy r (.phase2Decision dec d 0 view))] view

theorem agreement_fallbackRun :
    ∃ w, Run.Meets (World.step sixReplicas) (World.proper sixReplicas sampleTxn [4]) World.init fallbackRun ∧
      Run.exec (World.step sixReplicas) World.init fallbackRun = some w ∧
      Certificate sixReplicas sampleTxn [4] w .commit (phase2Cert [4] .commit 1 [0, 1, 2, 3, 4]) ∧
      ∀ ab, ProperCertificate sixReplicas sampleTxn [4] .abort ab →
        ¬ Certificate sixReplicas sampleTxn [4] w .abort ab := by
  have hm : Run.Meets (step sixReplicas) (proper sixReplicas sampleTxn [4]) init
      fallbackRun := by decide +kernel
  have hone : Run.Meets (step sixReplicas) (oneDecision sixReplicas) init fallbackRun := by
    decide +kernel
  have hany : (Run.exec (step sixReplicas) init fallbackRun).any (fun w =>
      (phase2Cert [4] .commit 1 [0, 1, 2, 3, 4]).sigs.all (genuine sixReplicas w)) = true := by
    decide +kernel
  obtain ⟨w, hw, hgenuine⟩ := Run.exec_of_any hany
  have hcert : Certificate sixReplicas sampleTxn [4] w .commit (phase2Cert [4] .commit 1 [0, 1, 2, 3, 4]) :=
    ⟨by decide +kernel, List.all_eq_true.mp hgenuine⟩
  have hproper : ProperCertificate sixReplicas sampleTxn [4] .commit
      (phase2Cert [4] .commit 1 [0, 1, 2, 3, 4]) := ⟨by decide, by decide +kernel⟩
  exact ⟨w, hm, hw, hcert, fun ab hab hcert' =>
    agreement sixReplicas_tolerant rfl (by decide) hm hw (oneDecisionPerView_of_meets hone hw) hproper hab
      ⟨hcert, hcert'⟩⟩

/-- `fallbackRun`, and replica 0 commits on the decisions of view 1. -/
def fallbackCommitRun : List Event :=
  fallbackRun ++ Event.handle [4] (.writeback ⟨.commit, some [4], some sampleTxn,
    .p2 [(0, [0, 1, 2, 3, 4].map fun r => .signedBy r (.phase2Decision .commit [4] 0 1))] (some 1)⟩) .commit 0

theorem fallbackCommitRun_commits :
    Run.Meets (step sixReplicas) (proper sixReplicas sampleTxn [4]) init fallbackCommitRun ∧
    Run.Meets (step sixReplicas) (oneDecision sixReplicas) init fallbackCommitRun ∧
    ∃ w, Run.exec (step sixReplicas) init fallbackCommitRun = some w ∧ (w 0 [4]).state.committed.isSome = true := by
  refine ⟨by decide +kernel, by decide +kernel, Run.exec_of_any ?_⟩
  decide +kernel

theorem outcomes_voted_fallbackCommitRun :
    ∃ w, Run.exec (World.step sixReplicas) World.init fallbackCommitRun = some w ∧
      Votes sixReplicas sampleTxn [4] w 4 .commit := by
  obtain ⟨hm, -, w, hw, hcom⟩ := fallbackCommitRun_commits
  exact ⟨w, hw, (outcomes_voted sixReplicas_tolerant (by decide) hm hw (by decide)).1 hcom⟩

theorem outcomes_agree_fallbackCommitRun :
    ∃ w, Run.exec (World.step sixReplicas) World.init fallbackCommitRun = some w ∧
      ∀ r, sixReplicas.byzantine r = false → ¬ (w r [4]).state.writeback.any Writeback.hasCert = true := by
  obtain ⟨hm, hone, w, hw, hcom⟩ := fallbackCommitRun_commits
  exact ⟨w, hw, fun r hr hab => outcomes_agree sixReplicas_tolerant (by decide) hm hw
    (by decide : sixReplicas.byzantine 0 = false) rfl (oneDecisionPerView_of_meets hone hw) hr ⟨hcom, hab⟩⟩

/-! ## A run with both certificates

The transaction involves group 0 only, whose six replicas vote COMMIT. Replica 7 of group 1
is asked early, before the timestamp of the transaction, and votes ABSTAIN; with the Byzantine
replica 6 that is an ABORT quorum of group 1, which the replicas of group 0 accept. -/

/-- Two groups of six replicas, of which replica 6 is Byzantine. -/
def twelveReplicas : Cluster where
  config := ⟨1, 6, [[[0], [1], [2], [3], [4], [5]], [[6], [7], [8], [9], [10], [11]]]⟩
  allToAllFb := false
  cacheReadSet := false
  digestOf t := [UInt8.ofNat t.clientSeqNum]
  byzantine r := r == 6

theorem twelveReplicas_tolerant : twelveReplicas.Tolerant where
  n_eq := rfl
  faulty g := by
    refine (Finset.card_le_card (t := {6}) fun r hr => ?_)
    simpa [twelveReplicas] using (Finset.mem_filter.mp hr).2

/-- The votes of both groups, and an ABORT that is logged with those of group 1. -/
def uninvolvedRun : List Event :=
  Event.handle [4] (.phase1 sampleTxn false) (.abstain false) 7 ++
  [0, 1, 2, 3, 4, 5].flatMap (Event.handle [4] (.phase1 sampleTxn false) .commit) ++
  [0, 1, 2, 3, 4].flatMap (Event.handle [4] (.logDecision [4] .abort 1 [6, 7]) .commit)

def phase1Cert (d : Digest) (dec : CommitDecision) (signers : List Nat) : ProofSigs :=
  .p1 [(0, signers.map fun r => .signedBy r (.concurrencyControl (ccrOf dec) d 0))]

/-- Both certificates: the votes that back the ABORT are of a group that is not involved. -/
theorem uninvolved_group_run : twelveReplicas.Tolerant ∧ twelveReplicas.allToAllFb = false ∧
    ∃ w, Run.exec (World.step twelveReplicas) World.init uninvolvedRun = some w ∧
      OneDecisionPerView twelveReplicas [4] w ∧
      Certificate twelveReplicas sampleTxn [4] w .commit (phase1Cert [4] .commit [0, 1, 2, 3, 4, 5]) ∧
      Certificate twelveReplicas sampleTxn [4] w .abort (phase2Cert [4] .abort 0 [0, 1, 2, 3, 4]) := by
  refine ⟨twelveReplicas_tolerant, rfl, ?_⟩
  have hone : Run.Meets (step twelveReplicas) (oneDecision twelveReplicas) init
      uninvolvedRun := by decide +kernel
  have hany : (Run.exec (step twelveReplicas) init uninvolvedRun).any (fun w =>
      (phase1Cert [4] .commit [0, 1, 2, 3, 4, 5]).sigs.all (genuine twelveReplicas w) &&
      (phase2Cert [4] .abort 0 [0, 1, 2, 3, 4]).sigs.all (genuine twelveReplicas w)) = true := by
    decide +kernel
  obtain ⟨w, hw, hgenuine⟩ := Run.exec_of_any hany
  rw [and_eq_true] at hgenuine
  exact ⟨w, hw, oneDecisionPerView_of_meets hone hw,
    ⟨by decide +kernel, List.all_eq_true.mp hgenuine.1⟩, ⟨by decide +kernel, List.all_eq_true.mp hgenuine.2⟩⟩

end Pequin
