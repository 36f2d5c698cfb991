import Pequin.Proof.VoteCertificates

/-!
# Adopting the decision of a fallback leader

A DecisionFB is validated with the threads of the replica or, without multithreading, on the thread that handles it.
What it does to the replica is the effect of `FBDecisionCallback`, at the state in which the callback runs.
-/

namespace Pequin

open List

variable {srv : Server} {d : Digest} {st st' : TxnState} {msg : DecisionFB}

theorem handleDecisionFB_dispatch : (∀ txn my, decisionValidated st msg = some (txn, my) →
      handleDecisionFB st msg = (st.dispatch (.decision msg txn my), [])) ∧
    (decisionValidated st msg = none → (handleDecisionFB st msg).1.tasks = st.tasks) := by
  rw [decisionValidated, handleDecisionFB]
  cases hforward : st.forwardWritebackMulti with
  | some st₁ =>
    refine ⟨fun txn my h => ?_, fun _ => ?_⟩
    · rw [if_pos (.inl rfl)] at h
      cases h
    rw [TxnState.forwardWritebackMulti] at hforward
    split at hforward
    · cases hforward
      rfl
    · cases hforward
  | none =>
    by_cases hold : msg.view < st.p2.currentView ∨ msg.view = 0
    · simp [hold]
    · simp only [hold, if_false]
      cases st.ongoing with
      | none => simp
      | some txn => simp

/-- The callback changes the Phase2 record, or signs a Phase2 reply. -/
def Adopts (srv : Server) (d : Digest) (st : TxnState) (msg : DecisionFB) : Prop :=
  (fbDecisionCallback srv d st msg).1.p2 ≠ st.p2 ∨
    ∃ dec g view, SignedBody.phase2Decision dec d g view ∈ (fbDecisionCallback srv d st msg).2

theorem adopts_iff : Adopts srv d st msg ↔ st.forwardWritebackMulti = none ∧ st.p2.currentView ≤ msg.view := by
  rw [Adopts, fbDecisionCallback]
  cases hforward : st.forwardWritebackMulti with
  | some st₁ =>
    have hp2 : st₁.p2 = st.p2 := by
      rw [TxnState.forwardWritebackMulti] at hforward
      split at hforward
      · cases hforward
        rfl
      · cases hforward
    simp [hp2]
  | none =>
    rw [adoptDecision]
    by_cases hview : msg.view < st.p2.currentView
    · simp only [hview, if_true]
      refine ⟨fun h => ?_, fun h => absurd h.2 (Nat.not_le.mpr hview)⟩
      rcases h with h | ⟨_, _, _, h⟩
      · exact absurd rfl h
      · cases h
    · simp only [hview, if_false]
      exact ⟨fun _ => ⟨trivial, Nat.not_lt.mp hview⟩,
        fun _ => .inr ⟨msg.decision, srv.groupIdx, msg.view, mem_append_left _ mem_cons_self⟩⟩

/-- The proof of a decision: valid ElectFB signatures of `2f + 1` distinct members of the log group. -/
def DecisionProof (c : Configuration) (msg : DecisionFB) (d : Digest) (txn : Transaction) : Prop :=
  ∃ logGrp, getLogGroup txn d = some logGrp ∧ Tally.Attained Signature.processId
    (fun s => s ∈ msg.electSigs ∧ s.processId / c.n = logGrp ∧
      verifyElect msg.decision msg.view d s = true) (2 * c.f + 1)

theorem not_decisionProof {c : Configuration} {txn : Transaction} (h : (msg.electSigs.filter
    fun s => verifyElect msg.decision msg.view d s).length ≤ 2 * c.f) : ¬DecisionProof c msg d txn := by
  rintro ⟨logGrp, -, l, hnodup, hl, hlen⟩
  have hsub : l ⊆ msg.electSigs.filter fun s => verifyElect msg.decision msg.view d s :=
    fun s hs => mem_filter.mpr ⟨(hl s hs).1, (hl s hs).2.2⟩
  have hle := (subperm_of_subset hnodup.of_map hsub).length_le
  omega

/-- Not checked are the group of an entry's id and the signature under our own. Where these are right, an accepted
message proves its decision. -/
theorem decisionProof_of_asyncValidate {c : Configuration} {txn : Transaction} {myId : Nat} {my : Option CommitDecision}
    (hgroup : ∀ s ∈ msg.electSigs, getLogGroup txn d = some (s.processId / c.n))
    (hown : ∀ s ∈ msg.electSigs, s.processId = myId → verifyElect msg.decision msg.view d s = true)
    (h : asyncValidateFBDecision c msg.decision msg.view txn d msg.electSigs myId my = true) :
    DecisionProof c msg d txn := by
  rw [asyncValidateFBDecision] at h
  cases hlog : getLogGroup txn d with
  | none =>
    rw [hlog] at h
    cases h
  | some logGrp =>
    rw [hlog] at h
    obtain ⟨l, hl, hnodup, hlen⟩ := scanReplies_sound h
    refine ⟨logGrp, hlog, l, hnodup, fun s hs => ?_, hlen⟩
    obtain ⟨hmem, -, hcounted⟩ := hl s hs
    refine ⟨hmem, Option.some.inj ((hgroup s hmem).symm.trans hlog), ?_⟩
    rcases hcounted with hskip | hvalid
    · rw [Bool.and_eq_true, beq_iff_eq, beq_iff_eq] at hskip
      exact hown s hmem hskip.2
    · exact hvalid

/-- A DecisionFB that is validated in one state, and has an effect in another, carries the proof of its decision. -/
def AdoptedOnProof (multiThreading : Bool) (srv : Server) (d : Digest) (st st' : TxnState) (msg : DecisionFB) : Prop :=
  ∀ txn my, decisionValidated st msg = some (txn, my) →
    decisionCalled multiThreading srv.config msg txn d srv.id my = true → Adopts srv d st' msg →
      DecisionProof srv.config msg d txn

theorem ongoing_of_decisionValidated {txn : Transaction} {my : Option CommitDecision}
    (h : decisionValidated st msg = some (txn, my)) : st.ongoing = some txn := by
  rw [decisionValidated] at h
  split at h
  · cases h
  · cases hongoing : st.ongoing with
    | none => simp [hongoing] at h
    | some t => simp_all

def bareDecision : DecisionFB := ⟨[7], .abort, 1, []⟩

def forgedDecision : DecisionFB :=
  ⟨[7], .commit, 1, [electOf 0, electOf 1, ⟨4, ⟨0, .electMessage 0 [7] .commit 1⟩⟩]⟩

end Pequin
