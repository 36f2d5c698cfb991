import Pequin.Model.P1Votes
import Pequin.Proof.Votes
import Pequin.Proof.VoteCertificates

/-!
# Phase1 votes stay

Once a vote other than WAIT is buffered, every path that meets in `BufferP1Result` adopts it (`bufferP1Result_final`),
and the handlers of later requests read it. Three paths do not keep to it. `TryPrepare` on its worker answers from the
sets of finished transactions when the transaction is no longer ongoing (`Answered` says when that is the same vote). A
fallback's check that ends in IGNORE drops the buffer (`Unignored`). And a path that adopts an ABORT sends it with its
own pointer (`SameProof`). Apart from these the votes of a run are all the first one, each ABORT with the proof stored
with it (`p1_votes_iff`).
-/

namespace Pequin

open Option P1Node

variable {r : Result} {P : Option CommittedProof → Prop} {conflict stored : Option CommittedProof} {st : TxnState}
  {srv : Server} {d : Digest}

def P1Event.occ? : P1Event → Option OccOutcome
  | .input inp => inp.occ?
  | .wakeSubscribed _ occ => some occ

def P1Event.prepares (st : TxnState) : P1Event → Bool
  | .input inp => inp.prepares st
  | .wakeSubscribed _ _ => true

def P1Event.executes (st : TxnState) : P1Event → Bool
  | .input inp => inp.executes st
  | .wakeSubscribed _ _ => false

def TxnState.setAnswer (st : TxnState) : Option Result :=
  if st.committed.isSome then some .commit else if st.aborted then some .abstain else none

namespace P1Node

/-- No check for a fallback ends in IGNORE. -/
def Unignored (n : P1Node) (e : P1Event) : Prop :=
  e.executes n.state = true → e.occ? ≠ some .ignore

/-- `TryPrepare` does not find the transaction finished with another result than the buffered one. -/
def Answered (n : P1Node) (e : P1Event) : Prop :=
  e.prepares n.state = true → n.state.ongoing = none →
    ∀ result, n.state.setAnswer = some result → n.state.p1.result = some result

/-- On a buffered ABORT, a check that votes finds the conflict stored, and no dependency wakes the transaction. -/
structure SameProof (srv : Server) (n : P1Node) (e : P1Event) : Prop where
  checked : n.state.p1.result = some .abort →
    (e.prepares n.state = true ∧ n.state.ongoing.isSome = true) ∨ e.executes n.state = true →
      ∀ occ, e.occ? = some occ → Outcome.voteOf srv occ ≠ .wait → Outcome.voteOf srv occ ≠ .ignore →
        occConflict srv occ = n.conflict
  woken : n.state.p1.result = some .abort → ∀ b, e = .input (.wake b) → n.state.prepared = false

end P1Node

def VotesFor (r : Result) (P : Option CommittedProof → Prop) (votes : List P1Vote) : Prop :=
  ∀ v ∈ votes, v.result = r ∧ (r = .abort → P v.conflict)

theorem votesFor_nil : VotesFor r P [] := fun _ h => nomatch h

theorem VotesFor.append {l l' : List P1Vote} (h : VotesFor r P l) (h' : VotesFor r P l') :
    VotesFor r P (l ++ l') := fun v hv => (List.mem_append.mp hv).elim (h v) (h' v)

theorem votesFor_sendP1 (hP : r = .abort → P conflict) : VotesFor r P (sendP1 conflict r) := by
  intro v hv
  cases r <;> simp only [sendP1, List.mem_singleton, List.not_mem_nil] at hv
  · subst hv
    exact ⟨rfl, nofun⟩
  · subst hv
    exact ⟨rfl, fun _ => hP rfl⟩
  · subst hv
    exact ⟨rfl, nofun⟩

theorem votesFor_wakeVotes (hP : r = .abort → P conflict) : VotesFor r P (wakeVotes st r conflict) := by
  rw [wakeVotes]
  split
  · split
    · exact votesFor_nil
    · exact votesFor_sendP1 hP
  · exact votesFor_nil

section

variable {res : Result} (h : st.p1.result = some r) (hr : r ≠ .wait) (hi : res ≠ .ignore)
include h hr hi

theorem bufferP1Result_final (isGossip : Bool) (fb : Nat) :
    (bufferP1Result st res isGossip fb).result = (if res = .wait then .wait else r) ∧
      (res = .wait → (bufferP1Result st res isGossip fb).originalSub = false ∧
        (bufferP1Result st res isGossip fb).wakeFallbacks = false) := by
  by_cases hw : res = .wait
  · subst hw
    simp [bufferP1Result, h]
  · simp [bufferP1Result, hi, h, hr, hw]

theorem bufferConflict_final (stored conflict : Option CommittedProof) :
    bufferConflict st stored res conflict = stored := by
  simp [bufferConflict, hi, h, hr]

end

theorem doOCCCheck_p1 (srv : Server) (d : Digest) (st : TxnState) (occ : OccOutcome) :
    (doOCCCheck srv d st occ).1.p1 = st.p1 := by
  cases occ <;> rfl

theorem handlePhase1CBVotes_final (h : st.p1.result = some r) (hr : r ≠ .wait) {res : Result}
    (hP : r = .abort → res ≠ .wait → res ≠ .ignore → P conflict) (isGossip : Bool) :
    VotesFor r P (handlePhase1CBVotes st stored res conflict isGossip).2 ∧
      (handlePhase1CBVotes st stored res conflict isGossip).1 = stored := by
  rw [handlePhase1CBVotes]
  by_cases hi : res = .ignore
  · rw [if_pos hi]
    exact ⟨votesFor_nil, rfl⟩
  rw [if_neg hi]
  refine ⟨?_, bufferConflict_final h hr hi _ _⟩
  obtain ⟨hres, hwait⟩ := bufferP1Result_final h hr hi isGossip 0
  dsimp only
  by_cases hw : res = .wait
  · obtain ⟨hsub, hwake⟩ := hwait hw
    rw [hres, hsub, hwake, if_pos hw]
    simp [votesFor_nil]
  rw [hres, if_neg hw]
  have hsend : VotesFor r P (sendP1 conflict r) := votesFor_sendP1 fun ha => hP ha hw hi
  have hreply : ∀ (p : Prop) [Decidable p], VotesFor r P (if p then sendP1 conflict r else []) := by
    intro p _
    split
    · exact hsend
    · exact votesFor_nil
  split
  · exact (hreply _).append (votesFor_wakeVotes fun ha => hP ha hw hi)
  · exact hreply _

theorem execP1Votes_final (h : st.p1.result = some r) (hr : r ≠ .wait) {occ : OccOutcome} (hi : occ ≠ .ignore)
    (hP : r = .abort → Outcome.voteOf srv occ ≠ .wait → Outcome.voteOf srv occ ≠ .ignore → P (occConflict srv occ)) :
    VotesFor r P (execP1Votes srv d st stored occ).2 ∧ (execP1Votes srv d st stored occ).1 = stored := by
  have hi' : Outcome.voteOf srv occ ≠ .ignore := fun hv => hi (voteOf_eq_ignore.mp hv)
  have h' : (doOCCCheck srv d st occ).1.p1.result = some r := by rw [doOCCCheck_p1, h]
  rw [execP1Votes, doOCCCheck_result]
  refine ⟨?_, bufferConflict_final h' hr hi' _ _⟩
  obtain ⟨hres, hwait⟩ := bufferP1Result_final h' hr hi' false 1
  rw [hres]
  by_cases hw : Outcome.voteOf srv occ = .wait
  · rw [(hwait hw).1, if_pos hw]
    simp [votesFor_nil]
  rw [if_neg hw]
  have hsend : VotesFor r P (sendP1 (occConflict srv occ) r) :=
    votesFor_sendP1 fun ha => hP ha hw hi'
  refine .append ?_ ?_
  · split
    · exact hsend
    · exact votesFor_nil
  · split
    · exact votesFor_nil
    · exact hsend

theorem checkDependentsVotes_final (h : st.p1.result = some r) (hr : r ≠ .wait) (hP : r = .abort → P none) (b : Bool) :
    VotesFor r P (checkDependentsVotes st stored b).2 ∧ (checkDependentsVotes st stored b).1 = stored := by
  rw [checkDependentsVotes]
  dsimp only
  split
  · exact ⟨votesFor_nil, rfl⟩
  rename_i res hres
  have hres' : res = .commit ∨ res = .abstain := by
    split_ifs at hres <;> cases hres <;> simp
  have hi : res ≠ .ignore := by rcases hres' with rfl | rfl <;> decide
  have hw : res ≠ .wait := by rcases hres' with rfl | rfl <;> decide
  refine ⟨?_, bufferConflict_final h hr hi _ _⟩
  obtain ⟨hval, -⟩ := bufferP1Result_final h hr hi false 2
  rw [hval, if_neg hw]
  refine .append ?_ (votesFor_wakeVotes hP)
  split
  · exact votesFor_sendP1 hP
  · exact votesFor_nil

theorem tryPrepareVotes_finished (hon : st.ongoing = none) (isGossip : Bool) (occ : OccOutcome) :
    tryPrepareVotes srv d st stored isGossip occ = (stored, st.setAnswer.elim [] (sendP1 none)) := by
  rw [tryPrepareVotes, hon, TxnState.setAnswer]
  simp only [isNone_none, if_true]
  split_ifs <;> rfl

theorem tryPrepareVotes_ongoing (hon : st.ongoing.isSome = true) (h : st.p1.result = some r)
    (hr : r ≠ .wait) (isGossip : Bool) {occ : OccOutcome}
    (hP : r = .abort → Outcome.voteOf srv occ ≠ .wait → Outcome.voteOf srv occ ≠ .ignore → P (occConflict srv occ)) :
    VotesFor r P (tryPrepareVotes srv d st stored isGossip occ).2 ∧
      (tryPrepareVotes srv d st stored isGossip occ).1 = stored := by
  have hnone : st.ongoing.isNone = false := by
    rw [← not_isSome, hon]
    rfl
  have h' : (doOCCCheck srv d st occ).1.p1.result = some r := by rw [doOCCCheck_p1, h]
  rw [tryPrepareVotes, hnone, if_neg Bool.false_ne_true]
  dsimp only
  rw [doOCCCheck_result]
  exact handlePhase1CBVotes_final h' hr hP isGossip

theorem setAnswer_eq {result : Result} (h : st.setAnswer = some result) : result = .commit ∨ result = .abstain := by
  rw [TxnState.setAnswer] at h
  split_ifs at h <;> cases h <;> simp

section Steps

variable {n : P1Node} {e : P1Event}

theorem reaches_result {reason : Outcome → OutcomeEvent → Prop} {o o' : Outcome}
    (h : Run.Reaches (Outcome.step srv d) reason o o') (hres : o.result = some r) (hr : r ≠ .wait)
    (hi : ∀ o₁, reason o₁ (.check .ignore true) → o₁.result ≠ some r) : o'.result = some r := by
  refine h.invariant (P := fun o => o.result = some r) (fun {s e s'} hs hreason hstep => ?_) hres
  have hund : s.undecided = false := by
    rw [Outcome.undecided, hs]
    cases r <;> first | rfl | exact absurd rfl hr
  refine Outcome.result_step ?_ hstep hs hr
  cases e with
  | check occ exec =>
    refine ⟨?_, fun _ hu => absurd hu (by simp [hund])⟩
    rintro rfl rfl
    exact absurd hs (hi s hreason)
  | resolve b => exact fun _ hu => absurd hu (by simp [hund])
  | _ => trivial

theorem step_result (h : n.state.p1.result = some r) (hr : r ≠ .wait) (hu : n.Unignored e) :
    (n.step srv d e).state.p1.result = some r := by
  cases e with
  | input inp =>
    refine reaches_result ((act_trail srv d n.state inp).evolves []) h hr ?_
    rintro o ⟨-, hocc, -, hexec⟩ -
    exact hu (hexec rfl) hocc
  | wakeSubscribed isGossip occ =>
    have hw : Trail srv d (fun _ e => e ≠ .check .ignore true) n.state (.wake true) n.state
        (tryPrepare srv d n.state isGossip occ) :=
      trail_tryPrepare (fun _ _ h => nomatch h) (fun _ _ _ h => nomatch h)
        (fun _ _ h => by cases h) isGossip
    exact reaches_result (hw.evolves []) h hr fun o hne => absurd rfl hne

theorem act_final (h : n.state.p1.result = some r) (hr : r ≠ .wait) (hu : n.Unignored e)
    (ha : n.Answered e) (hstored : r = .abort → P n.conflict) (hcheck : r = .abort →
      (e.prepares n.state = true ∧ n.state.ongoing.isSome = true) ∨ e.executes n.state = true →
        ∀ occ, e.occ? = some occ → Outcome.voteOf srv occ ≠ .wait → Outcome.voteOf srv occ ≠ .ignore →
          P (occConflict srv occ)) (hwake : r = .abort → ∀ b, e = .input (.wake b) → n.state.prepared = true → P none) :
    VotesFor r P (n.act srv d e).2 ∧ (n.act srv d e).1 = n.conflict := by
  have hprepare : ∀ st isGossip occ, st.p1.result = some r → st.ongoing = n.state.ongoing →
      st.setAnswer = n.state.setAnswer → e.prepares n.state = true → e.occ? = some occ →
        VotesFor r P (tryPrepareVotes srv d st n.conflict isGossip occ).2 ∧
          (tryPrepareVotes srv d st n.conflict isGossip occ).1 = n.conflict := by
    intro st isGossip occ hst hon hset hpre hocc
    cases hong : n.state.ongoing with
    | none =>
      rw [tryPrepareVotes_finished (hon.trans hong), hset]
      cases hans : n.state.setAnswer with
      | none => exact ⟨votesFor_nil, rfl⟩
      | some result =>
        have heq := ha hpre hong result hans
        rw [h, some.injEq] at heq
        subst heq
        refine ⟨votesFor_sendP1 fun habort => ?_, rfl⟩
        rcases setAnswer_eq hans with h' | h' <;> rw [h'] at habort <;> cases habort
    | some txn =>
      have hsome : n.state.ongoing.isSome = true := by rw [hong]; rfl
      exact tryPrepareVotes_ongoing (by rw [hon]; exact hsome) hst hr isGossip
        fun habort => hcheck habort (.inl ⟨hpre, hsome⟩) occ hocc
  cases e with
  | wakeSubscribed isGossip occ => exact hprepare _ _ _ h rfl rfl rfl rfl
  | input inp =>
    cases inp with
    | message msg occ =>
      cases msg with
      | phase1 txn isGossip =>
        simp only [act, inputVotes, handlePhase1Votes, h]
        refine ⟨?_, trivial⟩
        split
        · exact votesFor_nil
        · split
          · exact votesFor_nil
          · exact votesFor_sendP1 hstored
      | phase1FB txn =>
        simp only [act, inputVotes, handlePhase1FBVotes, h]
        split
        · exact ⟨votesFor_nil, rfl⟩
        · exact ⟨votesFor_sendP1 hstored, rfl⟩
      | _ => exact ⟨votesFor_nil, rfl⟩
    | task i occ =>
      simp only [act, inputVotes]
      split
      · rename_i txn isGossip ht
        have ht' : (Input.task i occ).task? n.state = some (.tryPrepare txn isGossip) := ht
        exact hprepare _ _ _ h rfl rfl (by simp [P1Event.prepares, Input.prepares, ht', Task.isTryPrepare]) rfl
      · rename_i txn ht
        have ht' : (Input.task i occ).task? n.state = some (.tryExec txn) := ht
        have hexec : P1Event.executes n.state (.input (.task i occ)) = true := by
          simp [P1Event.executes, Input.executes, ht', Task.isTryExec]
        have hst : { n.state with tasks := n.state.tasks.eraseIdx i }.p1.result = some r := h
        exact execP1Votes_final hst hr (fun hi => hu hexec (congrArg some hi))
          fun habort => hcheck habort (.inr hexec) occ rfl
      · exact ⟨votesFor_nil, rfl⟩
    | wake b =>
      have hwait : (n.state.p1.result == some .wait) = false := by simp [h, hr]
      simp only [act, inputVotes, hwait, Bool.or_false]
      split
      · rename_i hprep
        exact checkDependentsVotes_final h hr (fun habort => hwake habort b rfl hprep) b
      · exact ⟨votesFor_nil, rfl⟩

theorem answered_of_votes (h : n.state.p1.result = some r) (hv : ∀ v ∈ (n.act srv d e).2, v.result = r) :
    n.Answered e := by
  intro hpre hon result hans
  have hsends : ∀ (st : TxnState) (isGossip : Bool) (occ : OccOutcome), st.ongoing = none → st.setAnswer = some result →
        (tryPrepareVotes srv d st n.conflict isGossip occ).2 = sendP1 none result := by
    intro st isGossip occ hst hset
    rw [tryPrepareVotes_finished hst, hset]
    rfl
  have hsent : (n.act srv d e).2 = sendP1 none result := by
    cases e with
    | wakeSubscribed isGossip occ => exact hsends _ isGossip occ hon hans
    | input inp =>
      cases inp with
      | message msg occ => cases hpre
      | wake b => cases hpre
      | task i occ =>
        have hprep : (n.state.tasks[i]?).any Task.isTryPrepare = true := hpre
        cases ht : n.state.tasks[i]? with
        | none =>
          rw [ht] at hprep
          cases hprep
        | some t =>
          rw [ht] at hprep
          cases t with
          | tryPrepare txn isGossip =>
            simp only [act, inputVotes, ht]
            exact hsends _ isGossip occ hon hans
          | _ => cases hprep
  have hmem : (⟨result, none⟩ : P1Vote) ∈ (n.act srv d e).2 := by
    rw [hsent]
    rcases setAnswer_eq hans with rfl | rfl <;> exact List.mem_singleton_self _
  rw [h, ← hv _ hmem]

end Steps

def p1Step (srv : Server) (d : Digest) (n : P1Node) (e : P1Event) : Option P1Node := some (n.step srv d e)

/-- After a buffered vote other than WAIT, in a run in which no check for a fallback ends in IGNORE, all later votes are
this one just if no `TryPrepare` finds the transaction finished with another result; and if no check or wake-up meets a
buffered ABORT with another proof, every ABORT carries the stored one. -/
theorem p1_votes_iff (srv : Server) (d : Digest) (n : P1Node) (r : Result)
    (hres : n.state.p1.result = some r) (hr : r ≠ .wait) (es : List P1Event)
    (hkeep : Run.Meets (p1Step srv d) Unignored n es) :
    ((∀ v ∈ n.votes srv d es, v.result = r) ↔ Run.Meets (p1Step srv d) Answered n es) ∧
    (Run.Meets (p1Step srv d) (fun n e => n.Answered e ∧ n.SameProof srv e) n es →
      ∀ v ∈ n.votes srv d es, v.result = r ∧ (v.result = .abort → v.conflict = n.conflict)) := by
  induction es generalizing n with
  | nil => exact ⟨⟨fun _ => trivial, fun _ v hv => nomatch hv⟩, fun _ v hv => nomatch hv⟩
  | cons e es ih =>
    obtain ⟨hu, hrest⟩ := hkeep
    have hnext : (n.step srv d e).state.p1.result = some r := step_result hres hr hu
    obtain ⟨hvotes, hproofs⟩ := ih (n.step srv d e) hnext (hrest _ rfl)
    refine ⟨⟨fun hall => ?_, fun hm v hv => ?_⟩, fun hm v hv => ?_⟩
    · refine ⟨answered_of_votes hres fun v hv => hall v (List.mem_append_left _ hv), ?_⟩
      rintro s' ⟨⟩
      exact hvotes.mp fun v hv => hall v (List.mem_append_right _ hv)
    · rcases List.mem_append.mp hv with hv | hv
      · exact ((act_final (P := fun _ => True) hres hr hu hm.1 (fun _ => trivial)
          (fun _ _ _ _ _ _ => trivial) fun _ _ _ _ => trivial).1 v hv).1
      · exact hvotes.mpr (hm.2 _ rfl) v hv
    · obtain ⟨⟨ha, hsame⟩, hm'⟩ := hm
      have hstep : VotesFor r (fun c => c = n.conflict) (n.act srv d e).2 ∧ (n.act srv d e).1 = n.conflict := by
        refine act_final hres hr hu ha (fun _ => rfl) (fun habort => hsame.checked (habort ▸ hres)) ?_
        intro habort b he hprep
        rw [hsame.woken (habort ▸ hres) b he] at hprep
        cases hprep
      rcases List.mem_append.mp hv with hv | hv
      · obtain ⟨hr', hc⟩ := hstep.1 v hv
        exact ⟨hr', fun habort => hc (hr' ▸ habort)⟩
      · obtain ⟨hr', hc⟩ := hproofs (hm' _ rfl) v hv
        exact ⟨hr', fun habort => (hc habort).trans hstep.2⟩

def abortingNode : P1Node :=
  { state := { p1 := { result := some .abort } }, conflict := some ⟨groupZeroTxn, .none⟩ }

theorem p1_votes_iff_abortingNode :
    abortingNode.votes groupZeroServer [7] [.input (.message (.phase1 groupZeroTxn false) .commit)] =
      [⟨.abort, some ⟨groupZeroTxn, .none⟩⟩] ∧
    ∀ v ∈ abortingNode.votes groupZeroServer [7] [.input (.message (.phase1 groupZeroTxn false) .commit)],
      v.result = .abort := by
  have hkeep : Run.Meets (p1Step groupZeroServer [7]) Unignored abortingNode
      [.input (.message (.phase1 groupZeroTxn false) .commit)] :=
    ⟨fun h => absurd h (by decide), fun _ _ => trivial⟩
  have hanswered : Run.Meets (p1Step groupZeroServer [7]) Answered abortingNode
      [.input (.message (.phase1 groupZeroTxn false) .commit)] :=
    ⟨fun h => absurd h (by decide), fun _ _ => trivial⟩
  exact ⟨rfl, (p1_votes_iff groupZeroServer [7] _ .abort rfl (by decide) _ hkeep).1.mpr hanswered⟩

/-- Two checks for fallbacks find two conflicts: the second vote is the ABORT of the first, with the second proof. A
Phase1 whose check comes after an ABORT is answered with ABSTAIN. -/
theorem adopted_abort_sends_own_proof : votes groupZeroServer [7] {}
      [.input (.message (.phase1FB groupZeroTxn) .commit), .input (.message (.phase1FB groupZeroTxn) .commit),
        .input (.task 0 (.conflict ⟨groupZeroTxn, .none⟩)), .input (.task 0 (.conflict ⟨groupZeroTxn, .p1 []⟩))] =
      [⟨.abort, some ⟨groupZeroTxn, .none⟩⟩, ⟨.abort, some ⟨groupZeroTxn, .p1 []⟩⟩] ∧
    votes groupZeroServer [7] {}
      [.input (.message (.phase1 groupZeroTxn false) .commit), .input (.message (.phase1FB groupZeroTxn) .commit),
        .input (.task 1 (.conflict ⟨groupZeroTxn, .none⟩)), .input (.task 0 .commit)] =
      [⟨.abort, some ⟨groupZeroTxn, .none⟩⟩, ⟨.abstain, none⟩] :=
  ⟨rfl, rfl⟩

end Pequin
