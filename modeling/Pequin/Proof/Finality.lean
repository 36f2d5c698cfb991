import Pequin.Proof.Equivocation

/-!
# Committed and aborted transactions

`committed` and `aborted` only grow. They are disjoint, and a finished transaction is not prepared
(`TxnState.Consistent`), as long as no concurrency control check runs on a finished transaction and no supplied proof
is committed for an aborted one (`Input.Respects`).

`TryPrepare` and `Prepare` look for the transaction in `ongoing` to tell whether it is finished; `TryExec` and
`CommitWithProof` do not look at all. In `reopenedRun` a Phase1 that arrives late puts a committed transaction back
into `ongoing`, and the check of a fallback then prepares it.
-/

namespace Pequin

open Bool Option Outcome World

/-- Not both committed and aborted, and not prepared when finished. -/
structure TxnState.Consistent (st : TxnState) : Prop where
  disjoint : ¬ (st.committed.isSome = true ∧ st.aborted = true)
  unprepared : st.finished = true → st.prepared = false

/-- A decision stays. -/
structure TxnState.Final (st st' : TxnState) : Prop where
  committed : ∀ proof, st.committed = some proof → st'.committed = some proof
  aborted : st.aborted = true → st'.aborted = true

/-- The inputs that run the check: the task of a Phase1 if the transaction is ongoing, that of a fallback, and a
Phase1FB that finds a logged decision but no vote. -/
def Input.checks (st : TxnState) : Input → Bool
  | .message (.phase1FB _) _ => !st.forwardWriteback && st.p1.result.isNone && st.p2.hasP2
  | inp => (inp.task? st).any fun t => t.isTryExec || t.isTryPrepare && st.ongoing.isSome

def Input.supplies (srv : Server) (d : Digest) (st : TxnState) (inp : Input) : Bool :=
  (inp.task? st).any fun t => t.isSupply && t.accepted srv d

/-- No check is run on a finished transaction, and no supplied proof is committed for an aborted one. -/
def Input.Respects (srv : Server) (d : Digest) (st : TxnState) (inp : Input) : Prop :=
  (st.finished = true → inp.checks st = false) ∧ (st.aborted = true → inp.supplies srv d st = false)
  deriving Decidable

/-- A transaction is committed, aborted or prepared, not two of them. -/
structure Outcome.Consistent (o : Outcome) : Prop where
  disjoint : ¬ (o.committed.isSome = true ∧ o.aborted = true)
  unprepared : o.finished = true → o.prepared = false

section Step

variable {srv : Server} {d : Digest} {st : TxnState} {o o' : Outcome}

theorem Outcome.Of.finished (h : o.Of st) : o.finished = st.finished := by
  rw [Outcome.finished, TxnState.finished, h.committed, h.aborted]

theorem Outcome.consistent_of_open (h : o.finished = false) : o.Consistent := by
  have hf := h
  rw [Outcome.finished, or_eq_false_iff] at hf
  exact ⟨fun hb => by simp [hf.1] at hb, fun hfin => by simp [h] at hfin⟩

theorem Outcome.consistent_clean {hard : Bool}
    (h : ¬ (o.committed.isSome = true ∧ (o.clean hard).aborted = true)) : (o.clean hard).Consistent :=
  ⟨h, fun _ => rfl⟩

theorem Outcome.Consistent.of_eq (h : o.Consistent) (hc : o'.committed = o.committed)
    (ha : o'.aborted = o.aborted) (hp : o'.prepared = o.prepared) : o'.Consistent :=
  ⟨by rw [hc, ha]; exact h.disjoint, by rw [Outcome.finished, hc, ha, hp]; exact h.unprepared⟩

theorem Outcome.consistent_check (h : o.finished = false) (occ : OccOutcome) : (o.check d occ).Consistent := by
  cases occ with
  | conflict proof =>
    rw [Outcome.finished, or_eq_false_iff] at h
    exact consistent_clean fun hb => by simp [h.1] at hb
  | _ => exact consistent_of_open h

theorem Outcome.consistent_next_check (h : o.finished = false) (occ : OccOutcome) (exec : Bool) :
    (OutcomeEvent.next srv d o (.check occ exec)).Consistent := by
  have hopen := h
  rw [Outcome.finished, or_eq_false_iff] at h
  rw [OutcomeEvent.next]
  split
  · split
    · exact consistent_clean fun hb => by simp [h.1] at hb
    · exact consistent_of_open hopen
  · exact (consistent_check hopen occ).of_eq rfl rfl rfl

theorem Outcome.Consistent.step {e : OutcomeEvent} (h : o.Consistent) (hs : o.step srv d e = some o')
    (hcheck : ∀ occ exec, e = .check occ exec → o.finished = false)
    (hcommit : ∀ proof, e = .commit proof → o.aborted = false) : o'.Consistent := by
  obtain ⟨hen, rfl⟩ := step_eq hs
  cases e with
  | track txn => exact h.of_eq rfl rfl rfl
  | check occ exec => exact consistent_next_check (hcheck occ exec rfl) occ exec
  | resolve b =>
    rw [OutcomeEvent.next]
    cases o.resolution b with
    | none => exact h
    | some r => exact h.of_eq rfl rfl rfl
  | vote r => exact h.of_eq rfl rfl rfl
  | answer dec => exact h.of_eq rfl rfl rfl
  | commit proof =>
    refine consistent_clean fun hb => ?_
    simp [clean, hcommit proof rfl] at hb
  | abort wb =>
    have hopen : o.finished = false := by simpa [OutcomeEvent.enabled] using hen
    rw [Outcome.finished, or_eq_false_iff] at hopen
    exact consistent_clean fun hb => by simp [hopen.1] at hb
  | drop =>
    refine consistent_clean fun hb => h.disjoint ⟨hb.1, ?_⟩
    simpa [clean] using hb.2

end Step

section Node

variable {srv : Server} {d : Digest} {nd : Node} {inp : Input}

theorem Node.consistent_iff : nd.outcome.Consistent ↔ nd.state.Consistent :=
  ⟨fun h => ⟨h.disjoint, h.unprepared⟩, fun h => ⟨h.disjoint, h.unprepared⟩⟩

theorem Input.checks_of_prepares {st : TxnState} (h : inp.prepares st = true)
    (hon : st.ongoing.isSome = true) : inp.checks st = true := by
  rw [Input.prepares, any_eq_true] at h
  obtain ⟨t, ht, hprep⟩ := h
  cases inp with
  | task i occ => simp only [Input.checks, ht, any_some, hprep, hon, Bool.and_true, Bool.or_true]
  | message msg occ => cases ht
  | wake b => cases ht

theorem Input.checks_of_executes {st : TxnState} (h : inp.executes st = true)
    (hp2 : ∀ txn occ, inp = .message (.phase1FB txn) occ → st.p2.hasP2 = true) : inp.checks st = true := by
  cases inp with
  | task i occ =>
    rw [Input.executes, any_eq_true] at h
    · obtain ⟨t, ht, hexec⟩ := h
      simp only [Input.checks, ht, any_some, hexec, Bool.true_or]
    · exact fun _ _ he => by cases he
  | message msg occ =>
    cases msg with
    | phase1FB txn =>
      rw [Input.executes, and_eq_true] at h
      rw [Input.checks, h.1, h.2, hp2 txn occ rfl]
      rfl
    | _ => cases h
  | wake b => cases h

theorem handlePhase1FB_unlogged {st : TxnState} {txn : Transaction} {occ : OccOutcome}
    (h : st.p2.hasP2 = false) (hc : st.Consistent) : (handlePhase1FB srv d st txn occ).1.Consistent := by
  rw [handlePhase1FB]
  split
  · exact hc
  dsimp only
  split
  all_goals first
    | exact ⟨hc.disjoint, hc.unprepared⟩
    | simp_all

theorem Node.step_consistent (h : nd.state.Consistent) (hr : inp.Respects srv d nd.state) :
    (nd.step srv d inp).state.Consistent := by
  by_cases hfb : ∃ txn occ, inp = .message (.phase1FB txn) occ ∧ nd.state.p2.hasP2 = false
  · obtain ⟨txn, occ, rfl, hp2⟩ := hfb
    exact handlePhase1FB_unlogged hp2 h
  have hp2 : ∀ txn occ, inp = .message (.phase1FB txn) occ → nd.state.p2.hasP2 = true :=
    fun txn occ hinp => by simpa using fun hno => hfb ⟨txn, occ, hinp, hno⟩
  -- the step is a run of the abstract machine, whose events have a reason in the state before it
  refine Node.consistent_iff.mp (Run.Reaches.invariant (P := Outcome.Consistent) ?_
    (Node.consistent_iff.mpr h) (Node.step_outcome srv d nd inp))
  intro o e o' ho hjust hs
  refine ho.step hs ?_ ?_
  · rintro occ exec rfl
    obtain ⟨hof, -, hprep, hexec⟩ := hjust
    have hchecks : inp.checks nd.state = true := by
      cases exec with
      | false => exact Input.checks_of_prepares (hprep rfl).1 (hprep rfl).2.1
      | true => exact Input.checks_of_executes (hexec rfl) hp2
    rw [hof.finished]
    by_contra hfin
    rw [hr.1 (by simpa using hfin)] at hchecks
    cases hchecks
  · rintro proof rfl
    obtain ⟨hof, t, ht, hacc, -, hopen⟩ := hjust
    rw [hof.aborted]
    cases hsup : t.isSupply with
    | false =>
      have hfin := hopen hsup
      rw [TxnState.finished, or_eq_false_iff] at hfin
      exact hfin.2
    | true =>
      by_contra hab
      have hno := hr.2 (by simpa using hab)
      simp [Input.supplies, ht, hsup, hacc] at hno

/-- What is committed or aborted stays so. -/
theorem Node.step_final (srv : Server) (d : Digest) (nd : Node) (inp : Input) :
    nd.state.Final (nd.step srv d inp).state :=
  have h := reaches_grows (Node.step_outcome srv d nd inp)
  ⟨h.committed, h.aborted⟩

end Node

section Runs

variable {c : Cluster} {w w' : World}

def World.Respects (c : Cluster) (w : World) (e : Event) : Prop :=
  e.input.Respects (c.server e.replica) (e.digest c.digestOf) (w e.replica (e.digest c.digestOf)).state
  deriving Decidable

theorem final_of_exec {es : List Event} (h : Run.exec (step c) w es = some w') (r : Nat)
    (d : Digest) : (w r d).state.Final (w' r d).state := by
  refine Run.exec_invariant (P := fun w₁ => (w r d).state.Final (w₁ r d).state) ?_
    ⟨fun _ h => h, fun h => h⟩ h
  intro w₁ e w₂ hf hs
  obtain ⟨-, -, rfl⟩ := step_eq hs
  by_cases hrd : r = e.replica ∧ d = e.digest c.digestOf
  · obtain ⟨rfl, rfl⟩ := hrd
    rw [set_self]
    have hstep := Node.step_final (c.server e.replica) (e.digest c.digestOf)
      (w₁ e.replica (e.digest c.digestOf)) e.input
    exact ⟨fun p hp => hstep.committed p (hf.committed p hp), fun ha => hstep.aborted (hf.aborted ha)⟩
  · rw [set_of_ne _ _ hrd]
    exact hf

/-- In a run that respects what is finished, no transaction is both committed and aborted, no finished one is prepared,
and what is committed or aborted stays so, whatever follows. -/
theorem committed_aborted_final {es : List Event} (hm : Run.Meets (World.step c) (World.Respects c) World.init es)
    (h : Run.exec (World.step c) World.init es = some w) (r : Nat) (d : Digest) : (w r d).state.Consistent ∧
      ∀ fs w', Run.exec (World.step c) w fs = some w' → (w r d).state.Final (w' r d).state := by
  refine ⟨?_, fun fs w' hfs => final_of_exec hfs r d⟩
  refine node_invariant (P := fun _ _ nd => nd.state.Consistent)
    (fun _ _ => ⟨by simp, by simp [TxnState.finished]⟩) ?_ hm h r d
  exact fun hok _ _ hc => Node.step_consistent hc hok

end Runs

/-! ## A committed transaction that is prepared

Replica 0 gets a Phase2 before the Phase1, and a Phase1FB whose check is dispatched. The
Writeback commits the transaction and cleans up after it. Then the Phase1 arrives: it takes the
place of the Phase2 that waits for it, and the transaction is ongoing again when the check of
the fallback is run. -/

def commitReplies : List Event :=
  [1, 2, 3, 4].flatMap (Event.handle [4] (.phase1 sampleTxn false) .commit) ++
  [1, 2, 3, 4].flatMap (Event.handle [4] (.logDecision [4] .commit 0 [1, 2, 3, 4]) .commit)

def commitWriteback (txn : Option Transaction) : Message :=
  .writeback
    { decision := .commit
      txnDigest := some [4]
      txn := txn
      sigs := .p2 [(0, [1, 2, 3, 4, 5].map fun r => .signedBy r (.phase2Decision .commit [4] 0 0))] (some 0) }

def reopenedRun : List Event :=
  commitReplies ++
  [.deliver 0 (.logDecision [4] .commit 0 [1, 2, 3, 4]) .commit, .deliver 0 (.phase1FB sampleTxn) .commit,
   .deliver 0 (commitWriteback none) .commit,
   .complete 0 [4] 1 .commit,
   .deliver 0 (.phase1 sampleTxn false) .commit,
   .complete 0 [4] 0 .commit]

/-- All certificates of the run are for COMMIT, and the transaction ends up committed and prepared. -/
theorem reopened_run : sixReplicas.Tolerant ∧ ∃ w, Run.exec (World.step sixReplicas) World.init reopenedRun = some w ∧
    (w 0 [4]).state.committed.isSome = true ∧ (w 0 [4]).state.prepared = true := by
  refine ⟨sixReplicas_tolerant, ?_⟩
  have hany : (Run.exec (step sixReplicas) init reopenedRun).any (fun w =>
      (w 0 [4]).state.committed.isSome && (w 0 [4]).state.prepared) = true := by decide +kernel
  obtain ⟨w, hw, hboth⟩ := Run.exec_of_any hany
  exact ⟨w, hw, and_eq_true_iff.mp hboth⟩

def committedRun : List Event :=
  commitReplies ++ Event.handle [4] (.phase1 sampleTxn false) .commit 0 ++
  Event.handle [4] (commitWriteback none) .commit 0

theorem committed_aborted_final_committedRun :
    Run.Meets (World.step sixReplicas) (World.Respects sixReplicas) World.init committedRun ∧
    ∃ w, Run.exec (World.step sixReplicas) World.init committedRun = some w ∧
      (w 0 [4]).state.committed.isSome = true ∧ (w 0 [4]).state.Consistent := by
  have hm : Run.Meets (step sixReplicas) (Respects sixReplicas) init committedRun := by
    decide +kernel
  have hany : (Run.exec (step sixReplicas) init committedRun).any (fun w =>
      (w 0 [4]).state.committed.isSome) = true := by decide +kernel
  obtain ⟨w, hw, hcom⟩ := Run.exec_of_any hany
  exact ⟨hm, w, hw, hcom, (committed_aborted_final hm hw 0 [4]).1⟩

namespace P2MetaData

/-- No view goes back, and a decision on record makes room only for one of a later view. -/
structure Advances (p q : P2MetaData) : Prop where
  view : p.currentView ≤ q.currentView
  decisionView : p.decisionView ≤ q.decisionView
  recorded : p.hasP2 = true → q.hasP2 = true
  decision : p.hasP2 = true → q.decisionView = p.decisionView → q.p2Decision = p.p2Decision

/-- Without a decision there is no view of one. -/
def Blank (p : P2MetaData) : Prop := p.hasP2 = false → p.decisionView = 0

variable {p q r : P2MetaData}

theorem Advances.refl (p : P2MetaData) : p.Advances p := ⟨le_rfl, le_rfl, id, fun _ _ => rfl⟩

theorem Advances.trans (h : p.Advances q) (h' : q.Advances r) : p.Advances r where
  view := h.view.trans h'.view
  decisionView := h.decisionView.trans h'.decisionView
  recorded hp := h'.recorded (h.recorded hp)
  decision hp heq := by
    have hle := h.decisionView
    have hle' := h'.decisionView
    rw [h'.decision (h.recorded hp) (by omega), h.decision hp (by omega)]

theorem advances_next {e : LogEvent} (hb : p.Blank) (h : e.enabled p = true) :
    p.Advances (e.next p) ∧ (e.next p).Blank := by
  cases e with
  | log dec view | record dec view =>
    simp only [LogEvent.enabled, and_eq_true, not_eq_true', or_eq_true, beq_iff_eq] at h
    have hzero := hb h.1
    have hview : p.decisionView = view := by omega
    exact ⟨⟨le_rfl, hview.le, fun _ => rfl, fun hp => by rw [h.1] at hp; cases hp⟩, fun hp => by cases hp⟩
  | enter view | campaign view =>
    simp only [LogEvent.enabled, and_eq_true, decide_eq_true_eq] at h
    exact ⟨⟨by simp only [LogEvent.next]; omega, le_rfl, id, fun _ _ => rfl⟩, hb⟩
  | adopt view dec =>
    have hview : p.currentView ≤ view := by simpa [LogEvent.enabled] using h
    rw [LogEvent.next, adopt]
    split
    · rename_i hlt
      exact ⟨⟨hview, hlt.le, fun _ => rfl, fun _ heq => absurd heq hlt.ne'⟩, fun hp => by cases hp⟩
    · exact ⟨⟨hview, le_rfl, id, fun _ _ => rfl⟩, hb⟩
  | _ => exact ⟨.refl p, hb⟩

end P2MetaData

theorem p2_advances_step {c : Cluster} {w w' : World} {e : Event} {r : Nat} {d : Digest}
    (hviews : NoViewProofs c (w r d)) (hblank : (w r d).state.p2.Blank) (hs : World.step c w e = some w') :
    (NoViewProofs c (w' r d) ∧ (w' r d).state.p2.Blank) ∧ (w r d).state.p2.Advances (w' r d).state.p2 := by
  obtain ⟨-, -, rfl⟩ := step_eq hs
  by_cases hrd : r = e.replica ∧ d = e.digest c.digestOf
  · obtain ⟨rfl, rfl⟩ := hrd
    rw [set_self]
    have hviews' := noViewProofs_step hviews
    generalize e.replica = r, e.digest c.digestOf = d at *
    -- the step is a run of the machine, and each of its events advances the record
    have hrun : Run.Reaches (Logger.step (c.server r) d) _ (w r d).logger
        ((w r d).step (c.server r) d e.input).logger :=
      Node.step_refines _ _ fun t ht hv => hviews t (Input.task?_mem ht) hv
    have hreach := hrun.invariant (P := fun l => (w r d).state.p2.Advances l.p2 ∧ l.p2.Blank)
      (fun hl _ hs => by
        obtain ⟨hen, rfl⟩ := Logger.step_eq hs
        exact (P2MetaData.advances_next hl.2 hen).imp_left hl.1.trans) ⟨.refl _, hblank⟩
    exact ⟨⟨hviews', hreach.2⟩, hreach.1⟩
  · rw [set_of_ne _ _ hrd]
    exact ⟨⟨hviews, hblank⟩, .refl _⟩

/-- In every run, whatever clients and Byzantine replicas send, the record of a replica advances. -/
theorem records_advance {c : Cluster} {w w' : World} {es fs : List Event}
    (h : Run.exec (World.step c) World.init es = some w) (h' : Run.exec (World.step c) w fs = some w') (r : Nat)
    (d : Digest) : (w r d).state.p2.Advances (w' r d).state.p2 := by
  let Good (w : World) : Prop := NoViewProofs c (w r d) ∧ (w r d).state.p2.Blank
  have hgood : Good w := Run.exec_invariant (fun hw hs => (p2_advances_step hw.1 hw.2 hs).1)
    ⟨fun t ht => (by cases ht), fun _ => rfl⟩ h
  refine (Run.exec_invariant (P := fun w' => Good w' ∧ (w r d).state.p2.Advances (w' r d).state.p2) ?_
    ⟨hgood, .refl _⟩ h').2
  rintro w₁ e w₂ ⟨hw, hadv⟩ hs
  have hnext := p2_advances_step hw.1 hw.2 hs
  exact ⟨hnext.1, hadv.trans hnext.2⟩

/-- A replica that has moved to view 1 adopts the decision of its leader. -/
theorem records_advance_election : ∃ w w', Run.exec (World.step sixReplicas) World.init electionRun = some w ∧
    Run.exec (World.step sixReplicas) w (Event.handle [4] (.decide [4] .commit 1 [0, 1, 2]) .commit 1) = some w' ∧
    (w' 1 [4]).state.p2.decisionView = 1 ∧ (w 1 [4]).state.p2.Advances (w' 1 [4]).state.p2 := by
  have hany : (Run.exec (step sixReplicas) init electionRun).any (fun w =>
      (Run.exec (step sixReplicas) w (Event.handle [4] (.decide [4] .commit 1 [0, 1, 2]) .commit 1)).any fun w' =>
        decide ((w' 1 [4]).state.p2.decisionView = 1)) = true := by decide +kernel
  obtain ⟨w, hw, hany'⟩ := Run.exec_of_any hany
  obtain ⟨w', hw', hview⟩ := Run.exec_of_any hany'
  exact ⟨w, w', hw, hw', of_decide_eq_true hview, records_advance hw hw' 1 [4]⟩

end Pequin
