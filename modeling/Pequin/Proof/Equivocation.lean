import Pequin.Proof.Handlers

/-!
# One decision per view

A replica signs a Phase2 decision from five places. Four of them sign the decision on record; `AdoptDecision` signs the
decision of the message in the view of the message, also where the record holds another decision of the same view, and
`HandlePhase2` answers from the sets of finished transactions as long as nothing is on record.

In `equivocation_run`, with one Byzantine replica of six, a correct one signs two decisions for a view.
-/

namespace Pequin

open Bool LogEvent Logger World

variable {dec dec' : CommitDecision} {v v' view : Nat} {srv : Server} {d : Digest}

/-- The decisions signed fit the record; `com` and `ab` say whether the transaction is committed or aborted. -/
structure Logger.Consistent (srv : Server) (d : Digest) (com ab : Prop) (l : Logger) : Prop where
  view_le : l.p2.decisionView ≤ l.p2.currentView
  unrecorded : l.p2.hasP2 = false → l.p2.decisionView = 0
  signed_le : ∀ dec v, setP2 srv d dec v ∈ l.signed → v ≤ l.p2.decisionView
  recorded : l.p2.hasP2 = true → ∀ dec, setP2 srv d dec l.p2.decisionView ∈ l.signed → dec = l.p2.p2Decision
  finished : l.p2.hasP2 = false → ∀ dec v, setP2 srv d dec v ∈ l.signed → (dec = .commit → com) ∧ (dec = .abort → ab)
  unique : ∀ dec dec' v, setP2 srv d dec v ∈ l.signed → setP2 srv d dec' v ∈ l.signed → dec = dec'

/-- An event that adds no second decision to a view. -/
def Logger.Sensible (com ab : Prop) (l : Logger) : LogEvent → Prop
  | .shortcut .commit => com ∧ ¬ ab
  | .shortcut .abort => ab ∧ ¬ com
  | .log dec _ => (dec = .commit → ¬ ab) ∧ (dec = .abort → ¬ com)
  | .record dec _ => (dec = .commit → ¬ ab) ∧ (dec = .abort → ¬ com)
  | .adopt view dec => l.p2.decisionView < view ∨ l.p2.hasP2 = true ∧ l.p2.p2Decision = dec
  | _ => True

theorem setP2_inj : setP2 srv d dec v = setP2 srv d dec' v' ↔ dec = dec' ∧ v = v' := by
  simp [setP2]

theorem mem_signed_concat {signed : List SignedBody} : setP2 srv d dec v ∈ signed ++ [setP2 srv d dec' v'] ↔
    setP2 srv d dec v ∈ signed ∨ dec = dec' ∧ v = v' := by
  rw [List.mem_append, List.mem_singleton, setP2_inj]

theorem mem_signed_elect {signed : List SignedBody} :
    setP2 srv d dec v ∈ signed ++ [.electMessage 0 d dec' v'] ↔ setP2 srv d dec v ∈ signed := by
  simp [setP2]

namespace Logger.Consistent

variable {srv : Server} {d : Digest} {com ab : Prop} {l l' : Logger}

theorem init (srv : Server) (d : Digest) (com ab : Prop) : Consistent srv d com ab ⟨{}, []⟩ where
  view_le := Nat.le_refl _
  unrecorded _ := rfl
  signed_le _ _ h := by cases h
  recorded h := by cases h
  finished _ _ _ h := by cases h
  unique _ _ _ h := by cases h

section

variable (h : l.Consistent srv d com ab)
include h

theorem mono {com' ab' : Prop} (hc : com → com') (ha : ab → ab') : l.Consistent srv d com' ab' where
  view_le := h.view_le
  unrecorded := h.unrecorded
  signed_le := h.signed_le
  recorded := h.recorded
  finished hp dec v hv := ⟨fun e => hc ((h.finished hp dec v hv).1 e), fun e => ha ((h.finished hp dec v hv).2 e)⟩
  unique := h.unique

theorem sign (hle : v ≤ l.p2.decisionView) (hrec : l.p2.hasP2 = true → v = l.p2.decisionView → dec = l.p2.p2Decision)
    (hfin : l.p2.hasP2 = false → (dec = .commit → com) ∧ (dec = .abort → ab))
    (huni : ∀ dec', setP2 srv d dec' v ∈ l.signed → dec' = dec) :
    Consistent srv d com ab ⟨l.p2, l.signed ++ [setP2 srv d dec v]⟩ where
  view_le := h.view_le
  unrecorded := h.unrecorded
  signed_le dec' v' hv := by
    rcases mem_signed_concat.mp hv with hv | ⟨-, rfl⟩
    · exact h.signed_le dec' v' hv
    · exact hle
  recorded hp dec' hv := by
    rcases mem_signed_concat.mp hv with hv | ⟨rfl, hv⟩
    · exact h.recorded hp dec' hv
    · exact hrec hp hv.symm
  finished hp dec' v' hv := by
    rcases mem_signed_concat.mp hv with hv | ⟨rfl, -⟩
    · exact h.finished hp dec' v' hv
    · exact hfin hp
  unique dec₁ dec₂ v' h₁ h₂ := by
    rcases mem_signed_concat.mp h₁ with h₁' | ⟨e₁, rfl⟩
    · rcases mem_signed_concat.mp h₂ with h₂' | ⟨e₂, rfl⟩
      · exact h.unique dec₁ dec₂ v' h₁' h₂'
      · exact (huni dec₁ h₁').trans e₂.symm
    · rcases mem_signed_concat.mp h₂ with h₂' | ⟨e₂, -⟩
      · exact e₁.trans (huni dec₂ h₂').symm
      · exact e₁.trans e₂.symm

theorem log (hp : l.p2.hasP2 = false) (hview : view = l.p2.decisionView ∨ view = 0)
    (hs : (dec = .commit → ¬ ab) ∧ (dec = .abort → ¬ com)) : Consistent srv d com ab
      ⟨{ l.p2 with p2Decision := dec, hasP2 := true, decisionView := view }, l.signed⟩ := by
  have hzero : l.p2.decisionView = 0 := h.unrecorded hp
  have hv : view = 0 := by omega
  subst hv
  refine ⟨Nat.zero_le _, nofun, fun dec' v hv => ?_, fun _ dec' hv => ?_, nofun, h.unique⟩
  · have := h.signed_le dec' v hv
    omega
  -- what was signed before came from the sets of finished transactions
  obtain ⟨hc, ha⟩ := h.finished hp dec' 0 hv
  cases dec' <;> cases dec
  · rfl
  · exact absurd (hc rfl) (hs.2 rfl)
  · exact absurd (ha rfl) (hs.1 rfl)
  · rfl

theorem move (hv : l.p2.currentView < view) :
    Consistent srv d com ab ⟨{ l.p2 with currentView := view }, l.signed⟩ := by
  have := h.view_le
  exact ⟨by dsimp only; omega, h.unrecorded, h.signed_le, h.recorded, h.finished, h.unique⟩

theorem signElect (dec : CommitDecision) (v : Nat) :
    Consistent srv d com ab ⟨l.p2, l.signed ++ [.electMessage 0 d dec v]⟩ where
  view_le := h.view_le
  unrecorded := h.unrecorded
  signed_le dec' v' hv := h.signed_le dec' v' (mem_signed_elect.mp hv)
  recorded hp dec' hv := h.recorded hp dec' (mem_signed_elect.mp hv)
  finished hp dec' v' hv := h.finished hp dec' v' (mem_signed_elect.mp hv)
  unique dec₁ dec₂ v' h₁ h₂ := h.unique dec₁ dec₂ v' (mem_signed_elect.mp h₁) (mem_signed_elect.mp h₂)

theorem adoptLater (hv : l.p2.decisionView < view) : Consistent srv d com ab
    ⟨{ l.p2 with currentView := view, decisionView := view, p2Decision := dec, hasP2 := true },
      l.signed ++ [setP2 srv d dec view]⟩ := by
  have hlt : ∀ dec' v, setP2 srv d dec' v ∈ l.signed → v < view := fun dec' v hm =>
    Nat.lt_of_le_of_lt (h.signed_le dec' v hm) hv
  let l₁ : Logger :=
    ⟨{ l.p2 with currentView := view, decisionView := view, p2Decision := dec, hasP2 := true }, l.signed⟩
  have h₁ : l₁.Consistent srv d com ab :=
    ⟨Nat.le_refl _, nofun, fun dec' v hm => (hlt dec' v hm).le,
      fun _ dec' hm => absurd (hlt dec' view hm) (Nat.lt_irrefl _), nofun, h.unique⟩
  exact h₁.sign (Nat.le_refl _) (fun _ _ => rfl) nofun
    fun dec' hm => absurd (hlt dec' view hm) (Nat.lt_irrefl _)

theorem step {e : LogEvent} (hs : l.Sensible com ab e)
    (hst : l.step srv d e = some l') : l'.Consistent srv d com ab := by
  obtain ⟨hen, rfl⟩ := step_eq hst
  cases e with
  | reply =>
    exact h.sign (Nat.le_refl _) (fun _ _ => rfl) (fun hp => by simp [enabled, hp] at hen)
      fun dec' hm => h.recorded hen dec' hm
  | shortcut dec =>
    have hp : l.p2.hasP2 = false := by simpa [enabled] using hen
    refine h.sign (Nat.zero_le _) (fun hp' => by rw [hp] at hp'; cases hp') (fun _ => ?_) fun dec' hm => ?_
    · cases dec
      · exact ⟨fun _ => hs.1, fun hd => by cases hd⟩
      · exact ⟨fun hd => (by cases hd), fun _ => hs.1⟩
    obtain ⟨hc, ha⟩ := h.finished hp dec' 0 hm
    cases dec' <;> cases dec
    · rfl
    · exact absurd (hc rfl) hs.2
    · exact absurd (ha rfl) hs.2
    · rfl
  | log dec view =>
    simp only [enabled, and_eq_true, not_eq_true', or_eq_true, beq_iff_eq] at hen
    simp only [signs, LogEvent.next, List.append_nil]
    exact h.log hen.1 hen.2 hs
  | record dec view =>
    simp only [enabled, and_eq_true, not_eq_true', or_eq_true, beq_iff_eq] at hen
    have hlog := h.log hen.1 hen.2 hs
    exact hlog.sign (Nat.le_refl _) (fun _ _ => rfl) (fun hp => by cases hp)
      fun dec' hm => hlog.recorded rfl dec' hm
  | enter view =>
    simp only [enabled, decide_eq_true_eq] at hen
    simp only [signs, LogEvent.next, List.append_nil]
    exact h.move hen
  | elect view => exact h.signElect _ _
  | campaign view =>
    simp only [enabled, and_eq_true, decide_eq_true_eq] at hen
    exact (h.move hen.2).signElect _ _
  | adopt view dec =>
    simp only [enabled, decide_eq_true_eq] at hen
    simp only [signs, LogEvent.next, P2MetaData.adopt]
    split
    · exact h.adoptLater ‹_›
    rename_i hnot
    obtain ⟨hp, rfl⟩ : l.p2.hasP2 = true ∧ l.p2.p2Decision = dec :=
      hs.resolve_left hnot
    have hle := h.view_le
    have heq : view = l.p2.decisionView := by omega
    have hcv : l.p2.currentView = view := by omega
    have hsame : ({ l.p2 with currentView := view } : P2MetaData) = l.p2 := by rw [← hcv]
    rw [hsame]
    exact h.sign heq.le (fun _ _ => rfl) (fun hp' => by rw [hp] at hp'; cases hp')
      fun dec' hm => h.recorded hp dec' (heq ▸ hm)

end

end Logger.Consistent

/-- A step that adds no second decision to a view: with nothing on record the transaction is not both committed and
aborted, and no certificate against its outcome is recorded; what is adopted is for a later view, or the decision on
record. -/
structure OneDecision (srv : Server) (d : Digest) (st : TxnState) (inp : Input) : Prop where
  finished : st.p2.hasP2 = false → ¬ (st.committed.isSome = true ∧ st.aborted = true)
  logged : ∀ t ∈ inp.task? st, ∀ dec ∈ t.logs, st.p2.hasP2 = false →
    (dec = .commit → st.aborted = false) ∧ (dec = .abort → st.committed = none)
  adopted : ∀ t ∈ inp.task? st, ∀ a ∈ t.adopts srv d st, st.p2.currentView ≤ a.1 →
    st.p2.decisionView < a.1 ∨ st.p2.hasP2 = true ∧ st.p2.p2Decision = a.2

instance (srv : Server) (d : Digest) (st : TxnState) (inp : Input) : Decidable (OneDecision srv d st inp) :=
  decidable_of_iff (_ ∧ _ ∧ _) ⟨fun h => ⟨h.1, h.2.1, h.2.2⟩, fun h => ⟨h.1, h.2, h.3⟩⟩

def World.oneDecision (c : Cluster) (w : World) (e : Event) : Prop :=
  OneDecision (c.server e.replica) (e.digest c.digestOf) (w e.replica (e.digest c.digestOf)).state e.input
  deriving Decidable

theorem OneDecision.sensible {st : TxnState} {inp : Input} {l : Logger}
    {e : LogEvent} (h : OneDecision srv d st inp) (hr : Allowed srv d st inp l.p2 e) (hen : e.enabled l.p2 = true) :
    l.Sensible (st.committed.isSome = true) (st.aborted = true) e := by
  cases e with
  | shortcut dec =>
    cases dec with
    | commit =>
      obtain ⟨hp, hcom⟩ := hr
      rw [hp] at hen
      exact ⟨hcom, fun hab => h.finished (by simpa [enabled] using hen) ⟨hcom, hab⟩⟩
    | abort =>
      obtain ⟨hp, -, hab, hcom⟩ := hr
      exact ⟨hab, by simp [hcom]⟩
  | log dec view =>
    obtain ⟨hp, -, t, ht, -, hlogs⟩ := hr
    rw [hp] at hen
    simp only [enabled, and_eq_true, not_eq_true'] at hen
    obtain ⟨hc, ha⟩ := h.logged t ht dec hlogs hen.1
    exact ⟨fun hd => by simp [hc hd], fun hd => by simp [ha hd]⟩
  | record dec view =>
    obtain ⟨hp, t, ht, -, hlogs⟩ := hr
    rw [hp] at hen
    simp only [enabled, and_eq_true, not_eq_true'] at hen
    obtain ⟨hc, ha⟩ := h.logged t ht dec hlogs hen.1
    exact ⟨fun hd => by simp [hc hd], fun hd => by simp [ha hd]⟩
  | adopt view dec =>
    obtain ⟨hp, t, ht, -, hadopts⟩ := hr
    rw [hp] at hen
    rw [Sensible, hp]
    exact h.adopted t ht (view, dec) hadopts (by simpa [enabled] using hen)
  | _ => trivial

theorem consistent_of_oneDecision {c : Cluster} {es : List Event} {w : World}
    (hm : Run.Meets (step c) (oneDecision c) init es) (h : Run.exec (step c) init es = some w) (r : Nat) (d : Digest) :
    (w r d).logger.Consistent (c.server r) d ((w r d).state.committed.isSome = true)
      ((w r d).state.aborted = true) := by
  refine logger_invariant (P := fun r d nd => nd.logger.Consistent (c.server r) d
      (nd.state.committed.isSome = true) (nd.state.aborted = true))
    (fun r d => Consistent.init _ _ _ _) ?_ hm h r d
  intro w e nd nd' hone _ hnd hnd' hreach hP
  subst hnd'
  have hgrow := Outcome.reaches_grows (Node.step_outcome (c.server e.replica) (e.digest c.digestOf) nd e.input)
  have hone' : OneDecision (c.server e.replica) (e.digest c.digestOf) nd.state e.input := hnd ▸ hone
  refine (hreach.invariant (fun hP hr hs => hP.step (hone'.sensible hr (step_eq hs).1) hs) hP).mono
    ?_ hgrow.aborted
  intro hcom
  obtain ⟨proof, hproof⟩ := Option.isSome_iff_exists.mp hcom
  exact Option.isSome_iff_exists.mpr ⟨proof, hgrow.committed proof hproof⟩

/-- In such runs no replica signs COMMIT and ABORT for one view of one transaction. -/
theorem no_equivocation {c : Cluster} {es : List Event} {w : World}
    (hm : Run.Meets (World.step c) (World.oneDecision c) World.init es)
    (h : Run.exec (World.step c) World.init es = some w) (r : Nat) (d : Digest) (g g' v : Nat) :
    ¬ (.phase2Decision .commit d g v ∈ (w r d).signed ∧ .phase2Decision .abort d g' v ∈ (w r d).signed) := by
  rintro ⟨hc, ha⟩
  have hcom := (phase2Decision_own h hc).1
  have hab := (phase2Decision_own h ha).1
  have hcons := consistent_of_oneDecision hm h r d
  exact absurd (hcons.unique _ _ v hcom hab) (by decide)

/-! ## A run with two decisions for one view

Six replicas, of which replica 5 is Byzantine and leads view 1. Four replicas vote COMMIT
and two ABSTAIN, so that a client can log COMMIT at some replicas and ABORT at others. Both
decisions then find `2f + 1` votes in the election of view 1, and the leader sends both to
replica 0. -/

def Signature.signedBy (r : Nat) (b : SignedBody) : Signature := ⟨r, ⟨r, b⟩⟩

def SignedMessage.signedBy (r : Nat) (b : SignedBody) : SignedMessage := ⟨b.wire, r, ⟨r, b⟩⟩

/-- Deliver a message that dispatches a task, and run the task. -/
def Event.handle (d : Digest) (msg : Message) (occ : OccOutcome) (r : Nat) : List Event :=
  [.deliver r msg occ, .complete r d 0 occ]

def Message.logDecision (d : Digest) (dec : CommitDecision) (g : Nat) (signers : List Nat) : Message :=
  .phase2
    { decision := dec
      txn := none
      txnDigest := some d
      groupedSigs := [(g, signers.map fun r => .signedBy r (.concurrencyControl (ccrOf dec) d g))] }

def Message.invoke (d : Digest) (view : Nat) (signers : List Nat) : Message :=
  .invokeFB
    { txnDigest := d
      p2fb := none
      proposedView := view
      catchup := false
      viewSigned := some (signers.map fun r => .signedBy r (.currentView 0 d r)) }

def Message.decide (d : Digest) (dec : CommitDecision) (view : Nat) (signers : List Nat) : Message :=
  .decisionFB
    { txnDigest := d
      decision := dec
      view := view
      electSigs := signers.map fun r => .signedBy r (.electMessage 0 d dec view) }

def sixReplicas : Cluster where
  config := ⟨1, 6, [[[0], [1], [2], [3], [4], [5]]]⟩
  allToAllFb := false
  cacheReadSet := false
  digestOf t := [UInt8.ofNat t.clientSeqNum]
  byzantine r := r == 5

theorem sixReplicas_tolerant : sixReplicas.Tolerant where
  n_eq := rfl
  faulty g := by
    refine (Finset.card_le_card (t := {5}) fun r hr => ?_)
    simpa [sixReplicas] using (Finset.mem_filter.mp hr).2

def sampleTxn : Transaction where
  clientId := 1
  clientSeqNum := 4
  involvedGroups := [0]
  readSet := []
  writeSet := []
  deps := []
  timestamp := ⟨20000, 1⟩
  querySet := []
  tableWrites := []
  readPredicates := []
  mergedReadSet := none

/-- The votes, and both decisions logged. -/
def splitDecisions : List Event :=
  [0, 1, 2, 3].flatMap (Event.handle [4] (.phase1 sampleTxn false) .commit) ++
  Event.handle [4] (.phase1 sampleTxn false) (.abstain false) 4 ++
  [0, 1, 2].flatMap (Event.handle [4] (.logDecision [4] .commit 0 [0, 1, 2, 3]) .commit) ++
  [3, 4].flatMap (Event.handle [4] (.logDecision [4] .abort 0 [4, 5]) .commit)

def electionRun : List Event :=
  splitDecisions ++
  [0, 1, 2].map (.deliver · (.invoke [4] 0 []) .commit) ++
  [0, 1, 2, 3, 4].flatMap (Event.handle [4] (.invoke [4] 1 [0, 1, 2, 5]) .commit) ++
  Event.handle [4] (.decide [4] .commit 1 [0, 1, 2]) .commit 0

def splitRun : List Event :=
  electionRun ++ Event.handle [4] (.decide [4] .abort 1 [3, 4, 5]) .commit 0

theorem equivocation_run : sixReplicas.Tolerant ∧ sixReplicas.byzantine 0 = false ∧
    ∃ w, Run.exec (World.step sixReplicas) World.init splitRun = some w ∧
      .phase2Decision .commit [4] 0 1 ∈ (w 0 [4]).signed ∧ .phase2Decision .abort [4] 0 1 ∈ (w 0 [4]).signed := by
  refine ⟨sixReplicas_tolerant, rfl, ?_⟩
  have hany : (Run.exec (step sixReplicas) init splitRun).any (fun w =>
      decide (SignedBody.phase2Decision .commit [4] 0 1 ∈ (w 0 [4]).signed ∧
        SignedBody.phase2Decision .abort [4] 0 1 ∈ (w 0 [4]).signed)) = true := by decide +kernel
  obtain ⟨w, hw, hp⟩ := Run.exec_of_any hany
  exact ⟨w, hw, of_decide_eq_true hp⟩

/-- Up to the first decision of the leader every step meets the condition. -/
theorem no_equivocation_electionRun :
    ∃ w, Run.Meets (World.step sixReplicas) (World.oneDecision sixReplicas) World.init electionRun ∧
      Run.exec (World.step sixReplicas) World.init electionRun = some w ∧
      .phase2Decision .commit [4] 0 1 ∈ (w 0 [4]).signed ∧ .phase2Decision .abort [4] 0 1 ∉ (w 0 [4]).signed := by
  have hm : Run.Meets (step sixReplicas) (oneDecision sixReplicas) init electionRun := by
    decide +kernel
  have hany : (Run.exec (step sixReplicas) init electionRun).any (fun w =>
      decide (SignedBody.phase2Decision .commit [4] 0 1 ∈ (w 0 [4]).signed)) = true := by decide +kernel
  obtain ⟨w, hw, hp⟩ := Run.exec_of_any hany
  have hcom := of_decide_eq_true hp
  exact ⟨w, hm, hw, hcom, fun hab => no_equivocation hm hw 0 [4] 0 0 1 ⟨hcom, hab⟩⟩

end Pequin
