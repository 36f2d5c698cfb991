import Pequin.Model.Cluster

/-!
# The Phase2 record of a replica

An abstract machine for what a log replica does with its Phase2 record of one
transaction: eight kinds of events, each with its guard. Every step of a node is a (short)
run of the machine (`Node.step_refines`), with a reason for each event in the state and
the input of the step (`Allowed`). The properties of decisions and view changes are
proved on the machine.
-/

namespace Pequin

open List

variable {st' : TxnState} {a : Act} {view : Nat} {dec : CommitDecision}

@[simp] def SignedBody.isBallot : SignedBody → Bool
  | .phase2Decision _ _ _ _ => true
  | .electMessage _ _ _ _ => true
  | _ => false

/-- The record, and the decisions and elections signed. -/
structure Logger where
  p2 : P2MetaData
  signed : List SignedBody

/-- The changes of the Phase2 record. -/
inductive LogEvent where
  /-- Reply with the recorded decision. -/
  | reply
  /-- Reply for a finished transaction that has no record. -/
  | shortcut (dec : CommitDecision)
  /-- Record the decision of a certificate. -/
  | log (dec : CommitDecision) (view : Nat)
  /-- Record the decision of a certificate and reply with it. -/
  | record (dec : CommitDecision) (view : Nat)
  /-- Move to a later view. -/
  | enter (view : Nat)
  /-- Vote for the recorded decision in the election of the next view, without moving. -/
  | elect (view : Nat)
  /-- Move to a later view and vote in its election. -/
  | campaign (view : Nat)
  /-- Adopt the decision of a fallback leader. -/
  | adopt (view : Nat) (dec : CommitDecision)
  deriving DecidableEq, Repr

namespace P2MetaData

def adopt (p : P2MetaData) (view : Nat) (dec : CommitDecision) : P2MetaData :=
  if p.decisionView < view then
    { p with currentView := view, decisionView := view, p2Decision := dec, hasP2 := true }
  else { p with currentView := view }

end P2MetaData

section Machine

variable (srv : Server) (d : Digest)

namespace LogEvent

def enabled (p : P2MetaData) : LogEvent → Bool
  | .reply => p.hasP2
  | .shortcut _ => !p.hasP2
  | .log _ view => !p.hasP2 && (view == p.decisionView || view == 0)
  | .record _ view => !p.hasP2 && (view == p.decisionView || view == 0)
  | .enter view => decide (p.currentView < view)
  | .elect view => p.hasP2 && view == (p.currentView + 1) % 2 ^ 64
  | .campaign view => p.hasP2 && decide (p.currentView < view)
  | .adopt view _ => decide (p.currentView ≤ view)

def next (p : P2MetaData) : LogEvent → P2MetaData
  | .reply => p
  | .shortcut _ => p
  | .log dec view => { p with p2Decision := dec, hasP2 := true, decisionView := view }
  | .record dec view => { p with p2Decision := dec, hasP2 := true, decisionView := view }
  | .enter view => { p with currentView := view }
  | .elect _ => p
  | .campaign view => { p with currentView := view }
  | .adopt view dec => p.adopt view dec

def signs (p : P2MetaData) : LogEvent → List SignedBody
  | .reply => [setP2 srv d p.p2Decision p.decisionView]
  | .shortcut dec => [setP2 srv d dec 0]
  | .log _ _ => []
  | .record dec view => [setP2 srv d dec view]
  | .enter _ => []
  | .elect view => [.electMessage 0 d p.p2Decision view]
  | .campaign view => [.electMessage 0 d p.p2Decision view]
  | .adopt view dec => [setP2 srv d dec view]

end LogEvent

def Logger.step (l : Logger) (e : LogEvent) : Option Logger :=
  if e.enabled l.p2 then some ⟨e.next l.p2, l.signed ++ e.signs srv d l.p2⟩ else none

end Machine

theorem Logger.step_eq {srv : Server} {d : Digest} {l l' : Logger} {e : LogEvent} (h : l.step srv d e = some l') :
    e.enabled l.p2 = true ∧ l' = ⟨e.next l.p2, l.signed ++ e.signs srv d l.p2⟩ := by
  rw [Logger.step] at h
  split at h
  · exact ⟨‹_›, (Option.some.inj h).symm⟩
  · cases h

def Logger.Own (srv : Server) (d : Digest) (l : Logger) : Prop :=
  ∀ b ∈ l.signed, (∃ dec v, b = setP2 srv d dec v) ∨ ∃ dec v, b = .electMessage 0 d dec v

theorem Logger.Own.step {srv : Server} {d : Digest} {l l' : Logger} {e : LogEvent}
    (ho : l.Own srv d) (h : l.step srv d e = some l') : l'.Own srv d := by
  obtain ⟨-, rfl⟩ := Logger.step_eq h
  intro b hb
  rcases mem_append.mp hb with hb | hb
  · exact ho b hb
  cases e with
  | log dec view => cases hb
  | enter view => cases hb
  | elect view | campaign view => exact .inr ⟨_, _, mem_singleton.mp hb⟩
  | _ => exact .inl ⟨_, _, mem_singleton.mp hb⟩

section

variable (srv : Server) (d : Digest) (st : TxnState) (inp : Input)

def Input.task? : Input → Option Task
  | .task i _ => st.tasks[i]?
  | _ => none

/-- An input that asks for a Phase2 reply: a Phase2, or the Phase1 that one waits for. -/
def Input.asksPhase2 : Input → Bool
  | .message (.phase2 _) _ => true
  | .message (.phase1 _ _) _ =>
    match st.oo with
    | some (.phase2 _) => true
    | _ => false
  | _ => false

def Task.logs : Task → Option CommitDecision
  | .phase2 msg _ _ => some msg.decision
  | .p2fbReplies msg _ _ _ => some msg.decision
  | .p2fbVotes msg _ _ _ => some msg.decision
  | .invokeReplies _ p2fb _ _ _ => some p2fb.decision
  | .invokeVotes _ p2fb _ _ _ => some p2fb.decision
  | _ => none

def Task.isInvoke : Task → Bool
  | .invokeReplies _ _ _ _ _ => true
  | .invokeVotes _ _ _ _ _ => true
  | .verifyViews _ _ _ _ => true
  | _ => false

/-- An InvokeFB is handled, at a member of the log group, or one of its tasks is run. -/
def Invoked : Prop :=
  (∃ msg occ txn, inp = .message (.invokeFB msg) occ ∧
    st.ongoing.or (msg.p2fb.bind Phase2FB.txn) = some txn ∧ getLogGroup txn d = some srv.groupIdx) ∨
  ∃ t, inp.task? st = some t ∧ t.isInvoke = true

def TxnState.electSigs (view : Nat) (dec : CommitDecision) : List Signature :=
  ((st.elect.getD {}).viewQuorums view dec).2

def Task.counts : Task → Option (Nat × CommitDecision × Signature)
  | .elect msg => some (msg.data.varint 4, msg.data.decision 3, ⟨msg.processId, msg.signature⟩)
  | .ownElect view dec => some (view, dec, ⟨srv.id, ⟨srv.id, .electMessage 0 d dec view⟩⟩)
  | _ => none

/-- The decision that a task adopts, and the view: of a DecisionFB, or of the ElectFB that completes the quorum. -/
def Task.adopts (t : Task) : Option (Nat × CommitDecision) :=
  match t with
  | .decision msg _ _ => some (msg.view, msg.decision)
  | t =>
    match t.counts srv d with
    | some (view, dec, _) =>
      if (st.electSigs view dec).length = 2 * srv.config.f then some (view, dec) else none
    | none => none

/-- The reason for an event on the record `p`, before the step. -/
def Allowed (p : P2MetaData) : LogEvent → Prop
  | .reply => True
  | .shortcut .commit => p = st.p2 ∧ st.committed.isSome = true
  | .shortcut .abort => p = st.p2 ∧ inp.asksPhase2 st = true ∧ st.aborted = true ∧ st.committed = none
  | .log dec _ => p = st.p2 ∧ st.forwardWriteback = false ∧
    ∃ t, inp.task? st = some t ∧ t.accepted srv d = true ∧ t.logs = some dec
  | .record dec _ => p = st.p2 ∧ ∃ t, inp.task? st = some t ∧ t.accepted srv d = true ∧ t.logs = some dec
  | .enter _ => True
  | .elect _ => srv.allToAllFb = true ∧ Invoked srv d st inp
  | .campaign view =>
    (srv.allToAllFb = true → view = (p.currentView + 1) % 2 ^ 64) ∧ Invoked srv d st inp
  | .adopt view dec => p = st.p2 ∧
    ∃ t, inp.task? st = some t ∧ t.accepted srv d = true ∧ t.adopts srv d st = some (view, dec)

end

@[simp] theorem signP1_filter (srv : Server) (d : Digest) (r : Result) :
    (signP1 srv d r).filter SignedBody.isBallot = [] := by
  rw [signP1]
  split <;> rfl

@[simp] theorem attachedView_filter (srv : Server) (d : Digest) (st : TxnState) :
    (attachedView srv d st).filter SignedBody.isBallot = [] := by
  rw [attachedView]
  split <;> rfl

@[simp] theorem doOCCCheck_p2 (srv : Server) (d : Digest) (st : TxnState) (occ : OccOutcome) :
    (doOCCCheck srv d st occ).1.p2 = st.p2 := by
  cases occ <;> rfl

@[simp] theorem bufferP1Result_p2 (st : TxnState) (r : Result) (isGossip : Bool) (fb : Nat) :
    (bufferP1Result st r isGossip fb).state.p2 = st.p2 := by
  unfold bufferP1Result
  dsimp only
  repeat' split
  all_goals rfl

/-- From `st`, the act `a` is a run of the machine, with a reason for every event. -/
def Refines (srv : Server) (d : Digest) (reason : P2MetaData → LogEvent → Prop) (st : TxnState) (a : Act) : Prop :=
  ∀ signed, Run.Reaches (Logger.step srv d) (fun l e => reason l.p2 e) ⟨st.p2, signed⟩
    ⟨a.1.p2, signed ++ a.2.filter SignedBody.isBallot⟩

section Refinement

variable {srv : Server} {d : Digest} {reason : P2MetaData → LogEvent → Prop} {st : TxnState}

namespace Refines

theorem idle (hp : a.1.p2 = st.p2) (ho : a.2.filter SignedBody.isBallot = []) :
    Refines srv d reason st a := fun signed => by
  rw [ho, hp, append_nil]
  exact Run.Reaches.refl _

theorem one (e : LogEvent) (hr : reason st.p2 e) (he : e.enabled st.p2 = true)
    (hp : a.1.p2 = e.next st.p2) (ho : a.2.filter SignedBody.isBallot = e.signs srv d st.p2) :
    Refines srv d reason st a := fun signed =>
  Run.Reaches.single e hr (by simp [Logger.step, he, hp, ho])

theorem trans {out : List SignedBody} (h : Refines srv d reason st (st', out)) (h' : Refines srv d reason st' a) :
    Refines srv d reason st (a.1, out ++ a.2) := fun signed => by
  rw [filter_append, ← append_assoc]
  exact (h signed).trans (h' _)

end Refines

theorem execP1_p2 (srv : Server) (d : Digest) (st : TxnState) (occ : OccOutcome) :
    (execP1 srv d st occ).1.p2 = st.p2 := by
  simp [execP1]

theorem processMoveView_p2 (srv : Server) (st : TxnState) (view : Nat) (self : Bool) :
    (processMoveView srv st view self).p2 = st.p2 ∨ st.p2.currentView < view ∧
        (processMoveView srv st view self).p2 = { st.p2 with currentView := view } := by
  unfold processMoveView
  by_cases hv : st.p2.currentView < view
  · -- how often the view was counted decides between the two
    exact (ite_eq_or_eq _ _ _).symm.imp id fun h => ⟨hv, h⟩
  · simp [hv]

theorem sendElectFB_p2 (st : TxnState) (view : Nat) (dec : CommitDecision) :
    (sendElectFB srv d st view dec).1.p2 = st.p2 := by
  unfold sendElectFB
  split <;> rfl

theorem preProcessElectFB_some {pid : Nat} (h : preProcessElectFB st view dec pid = some st') :
    st'.p2 = st.p2 ∧ st'.electSigs view dec = st.electSigs view dec := by
  unfold preProcessElectFB at h
  dsimp only at h
  split at h
  · cases h
  · cases h
    exact ⟨rfl, by simp [TxnState.electSigs]⟩

end Refinement

def Task.isVerifyViews : Task → Bool
  | .verifyViews _ _ _ _ => true
  | _ => false

def Node.logger (nd : Node) : Logger := ⟨nd.state.p2, nd.signed.filter SignedBody.isBallot⟩

end Pequin
