import Pequin.Proof.Tasks

/-!
# Votes and outcomes

A second abstract machine, for the vote of a replica on a transaction and for what becomes
of the transaction there: its place in `ongoing`, `prepared`, `committed` and `aborted`,
the buffered vote, and the Writeback it was aborted with. Every step of a node is a run of
the machine (`Node.step_outcome`).
-/

namespace Pequin

open List

variable {o o' : Outcome} {r : Result} {a : Act} {st st' : TxnState} {srv : Server} {d : Digest}

@[simp] def SignedBody.isVote : SignedBody → Bool
  | .concurrencyControl _ _ _ => true
  | _ => false

/-- What a replica has decided and signed on a transaction. -/
structure Outcome where
  ongoing : Option Transaction
  result : Option Result
  prepared : Bool
  committed : Option CommittedProof
  aborted : Bool
  writeback : Option Writeback
  signed : List SignedBody

/-- The changes of the outcome. -/
inductive OutcomeEvent where
  /-- The transaction becomes ongoing. -/
  | track (txn : Transaction)
  /-- The concurrency control check, for the client or (`exec`) for a fallback. -/
  | check (occ : OccOutcome) (exec : Bool)
  /-- The last dependency has finished. -/
  | resolve (depsCommitted : Bool)
  /-- Send the buffered vote. -/
  | vote (r : Result)
  /-- Send a vote for a finished transaction. -/
  | answer (dec : CommitDecision)
  | commit (proof : CommittedProof)
  | abort (wb : Writeback)
  /-- Clean up after a finished transaction. -/
  | drop
  deriving DecidableEq, Repr

namespace Outcome

def clean (o : Outcome) (hard : Bool) : Outcome :=
  { o with
    ongoing := none
    aborted := o.aborted || (hard && o.ongoing.isSome)
    prepared := false
    result := if hard then none else o.result }

def kept (old : Option Result) (r : Result) : Result :=
  match old with
  | none => r
  | some old => if r ≠ .wait ∧ old = .wait then r else old

def buffer (o : Outcome) (r : Result) : Outcome := { o with result := some (kept o.result r) }

/-- What the check finds is voted as. -/
def voteOf (srv : Server) : OccOutcome → Result
  | .commit => .commit
  | .wait _ => .wait
  | .abstain _ => .abstain
  | .ignore => .ignore
  | .conflict _ => if srv.cacheReadSet then .abstain else .abort

def check (d : Digest) (o : Outcome) : OccOutcome → Outcome
  | .commit => { o with prepared := o.prepared || o.ongoing.isSome }
  | .wait p => { o with prepared := o.prepared || (p && o.ongoing.isSome) }
  | .abstain p => { o with prepared := o.prepared || (p && o.ongoing.isSome) }
  | .ignore => o
  | .conflict proof =>
    { o with
      writeback := o.writeback.or (some ⟨.abort, some d, none, .conflict proof⟩)
      aborted := true }.clean false

def resolution (o : Outcome) (depsCommitted : Bool) : Option Result :=
  if o.ongoing.isSome then some (if depsCommitted then .commit else .abstain)
  else if o.committed.isSome then some .commit
  else if o.aborted then some .abstain
  else none

def finished (o : Outcome) : Bool := o.committed.isSome || o.aborted

end Outcome

section Machine

variable (srv) (d)

namespace OutcomeEvent

def enabled (o : Outcome) : OutcomeEvent → Bool
  | .vote r => o.result == some r
  | .answer .commit => o.committed.isSome
  | .answer .abort => o.aborted && o.committed.isNone
  | .commit _ => o.committed.isNone
  | .abort _ => !o.finished
  | .drop => o.finished
  | _ => true

open Outcome

def next (o : Outcome) : OutcomeEvent → Outcome
  | .track txn => { o with ongoing := some txn }
  | .check occ exec =>
    if occ = .ignore then (if exec then o.clean true else o)
    else (o.check d occ).buffer (voteOf srv occ)
  | .resolve b => (o.resolution b).elim o o.buffer
  | .vote r => { o with signed := o.signed ++ signP1 srv d r }
  | .answer dec => { o with signed := o.signed ++ signP1 srv d (ccrOf dec) }
  | .commit proof => { o with committed := some proof }.clean false
  | .abort wb => { o with writeback := o.writeback.or (some wb), aborted := true }.clean false
  | .drop => o.clean false

end OutcomeEvent

def Outcome.step (o : Outcome) (e : OutcomeEvent) : Option Outcome :=
  if e.enabled o then some (e.next srv d o) else none

end Machine

theorem Outcome.step_eq {e : OutcomeEvent}
    (h : o.step srv d e = some o') : e.enabled o = true ∧ o' = e.next srv d o := by
  rw [step] at h
  split at h
  · exact ⟨‹_›, (Option.some.inj h).symm⟩
  · cases h

def TxnState.outcome (st : TxnState) (signed : List SignedBody) : Outcome :=
  ⟨st.ongoing, st.p1.result, st.prepared, st.committed, st.aborted, st.writeback, signed⟩

def Task.commits : Task → Option CommittedProof
  | .writebackP1 msg txn sigs _ => if msg.decision = .commit then some ⟨txn, .p1 sigs⟩ else none
  | .writebackP2 msg txn sigs view _ => if msg.decision = .commit then some ⟨txn, .p2 sigs view⟩ else none
  | .writebackConflict msg txn _ => if msg.decision = .commit then some ⟨txn, .none⟩ else none
  | .supply proof => some proof
  | _ => none

def Task.aborts : Task → Option Writeback
  | .writebackP1 msg _ _ _ => if msg.decision = .abort then some msg else none
  | .writebackP2 msg _ _ _ _ => if msg.decision = .abort then some msg else none
  | .writebackConflict msg _ _ => if msg.decision = .abort then some msg else none
  | _ => none

/-- A proof that was supplied, and not in a Writeback. -/
def Task.isSupply : Task → Bool
  | .supply _ => true
  | _ => false

def Input.occ? : Input → Option OccOutcome
  | .message _ occ => some occ
  | .task _ occ => some occ
  | .wake _ => none

def Task.isTryPrepare : Task → Bool
  | .tryPrepare _ _ => true
  | _ => false

def Task.isTryExec : Task → Bool
  | .tryExec _ => true
  | _ => false

def Input.prepares (st : TxnState) (inp : Input) : Bool := (inp.task? st).any Task.isTryPrepare

def Input.executes (st : TxnState) : Input → Bool
  | .message (.phase1FB _) _ => st.p1.result.isNone && !st.forwardWriteback
  | inp => (inp.task? st).any Task.isTryExec

/-- Up to the ongoing transaction, the outcome is that of the state. -/
structure Outcome.Of (o : Outcome) (st : TxnState) : Prop where
  result : o.result = st.p1.result
  prepared : o.prepared = st.prepared
  committed : o.committed = st.committed
  aborted : o.aborted = st.aborted
  writeback : o.writeback = st.writeback

/-- The reason for an event, in the state before the step and its input. -/
def Justified (srv : Server) (d : Digest) (st : TxnState) (inp : Input) (o : Outcome) : OutcomeEvent → Prop
  | .track txn => ∃ m occ, inp = .message m occ ∧ txn ∈ m.txns
  | .check occ exec => o.Of st ∧ inp.occ? = some occ ∧
      (exec = false → inp.prepares st = true ∧ st.ongoing.isSome = true ∧ o.ongoing = st.ongoing) ∧
      (exec = true → inp.executes st = true)
  | .resolve b => o.Of st ∧ inp = .wake b ∧ o.ongoing = st.ongoing
  | .vote _ => True
  | .answer _ => o.Of st ∧ (st.p1.result = none ∨ inp.prepares st = true ∧ st.ongoing = none)
  | .commit proof => o.Of st ∧ ∃ t, inp.task? st = some t ∧ t.accepted srv d = true ∧
      t.commits = some proof ∧ (t.isSupply = false → st.finished = false)
  | .abort wb => o.Of st ∧ ∃ t, inp.task? st = some t ∧ t.accepted srv d = true ∧ t.aborts = some wb
  | .drop => o.Of st

section

variable (srv) (d)
include srv d

@[simp] theorem signP1_votes : (signP1 srv d r).filter SignedBody.isVote = signP1 srv d r := by
  rw [signP1]
  split <;> rfl

@[simp] theorem attachedView_votes (st : TxnState) : (attachedView srv d st).filter SignedBody.isVote = [] := by
  rw [attachedView]
  split <;> rfl

theorem signP1_wait : signP1 srv d .wait = [] := by
  simp [signP1]

theorem doOCCCheck_outcome (st : TxnState) (occ : OccOutcome) (signed : List SignedBody) :
    (doOCCCheck srv d st occ).1.outcome signed = (st.outcome signed).check d occ := by
  cases occ <;> rfl

theorem doOCCCheck_result (st : TxnState) (occ : OccOutcome) :
    (doOCCCheck srv d st occ).2 = Outcome.voteOf srv occ := by
  cases occ <;> rfl

end

theorem voteOf_eq_ignore {occ : OccOutcome} : Outcome.voteOf srv occ = .ignore ↔ occ = .ignore := by
  cases occ <;> simp [Outcome.voteOf]
  split <;> simp

theorem bufferP1Result_outcome (st : TxnState) (hr : r ≠ .ignore) (isGossip : Bool)
    (fb : Nat) (signed : List SignedBody) :
    (bufferP1Result st r isGossip fb).state.outcome signed = (st.outcome signed).buffer r := by
  unfold bufferP1Result
  simp only [hr, if_false]
  split_ifs <;> rfl

theorem bufferP1Result_result (st : TxnState) (hr : r ≠ .ignore) (isGossip : Bool) (fb : Nat) :
    (bufferP1Result st r isGossip fb).result = .wait ∨
      (bufferP1Result st r isGossip fb).state.p1.result = some (bufferP1Result st r isGossip fb).result := by
  unfold bufferP1Result
  simp only [hr, if_false]
  by_cases hw : r = .wait ∧ st.p1.result ≠ none
  · left
    simp [hw]
  · right
    split_ifs <;> rfl

/-- From `st`, the act `a` is a run of the machine, with a reason for every event. -/
def Evolves (srv : Server) (d : Digest) (reason : Outcome → OutcomeEvent → Prop) (st : TxnState) (a : Act) : Prop :=
  ∀ signed, Run.Reaches (Outcome.step srv d) reason (st.outcome signed)
    (a.1.outcome (signed ++ a.2.filter SignedBody.isVote))

section Evolution

variable {reason : Outcome → OutcomeEvent → Prop}

namespace Evolves

theorem idle (hp : ∀ s, a.1.outcome s = st.outcome s)
    (ho : a.2.filter SignedBody.isVote = []) : Evolves srv d reason st a := fun signed => by
  rw [ho, hp, append_nil]
  exact Run.Reaches.refl _

theorem cons (h : Evolves srv d reason st' a) (e : OutcomeEvent)
    (hr : ∀ s, reason (st.outcome s) e) (he : ∀ s, e.enabled (st.outcome s) = true)
    (hn : ∀ s, e.next srv d (st.outcome s) = st'.outcome s) : Evolves srv d reason st a :=
  fun signed => Run.Reaches.head (hr signed) (by simp [Outcome.step, he, hn]) (h signed)

theorem one {out : List SignedBody} (e : OutcomeEvent)
    (hr : ∀ s, reason (st.outcome s) e) (he : ∀ s, e.enabled (st.outcome s) = true)
    (hn : ∀ s, e.next srv d (st.outcome s) = st'.outcome s) (ho : out.filter SignedBody.isVote = []) :
    Evolves srv d reason st (st', out) :=
  (idle (fun _ => rfl) ho).cons e hr he hn

theorem append {out : List SignedBody} (h : Evolves srv d reason st (st', out))
    (h' : Evolves srv d reason st' a) : Evolves srv d reason st (a.1, out ++ a.2) := fun signed => by
  rw [filter_append, ← append_assoc]
  exact (h signed).trans (h' _)

end Evolves

theorem evolves_signP1 (hv : ∀ o, reason o (.vote r))
    (h : r = .wait ∨ st.p1.result = some r) : Evolves srv d reason st (st, signP1 srv d r) := by
  rcases h with rfl | h
  · exact .idle (fun _ => rfl) (by rw [signP1_wait]; rfl)
  intro signed
  refine Run.Reaches.single (.vote r) (hv _) ?_
  have he : (OutcomeEvent.vote r).enabled (st.outcome signed) = true := by
    simp [OutcomeEvent.enabled, TxnState.outcome, h]
  rw [Outcome.step, if_pos he]
  simp [OutcomeEvent.next, TxnState.outcome]

theorem evolves_answer (dec : CommitDecision) (hr : ∀ s, reason (st.outcome s) (.answer dec))
    (he : ∀ s, (OutcomeEvent.answer dec).enabled (st.outcome s) = true) :
    Evolves srv d reason st (st, signP1 srv d (ccrOf dec)) := fun signed => by
  refine Run.Reaches.single (.answer dec) (hr _) ?_
  rw [Outcome.step, if_pos (he _)]
  simp [OutcomeEvent.next, TxnState.outcome]

end Evolution

theorem outcome_of (st : TxnState) (s : List SignedBody) : (st.outcome s).Of st :=
  ⟨rfl, rfl, rfl, rfl, rfl⟩

def Node.outcome (nd : Node) : Outcome := nd.state.outcome (nd.signed.filter SignedBody.isVote)

/-- A commit proof, a Writeback and an abort stay. -/
structure Outcome.Grows (o o' : Outcome) : Prop where
  committed : ∀ proof, o.committed = some proof → o'.committed = some proof
  aborted : o.aborted = true → o'.aborted = true
  writeback : ∀ wb, o.writeback = some wb → o'.writeback = some wb
  signed : ∀ b ∈ o.signed, b ∈ o'.signed

theorem Outcome.Grows.refl (o : Outcome) : o.Grows o := ⟨fun _ h => h, fun h => h, fun _ h => h, fun _ h => h⟩

theorem Outcome.Grows.trans {o₁ o₂ o₃ : Outcome} (h : o₁.Grows o₂) (h' : o₂.Grows o₃) : o₁.Grows o₃ where
  committed proof hp := h'.committed proof (h.committed proof hp)
  aborted ha := h'.aborted (h.aborted ha)
  writeback wb hw := h'.writeback wb (h.writeback wb hw)
  signed b hb := h'.signed b (h.signed b hb)

theorem Outcome.grows_clean (o : Outcome) (hard : Bool) : o.Grows (o.clean hard) :=
  ⟨fun _ h => h, fun h => by simp [clean, h], fun _ h => h, fun _ h => h⟩

theorem Outcome.grows_check (occ : OccOutcome) : o.Grows (o.check d occ) := by
  cases occ with
  | conflict proof =>
    exact ⟨fun _ h => h, fun _ => rfl, fun wb h => by simp [check, clean, h], fun _ h => h⟩
  | _ => exact ⟨fun _ h => h, fun h => h, fun _ h => h, fun _ h => h⟩

theorem Outcome.step_grows {e : OutcomeEvent} (h : o.step srv d e = some o') : o.Grows o' := by
  obtain ⟨hen, rfl⟩ := step_eq h
  cases e with
  | track txn => exact ⟨fun _ h => h, fun h => h, fun _ h => h, fun _ h => h⟩
  | check occ exec =>
    simp only [OutcomeEvent.next]
    split
    · split
      · exact grows_clean o true
      · exact .refl o
    · exact (grows_check occ).trans ⟨fun _ h => h, fun h => h, fun _ h => h, fun _ h => h⟩
  | resolve b =>
    simp only [OutcomeEvent.next]
    cases o.resolution b with
    | none => exact .refl o
    | some r => exact ⟨fun _ h => h, fun h => h, fun _ h => h, fun _ h => h⟩
  | vote r | answer dec =>
    exact ⟨fun _ h => h, fun h => h, fun _ h => h, fun _ h => mem_append_left _ h⟩
  | commit proof =>
    refine ⟨fun p hp => ?_, fun h => by simp [OutcomeEvent.next, clean, h], fun _ h => h, fun _ h => h⟩
    simp [OutcomeEvent.enabled, hp] at hen
  | abort wb =>
    exact ⟨fun _ h => h, fun _ => rfl, fun w h => by simp [OutcomeEvent.next, clean, h], fun _ h => h⟩
  | drop => exact grows_clean o false

theorem Outcome.reaches_grows {reason : Outcome → OutcomeEvent → Prop}
    (h : Run.Reaches (step srv d) reason o o') : o.Grows o' :=
  Run.Reaches.invariant (P := fun o₁ => o.Grows o₁) (fun hg _ hs => hg.trans (step_grows hs))
    (Grows.refl o) h

end Pequin
