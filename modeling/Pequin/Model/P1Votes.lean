import Pequin.Model.Cluster

/-!
# Phase1 votes with their proofs

A Phase1 vote is sent by several paths: the handler of a Phase1, the checks run for a client or a fallback, and the
wake-ups after a missing query or a dependency. All but the first meet in `BufferP1Result`, which keeps the committed
proof of a conflict beside the vote. It takes the result by reference, but the pointer to the proof by value: what a
path sends with a vote that it adopted is its own pointer. The model adds the stored proof to the entries of
`Model/Replica.lean`, and the replies with what they carry to its handlers.
-/

namespace Pequin

/-- A Phase1 vote that is sent. An ABORT carries what the pointer refers to, `none` if that is no proof. -/
structure P1Vote where
  result : Result
  conflict : Option CommittedProof
  deriving DecidableEq, Repr

/-- The entries for a digest, with `conflict` of `P1MetaData`. -/
structure P1Node where
  state : TxnState := {}
  conflict : Option CommittedProof := none

/-- What makes a replica vote: an input, or `wakeSubscribedTx` after the missing queries have arrived, which calls
`TryPrepare` again. -/
inductive P1Event where
  | input (inp : Input)
  | wakeSubscribed (isGossip : Bool) (occ : OccOutcome)
  deriving DecidableEq, Repr

/-- What a path leaves in `conflict`, and the votes it sends. -/
abbrev P1Act := Option CommittedProof × List P1Vote

section Paths

variable (srv : Server) (d : Digest)

/-- `SendPhase1Reply` and `SetP1`. No path sends a vote that is still open. -/
def sendP1 (conflict : Option CommittedProof) : Result → List P1Vote
  | .commit => [⟨.commit, none⟩]
  | .abstain => [⟨.abstain, none⟩]
  | .abort => [⟨.abort, conflict⟩]
  | .wait | .retry | .ignore => []

/-- The proof `DoOCCCheck` leaves in the pointer of its caller. -/
def occConflict : OccOutcome → Option CommittedProof
  | .conflict proof => if srv.cacheReadSet then none else some proof
  | _ => none

variable (st : TxnState)

/-- `conflict` after `BufferP1Result`. -/
def bufferConflict (stored : Option CommittedProof) (result : Result)
    (conflict : Option CommittedProof) : Option CommittedProof :=
  if result = .ignore then none
  else match st.p1.result with
    | none => conflict
    | some old => if result ≠ .wait ∧ old = .wait then conflict else stored

def wakeVotes (result : Result) (conflict : Option CommittedProof) : List P1Vote :=
  if st.interested then
    match st.forwardWritebackMulti with
    | some _ => []
    | none => sendP1 conflict result
  else []

variable (stored : Option CommittedProof)

def handlePhase1CBVotes (result : Result) (conflict : Option CommittedProof) (isGossip : Bool) : P1Act :=
  if result = .ignore then (stored, [])
  else
    let b := bufferP1Result st result isGossip 0
    let reply := if (b.result ≠ .wait ∧ isGossip = false) ∨ b.originalSub then
      sendP1 conflict b.result else []
    (bufferConflict st stored result conflict,
      if b.wakeFallbacks then reply ++ wakeVotes b.state b.result conflict else reply)

def tryPrepareVotes (isGossip : Bool) (occ : OccOutcome) : P1Act :=
  if st.ongoing.isNone then
    if st.committed.isSome then (stored, sendP1 none .commit)
    else if st.aborted then (stored, sendP1 none .abstain)
    else (stored, [])
  else
    let r := doOCCCheck srv d st occ
    handlePhase1CBVotes r.1 stored r.2 (occConflict srv occ) isGossip

/-- The votes of `ExecP1` and of its callers, with the vote itself in the reply to the fallback. -/
def execP1Votes (occ : OccOutcome) : P1Act :=
  let r := doOCCCheck srv d st occ
  let b := bufferP1Result r.1 r.2 false 1
  let conflict := occConflict srv occ
  (bufferConflict r.1 stored r.2 conflict, (if b.originalSub then sendP1 conflict b.result else []) ++
      if b.result = .ignore ∨ b.result = .wait then [] else sendP1 conflict b.result)

def handlePhase1Votes (isGossip : Bool) : List P1Vote :=
  match st.oo with
  | some _ => []
  | none =>
    match st.p1.result with
    | some result => if isGossip then [] else sendP1 stored result
    | none =>
      if st.committed.isSome then sendP1 none .commit
      else if st.aborted then sendP1 none .abstain
      else []

def handlePhase1FBVotes (txn : Transaction) (occ : OccOutcome) : P1Act :=
  if st.forwardWriteback then (stored, [])
  else match st.p1.result, st.p2.hasP2 with
    | some result, _ => (stored, sendP1 stored result)
    | none, true => execP1Votes srv d { st with interested := true, ongoing := some txn } stored occ
    | none, false => (stored, [])

/-- The votes of `CheckDependents`, which has no proof to send. -/
def checkDependentsVotes (depsCommitted : Bool) : P1Act :=
  let result? : Option Result :=
    if st.ongoing.isSome then some (if depsCommitted then .commit else .abstain)
    else if st.committed.isSome then some .commit
    else if st.aborted then some .abstain
    else none
  match result? with
  | none => (stored, [])
  | some result =>
    let b := bufferP1Result st result false 2
    (bufferConflict st stored result none,
      (if b.originalSub then sendP1 none b.result else []) ++ wakeVotes b.state b.result none)

/-- The votes of an input. Other messages and tasks send none. -/
def inputVotes : Input → P1Act
  | .message (.phase1 _ isGossip) _ => (stored, handlePhase1Votes st stored isGossip)
  | .message (.phase1FB txn) occ => handlePhase1FBVotes srv d st stored txn occ
  | .message _ _ => (stored, [])
  | .task i occ =>
    match st.tasks[i]? with
    | some (.tryPrepare _ isGossip) =>
      tryPrepareVotes srv d { st with tasks := st.tasks.eraseIdx i } stored isGossip occ
    | some (.tryExec _) => execP1Votes srv d { st with tasks := st.tasks.eraseIdx i } stored occ
    | _ => (stored, [])
  | .wake depsCommitted =>
    if st.prepared || st.p1.result == some .wait then checkDependentsVotes st stored depsCommitted
    else (stored, [])

end Paths

namespace P1Node

variable (srv : Server) (d : Digest)

/-- The stored proof after an event, and the votes sent. -/
def act (n : P1Node) : P1Event → P1Act
  | .input inp => inputVotes srv d n.state n.conflict inp
  | .wakeSubscribed isGossip occ => tryPrepareVotes srv d n.state n.conflict isGossip occ

def handle (n : P1Node) : P1Event → Act
  | .input inp => n.state.act srv d inp
  | .wakeSubscribed isGossip occ => tryPrepare srv d n.state isGossip occ

def step (n : P1Node) (e : P1Event) : P1Node := ⟨(n.handle srv d e).1, (n.act srv d e).1⟩

def votes : P1Node → List P1Event → List P1Vote
  | _, [] => []
  | n, e :: es => (n.act srv d e).2 ++ votes (n.step srv d e) es

end P1Node

end Pequin
