import Pequin.Model.Certificates

/-!
# A replica's handling of one transaction

The message handlers of `server.cc`, `server_fallback.cc` and `servertools.cc`, with `multiThreading`,
`signedMessages`, `validateProofs`, `parallel_CCC` and `mainThreadDispatching` on (the defaults). The entries that the
maps of the server hold for one digest form a `TxnState`. A handler returns the new entries and the messages the
replica signs.

Work that is dispatched to another thread is a `Task`, with the values looked up when it was dispatched, and is run
later by `completeTask`. A `Panic` ends the process; here the step is left without effect. The outcome of the
concurrency control check (`DoOCCCheck`) is an input (`OccOutcome`).
-/

namespace Pequin

open Function

/-! ## Messages -/

structure Phase2 where
  decision : CommitDecision
  txn : Option Transaction
  txnDigest : Option Digest
  groupedSigs : GroupedSignatures
  simulatedEquiv : Bool := false
  deriving DecidableEq, Repr

structure Phase2FB where
  decision : CommitDecision
  txn : Option Transaction
  txnDigest : Digest
  p1Sigs : Option GroupedSignatures
  p2Replies : Option (List SignedMessage)
  deriving DecidableEq, Repr

structure InvokeFB where
  txnDigest : Digest
  p2fb : Option Phase2FB
  proposedView : Nat
  catchup : Bool
  viewSigned : Option (List SignedMessage)
  deriving DecidableEq, Repr

structure DecisionFB where
  txnDigest : Digest
  decision : CommitDecision
  view : Nat
  electSigs : List Signature
  deriving DecidableEq, Repr

/-- The `reply_oneof` of a Writeback. -/
inductive WritebackSigs where
  | p1 (sigs : GroupedSignatures)
  | p2 (sigs : GroupedSignatures) (view : Option Nat)
  | conflict (proof : CommittedProof)
  | none
  deriving DecidableEq, Repr

structure Writeback where
  decision : CommitDecision
  txnDigest : Option Digest
  txn : Option Transaction
  sigs : WritebackSigs
  deriving DecidableEq, Repr

/-! ## State -/

/-- The buffered vote and who waits for it. -/
structure P1MetaData where
  result : Option Result := none
  subOriginal : Bool := false
  fallbacksInterested : Bool := false
  deriving DecidableEq, Repr

/-- `p2Decision` has no value before `hasP2` is set. -/
structure P2MetaData where
  currentView : Nat := 0
  decisionView : Nat := 0
  hasP2 : Bool := false
  p2Decision : CommitDecision := .commit
  deriving DecidableEq, Repr

/-- What a fallback leader has collected, and the MoveView counts. -/
structure ElectFBorganizer where
  viewComplete : Nat → Bool := fun _ => false
  /-- The replicas that sent an ElectFB, and the signatures that verified. -/
  viewQuorums : Nat → CommitDecision → List Nat × List Signature := fun _ _ => ([], [])
  /-- The count, and whether our own MoveView is still to be sent. -/
  moveViewCounts : Nat → Nat × Bool := fun _ => (0, true)

/-- A message that overtook the Phase1 of its transaction (`ooMessages`). -/
inductive OoMsg where
  | phase2 (msg : Phase2)
  | writeback (msg : Writeback)

inductive Task where
  | tryPrepare (txn : Transaction) (isGossip : Bool)
  | tryExec (txn : Transaction)
  | phase2 (msg : Phase2) (txn : Transaction) (my : Option Result)
  | p2fbReplies (msg : Phase2FB) (txn : Transaction) (replies : List SignedMessage)
      (my : Option CommitDecision)
  | p2fbVotes (msg : Phase2FB) (txn : Transaction) (sigs : GroupedSignatures) (my : Option Result)
  | invokeReplies (msg : InvokeFB) (p2fb : Phase2FB) (txn : Transaction)
      (replies : List SignedMessage) (my : Option CommitDecision)
  | invokeVotes (msg : InvokeFB) (p2fb : Phase2FB) (txn : Transaction)
      (sigs : GroupedSignatures) (my : Option Result)
  | verifyViews (msg : InvokeFB) (views : List SignedMessage) (logGrp myCurrentView : Nat)
  | ownElect (view : Nat) (decision : CommitDecision)
  | elect (msg : SignedMessage)
  | decision (msg : DecisionFB) (txn : Transaction) (my : Option CommitDecision)
  | writebackP1 (msg : Writeback) (txn : Transaction) (sigs : GroupedSignatures) (my : Option Result)
  | writebackP2 (msg : Writeback) (txn : Transaction) (sigs : GroupedSignatures) (view : Nat)
      (my : Option CommitDecision)
  | writebackConflict (msg : Writeback) (txn : Transaction) (proof : CommittedProof)
  | supply (proof : CommittedProof)

/-- The entries of the server's maps for one digest. -/
structure TxnState where
  ongoing : Option Transaction := none
  p1 : P1MetaData := {}
  p2 : P2MetaData := {}
  prepared : Bool := false
  committed : Option CommittedProof := none
  aborted : Bool := false
  /-- `writebackMessages`: the Writeback the transaction was aborted with. -/
  writeback : Option Writeback := none
  /-- Whether fallback clients are registered in `interestedClients`. -/
  interested : Bool := false
  elect : Option ElectFBorganizer := none
  oo : Option OoMsg := none
  supplied : Bool := false
  tasks : List Task := []

structure Server where
  config : Configuration
  groupIdx : Nat
  idx : Nat
  allToAllFb : Bool
  cacheReadSet : Bool
  /-- `TransactionDigest`. -/
  digestOf : Transaction → Digest

namespace Server

def id (srv : Server) : Nat := srv.groupIdx * srv.config.n + srv.idx

end Server

/-- What a handler returns: the new entries and the messages signed. -/
abbrev Act := TxnState × List SignedBody

namespace TxnState

variable (st : TxnState)

def finished : Bool := st.committed.isSome || st.aborted

/-- Whether a Writeback can be sent instead of handling the message. -/
def forwardWriteback : Bool := st.committed.isSome || st.writeback.isSome

/-- The guard with `ForwardWritebackMulti`: it is only asked when clients are registered,
and drops the registrations. -/
def forwardWritebackMulti : Option TxnState :=
  if st.interested && st.forwardWriteback then some { st with interested := false } else none

def dispatch (t : Task) : TxnState := { st with tasks := st.tasks ++ [t] }

def lookupP1Decision : Option Result :=
  if st.p1.result = some .wait then none else st.p1.result

def lookupP2Decision : Option CommitDecision :=
  if st.p2.hasP2 then some st.p2.p2Decision else none

/-- A hard clean of an ongoing transaction marks it aborted. -/
def clean (hard : Bool) : TxnState :=
  { st with
    ongoing := none
    aborted := st.aborted || (hard && st.ongoing.isSome)
    prepared := false
    interested := false
    elect := none
    p1 := if hard then {} else st.p1 }

def abort : TxnState := { st with aborted := true }.clean false

/-- `Commit` and `CommitWithProof`, once the proof is built. -/
def commit (proof : CommittedProof) : TxnState :=
  if st.committed.isSome then st else { st with committed := some proof }.clean false

end TxnState

/-! ## Signed replies -/

section Handlers

variable (srv : Server) (d : Digest)

def setP2 (decision : CommitDecision) (view : Nat) : SignedBody :=
  .phase2Decision decision d srv.groupIdx view

variable (st : TxnState)

def storedP2 : SignedBody := setP2 srv d st.p2.p2Decision st.p2.decisionView

/-- The signature under a Phase1 reply. An abort carries its conflict instead, and a
vote that is still open is not sent. -/
def signP1 (result : Result) : List SignedBody :=
  if result = .commit ∨ result = .abstain then [.concurrencyControl result d srv.groupIdx] else []

def sendView : SignedBody := .currentView st.p2.currentView d srv.id

/-- The view attached to fallback replies, in the client-driven mode. -/
def attachedView : List SignedBody :=
  if srv.allToAllFb then [] else [sendView srv d st]

/-! ## Phase1 -/

/-- What `DoOCCCheck` finds, and whether it prepared the transaction. -/
inductive OccOutcome where
  | commit
  | wait (prepares : Bool)
  | abstain (prepares : Bool)
  | ignore
  | conflict (proof : CommittedProof)
  deriving DecidableEq, Repr

/-- `Prepare` acts on an ongoing transaction only. A conflict with a committed one aborts at once; with cached read
sets it is voted as an abstain. -/
def doOCCCheck : OccOutcome → TxnState × Result
  | .commit => ({ st with prepared := st.prepared || st.ongoing.isSome }, .commit)
  | .wait p => ({ st with prepared := st.prepared || (p && st.ongoing.isSome) }, .wait)
  | .abstain p => ({ st with prepared := st.prepared || (p && st.ongoing.isSome) }, .abstain)
  | .ignore => (st, .ignore)
  | .conflict proof =>
    let wb : Writeback := ⟨.abort, some d, none, .conflict proof⟩
    ({ st with writeback := st.writeback.or (some wb) }.abort, if srv.cacheReadSet then .abstain else .abort)

structure Buffered where
  state : TxnState
  result : Result
  originalSub : Bool
  wakeFallbacks : Bool

section

variable (result : Result) (isGossip : Bool) (occ : OccOutcome)

/-- The first vote stands, but a `WAIT` may be replaced. `fb` is `0` for the client, `1` for a fallback and `2` for a
wake-up. -/
def bufferP1Result (fb : Nat) : Buffered :=
  if result = .ignore then ⟨st.clean true, result, false, false⟩
  else
    let stored := match st.p1.result with
      | none => result
      | some old => if result ≠ .wait ∧ old = .wait then result else old
    let result := if result = .wait ∧ st.p1.result ≠ none then .wait else stored
    if result = .wait then
      ⟨{ st with p1 :=
          { result := some stored
            subOriginal := st.p1.subOriginal || (!isGossip && fb == 0)
            fallbacksInterested := st.p1.fallbacksInterested || (!isGossip && fb == 1) } },
        result, false, false⟩
    else
      ⟨{ st with p1 := { result := some stored } }, result, st.p1.subOriginal, st.p1.fallbacksInterested⟩

def wakeAllInterestedFallbacks : Act :=
  if st.interested then
    match st.forwardWritebackMulti with
    | some st => (st, [])
    | none => (st, signP1 srv d result ++ (if st.p2.hasP2 then [storedP2 srv d st] else []) ++ attachedView srv d st)
  else (st, [])

def handlePhase1CB : Act :=
  if result = .ignore then (st, [])
  else
    let b := bufferP1Result st result isGossip 0
    let reply := if (b.result ≠ .wait ∧ isGossip = false) ∨ b.originalSub then
      signP1 srv d b.result else []
    if b.wakeFallbacks then
      let w := wakeAllInterestedFallbacks srv d b.state b.result
      (w.1, reply ++ w.2)
    else (b.state, reply)

/-- On its worker thread. -/
def tryPrepare : Act :=
  if st.ongoing.isNone then
    if st.committed.isSome then (st, signP1 srv d .commit)
    else if st.aborted then (st, signP1 srv d .abstain)
    else (st, [])
  else
    let r := doOCCCheck srv d st occ
    handlePhase1CB srv d r.1 r.2 isGossip

/-- The state, and what is signed for the vote itself (`none` if it is still open) and for a subscribed client. -/
def execP1 : TxnState × Option Result × List SignedBody :=
  let r := doOCCCheck srv d st occ
  let b := bufferP1Result r.1 r.2 false 1
  (b.state, if b.result = .ignore ∨ b.result = .wait then none else some b.result,
    if b.originalSub then signP1 srv d b.result else [])

end

def tryExec (occ : OccOutcome) : Act :=
  match execP1 srv d st occ with
  | (st, none, out) => (st, out)
  | (st, some result, out) => (st, out ++ signP1 srv d result ++ attachedView srv d st)

def handlePhase1FB (txn : Transaction) (occ : OccOutcome) : Act :=
  if st.forwardWriteback then (st, [])
  else
    let st := { st with interested := true }
    match st.p1.result, st.p2.hasP2 with
    | some .wait, true =>
      ({ st with p1 := { st.p1 with fallbacksInterested := true } }, [storedP2 srv d st] ++ attachedView srv d st)
    | some result, true => (st, signP1 srv d result ++ [storedP2 srv d st] ++ attachedView srv d st)
    | some .wait, false => ({ st with p1 := { st.p1 with fallbacksInterested := true } }, [])
    | some result, false => (st, signP1 srv d result ++ attachedView srv d st)
    | none, true =>
      let p2 := storedP2 srv d st
      match execP1 srv d { st with ongoing := some txn } occ with
      | (st, none, out) => (st, out ++ [p2] ++ attachedView srv d st)
      | (st, some result, out) =>
        (st, out ++ signP1 srv d result ++ [p2] ++ attachedView srv d st)
    | none, false => ({ st with ongoing := some txn }.dispatch (.tryExec txn), [])

/-- For the last dependency. `depsCommitted` is what `CheckDependencies` finds for an ongoing transaction. -/
def checkDependents (depsCommitted : Bool) : Act :=
  let result? : Option Result :=
    if st.ongoing.isSome then some (if depsCommitted then .commit else .abstain)
    else if st.committed.isSome then some .commit
    else if st.aborted then some .abstain
    else none
  match result? with
  | none => (st, [])
  | some result =>
    let b := bufferP1Result st result false 2
    let w := wakeAllInterestedFallbacks srv d b.state b.result
    (w.1, (if b.originalSub then signP1 srv d b.result else []) ++ w.2)

/-! ## Phase2 -/

def handlePhase2 (msg : Phase2) : Act :=
  if st.p2.hasP2 then (st, [storedP2 srv d st])
  -- decided before any Phase2 was logged: it must have gone the fast path
  else if st.committed.isSome then (st, [setP2 srv d .commit 0])
  else if st.aborted then (st, [setP2 srv d .abort 0])
  else
    let my := if msg.simulatedEquiv then none else st.lookupP1Decision
    match msg.txnDigest, st.ongoing, msg.txn with
    | some _, some txn, _ => (st.dispatch (.phase2 msg txn my), [])
    | some _, none, some txn =>
      if srv.digestOf txn = d then (st.dispatch (.phase2 msg txn my), []) else (st, [])
    | some _, none, none =>
      (if st.oo.isSome then st else { st with oo := some (.phase2 msg) }, [])
    | none, _, some txn => (st.dispatch (.phase2 msg txn my), [])
    | none, _, none => (st, [])

/-- After a successful validation. -/
def handlePhase2CB (msg : Phase2) : Act :=
  if st.p2.hasP2 then (st, [storedP2 srv d st])
  else
    let st := { st with p2 := { st.p2 with p2Decision := msg.decision, hasP2 := true } }
    (st, [storedP2 srv d st])

/-- `HandlePhase2FB` with `ProcessP2FB`. The attached transaction is not checked against
the digest. -/
def handlePhase2FB (msg : Phase2FB) : Act :=
  if st.forwardWriteback then (st, [])
  else if st.p2.hasP2 then (st, [storedP2 srv d st] ++ attachedView srv d st)
  else
    match st.ongoing.or msg.txn with
    | none => (st, [])
    | some txn =>
      match msg.p2Replies, msg.p1Sigs with
      | some replies, _ => (st.dispatch (.p2fbReplies msg txn replies st.lookupP2Decision), [])
      | none, some sigs => (st.dispatch (.p2fbVotes msg txn sigs st.lookupP1Decision), [])
      | none, none => (st, [])

/-- After a successful validation. -/
def processP2FBCallback (msg : Phase2FB) : Act :=
  if st.forwardWriteback then (st, [])
  else
    let st := if st.p2.hasP2 then st
      else { st with p2 := { st.p2 with p2Decision := msg.decision, hasP2 := true, decisionView := 0 } }
    (st, [storedP2 srv d st] ++ attachedView srv d st)

/-! ## View changes -/

variable (view : Nat)

/-- What is signed is the decision of the message, in the view of the message. -/
def adoptDecision (decision : CommitDecision) : Act :=
  if view < st.p2.currentView then (st, [])
  else
    let p2 := { st.p2 with currentView := view }
    let p2 := if p2.decisionView < view then
      { p2 with decisionView := view, p2Decision := decision, hasP2 := true } else p2
    let st := { st with p2 := p2 }
    (st, [setP2 srv d decision view] ++ attachedView srv d st)

/-- The index of the fallback leader. The first byte is a `char`, that is, signed. -/
def leaderIdx : Nat :=
  let b := (d.headD 0).toNat
  (view + (if b < 128 then b else 2 ^ 64 - 256 + b)) % 2 ^ 64 % srv.config.n

variable (decision : CommitDecision)

/-- The leader's own vote is counted when the signature is ready. -/
def sendElectFB : Act :=
  (if leaderIdx srv d view = srv.idx then st.dispatch (.ownElect view decision) else st,
    [.electMessage 0 d decision view])

def processMoveView (proposedView : Nat) (self : Bool) : TxnState :=
  let org := st.elect.getD {}
  let (num, open_) := org.moveViewCounts proposedView
  let (count, num, open_) :=
    if self then (if open_ then (num + 1, num + 1, false) else (0, num, open_))
    else (num + 1, num + 1, open_)
  let ahead : Bool := decide (st.p2.currentView < proposedView)
  let (count, num, open_) :=
    if ahead && count == srv.config.f + 1 && open_ then (num + 1, num + 1, false)
    else (count, num, open_)
  { st with
    elect := some { org with moveViewCounts := update org.moveViewCounts proposedView (num, open_) }
    p2 := if ahead && count == 2 * srv.config.f + 1 then
      { st.p2 with currentView := proposedView } else st.p2 }

/-- The all-to-all answer to an InvokeFB: our own MoveView, and an ElectFB for the view
after the current one. -/
def moveAndElect : Act :=
  let proposedView := (st.p2.currentView + 1) % 2 ^ 64
  sendElectFB srv d (processMoveView srv st proposedView true) proposedView st.p2.p2Decision

def verifyViews (st : TxnState) (msg : InvokeFB) (logGrp : Nat) : Act :=
  match msg.viewSigned with
  | none => (st, [])
  | some views => (st.dispatch (.verifyViews msg views logGrp st.p2.currentView), [])

/-- `HandleInvokeFB` with `InvokeFBProcessP2FB`. -/
def handleInvokeFB (msg : InvokeFB) : Act :=
  if st.forwardWriteback then (st, [])
  else if srv.allToAllFb = false ∧ msg.proposedView ≤ st.p2.currentView then (st, [sendView srv d st])
  else
    match st.ongoing.or (msg.p2fb.bind Phase2FB.txn) with
    | none => (st, [])
    | some txn =>
      if getLogGroup txn d ≠ some srv.groupIdx then (st, [])
      else if st.p2.hasP2 then
        if srv.allToAllFb then moveAndElect srv d st
        else verifyViews st msg srv.groupIdx
      else
        match msg.p2fb with
        | none => (st, [])
        | some p2fb =>
          match p2fb.p2Replies, p2fb.p1Sigs with
          | some replies, _ =>
            (st.dispatch (.invokeReplies msg p2fb txn replies st.lookupP2Decision), [])
          | none, some sigs =>
            (st.dispatch (.invokeVotes msg p2fb txn sigs st.lookupP1Decision), [])
          | none, none => (st, [])

/-- After a successful validation. -/
def invokeFBProcessP2FBCallback (msg : InvokeFB) (p2fb : Phase2FB) : Act :=
  if st.forwardWriteback then (st, [])
  else
    let st := if st.p2.hasP2 then st
      else { st with p2 := { st.p2 with p2Decision := p2fb.decision, hasP2 := true } }
    if srv.allToAllFb then moveAndElect srv d st else verifyViews st msg srv.groupIdx

/-- After a successful validation. -/
def invokeFBcallback (proposedView : Nat) : Act :=
  if st.forwardWriteback then (st, [])
  else if !st.p2.hasP2 then (st, [])
  else if srv.allToAllFb = false ∧ proposedView ≤ st.p2.currentView then (st, [sendView srv d st])
  else sendElectFB srv d { st with p2 := { st.p2 with currentView := proposedView } } proposedView
    st.p2.p2Decision

/-- One entry per replica, view and decision. -/
def preProcessElectFB (processId : Nat) : Option TxnState :=
  let org := st.elect.getD {}
  let (ids, sigs) := org.viewQuorums view decision
  if ids.contains processId then none
  else some { st with elect := some { org with
    viewQuorums := update org.viewQuorums view
      (update (org.viewQuorums view) decision (processId :: ids, sigs)) } }

/-- With `2f + 1` signatures the leader decides, once per view. -/
def processElectFB (sig : Signature) : Act :=
  match st.elect with
  | none => (st, [])
  | some org =>
    if org.viewComplete view then (st, [])
    else
      let (ids, sigs) := org.viewQuorums view decision
      let sigs := sigs ++ [sig]
      let org := { org with
        viewQuorums := update org.viewQuorums view
          (update (org.viewQuorums view) decision (ids, sigs)) }
      if sigs.length = 2 * srv.config.f + 1 then
        adoptDecision srv d { st with elect := some { org with
          viewComplete := update org.viewComplete view true } } view decision
      else ({ st with elect := some org }, [])

/-- The signed string is parsed as an `ElectMessage`. -/
def handleElectFB (msg : SignedMessage) : Act :=
  if !isReplicaInGroup srv.config msg.processId srv.groupIdx then (st, [])
  else if leaderIdx srv d (msg.data.varint 4) ≠ srv.idx then (st, [])
  else
    match st.forwardWritebackMulti with
    | some st => (st, [])
    | none =>
      match preProcessElectFB st (msg.data.varint 4) (msg.data.decision 3) msg.processId with
      | none => (st, [])
      | some st => (st.dispatch (.elect msg), [])

/-- After a successful validation. -/
def electFBcallback (msg : SignedMessage) : Act :=
  match st.forwardWritebackMulti with
  | some st => (st, [])
  | none =>
    processElectFB srv d st (msg.data.varint 4) (msg.data.decision 3) ⟨msg.processId, msg.signature⟩

/-- The callback of `SendElectFB` at the leader itself. -/
def ownElect : Act :=
  match preProcessElectFB st view decision srv.id with
  | none => (st, [])
  | some st =>
    processElectFB srv d st view decision ⟨srv.id, ⟨srv.id, .electMessage 0 d decision view⟩⟩

def handleDecisionFB (msg : DecisionFB) : Act :=
  match st.forwardWritebackMulti with
  | some st => (st, [])
  | none =>
    if msg.view < st.p2.currentView ∨ msg.view = 0 then (st, [])
    else
      match st.ongoing with
      | none => (st, [])
      | some txn => (st.dispatch (.decision msg txn st.lookupP2Decision), [])

/-- After a successful validation. -/
def fbDecisionCallback (msg : DecisionFB) : Act :=
  match st.forwardWritebackMulti with
  | some st => (st, [])
  | none => adoptDecision srv d st msg.view msg.decision

def handleMoveView : Act :=
  match st.forwardWritebackMulti with
  | some st => (st, [])
  | none => (processMoveView srv st view false, [])

/-! ## Writeback -/

def manageWritebackValidation (msg : Writeback) (txn : Transaction) : Act :=
  match msg.sigs with
  | .p1 sigs => (st.dispatch (.writebackP1 msg txn sigs st.lookupP1Decision), [])
  | .p2 sigs (some view) => (st.dispatch (.writebackP2 msg txn sigs view st.lookupP2Decision), [])
  | .p2 _ none => (st, [])
  | .conflict proof =>
    if msg.decision = .abort then (st.dispatch (.writebackConflict msg txn proof), []) else (st, [])
  | .none => (st, [])

def handleWriteback (msg : Writeback) : Act :=
  if st.finished then (st.clean false, [])
  else
    match msg.txnDigest, st.ongoing, msg.txn with
    | some _, some txn, _ => manageWritebackValidation st msg txn
    | some _, none, some txn =>
      if srv.digestOf txn = d then manageWritebackValidation st msg txn else (st, [])
    | some _, none, none =>
      (match st.oo with
        | some (.writeback _) => st
        | _ => { st with oo := some (.writeback msg) }, [])
    | none, _, some txn => manageWritebackValidation st msg txn
    | none, _, none => (st, [])

/-- After a successful validation. -/
def writebackCallback (msg : Writeback) (proof : CommittedProof) : Act :=
  if st.finished then (st, [])
  else match msg.decision with
    | .commit => (st.commit proof, [])
    | .abort => ({ st with writeback := st.writeback.or (some msg) }.abort, [])

/-- `ProcessSuppliedTxn` with a commit proof. -/
def processSuppliedTxn (proof : CommittedProof) : Act :=
  if st.supplied then (st, [])
  else
    let st := { st with supplied := true }
    if st.finished || proof.txn.isGenesis || decide (srv.digestOf proof.txn ≠ d) then (st, [])
    else (st.dispatch (.supply proof), [])

/-- A message that overtook the Phase1 is handled in its place. -/
def handlePhase1 (txn : Transaction) (isGossip : Bool) : Act :=
  match st.oo with
  | some (.phase2 msg) => handlePhase2 srv d { st with ongoing := some txn, oo := none } msg
  | some (.writeback msg) => handleWriteback srv d { st with ongoing := some txn, oo := none } msg
  | none =>
    match st.p1.result with
    | some .wait =>
      (if isGossip then st else { st with p1 := { st.p1 with subOriginal := true } }, [])
    | some result => (st, if isGossip then [] else signP1 srv d result)
    | none =>
      if st.committed.isSome then (st, signP1 srv d .commit)
      else if st.aborted then (st, signP1 srv d .abstain)
      else ({ st with ongoing := some txn }.dispatch (.tryPrepare txn isGossip), [])

/-! ## Dispatched work -/

/-- The validation that a task waits for. -/
def Task.accepted : Task → Bool
  | .tryPrepare _ _ => true
  | .tryExec _ => true
  | .phase2 msg txn my =>
    asyncValidateP1Replies srv.config msg.decision false txn d msg.groupedSigs srv.id my
  | .p2fbReplies msg txn replies my =>
    asyncValidateFBP2Replies srv.config msg.decision txn d replies srv.id my
  | .p2fbVotes msg txn sigs my =>
    asyncValidateP1Replies srv.config msg.decision false txn d sigs srv.id my
  | .invokeReplies _ p2fb txn replies my =>
    asyncValidateFBP2Replies srv.config p2fb.decision txn d replies srv.id my
  | .invokeVotes _ p2fb txn sigs my =>
    asyncValidateP1Replies srv.config p2fb.decision false txn d sigs srv.id my
  | .verifyViews msg views logGrp my =>
    asyncVerifyFBViews srv.config msg.proposedView msg.catchup logGrp d views srv.id my
  | .ownElect _ _ => true
  | .elect msg => verify msg.processId msg.data msg.signature
  | .decision msg txn my =>
    asyncValidateFBDecision srv.config msg.decision msg.view txn d msg.electSigs srv.id my
  | .writebackP1 msg txn sigs my =>
    asyncValidateP1Replies srv.config msg.decision true txn d sigs srv.id my
  | .writebackP2 msg txn sigs view my =>
    asyncValidateP2Replies srv.config msg.decision view txn d sigs srv.id my
  | .writebackConflict _ txn proof =>
    asyncValidateCommittedConflict srv.config proof (srv.digestOf proof.txn) txn
  | .supply proof => asyncValidateCommittedProof srv.config proof d

/-- The callback of a task. -/
def finishTask (occ : OccOutcome) : Task → Act
  | .tryPrepare _ isGossip => tryPrepare srv d st isGossip occ
  | .tryExec _ => tryExec srv d st occ
  | .phase2 msg _ _ => handlePhase2CB srv d st msg
  | .p2fbReplies msg _ _ _ => processP2FBCallback srv d st msg
  | .p2fbVotes msg _ _ _ => processP2FBCallback srv d st msg
  | .invokeReplies msg p2fb _ _ _ => invokeFBProcessP2FBCallback srv d st msg p2fb
  | .invokeVotes msg p2fb _ _ _ => invokeFBProcessP2FBCallback srv d st msg p2fb
  | .verifyViews msg _ _ _ => invokeFBcallback srv d st msg.proposedView
  | .ownElect view decision => ownElect srv d st view decision
  | .elect msg => electFBcallback srv d st msg
  | .decision msg _ _ => fbDecisionCallback srv d st msg
  | .writebackP1 msg txn sigs _ => writebackCallback st msg ⟨txn, .p1 sigs⟩
  | .writebackP2 msg txn sigs view _ => writebackCallback st msg ⟨txn, .p2 sigs view⟩
  | .writebackConflict msg txn _ => writebackCallback st msg ⟨txn, .none⟩
  | .supply proof => (st.commit proof, [])

/-- Run a task. A validation that fails leaves no effect. -/
def completeTask (occ : OccOutcome) (t : Task) : Act :=
  if t.accepted srv d then finishTask srv d st occ t else (st, [])

end Handlers

end Pequin
