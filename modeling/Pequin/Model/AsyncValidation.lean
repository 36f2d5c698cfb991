import Pequin.Model.Replica
import Pequin.Framework.Run

/-!
# Validation of a certificate by jobs

The asynchronous validators of `store/pequinstore/common.cc`. A validator scans the certificate and puts the signatures
that have to be verified into jobs (`Dispatch`). The jobs complete in any order, and each one calls back the
`AsyncVerification` object that they share, under its lock. The object calls the completion callback.

`Dispatch.outcome` lists, for one order of the jobs, the arguments of all calls of the completion callback; it is `none`
if the process ends (`Panic`, or a failed assertion). The functions of the same names in `Model/Certificates` only say
whether the callback can be entered with `true`. The results of the jobs are those of `verify`. The code behind a
`Panic` is unreachable and left out, and with it the flag `callback` of the object.
-/

namespace Pequin

structure AsyncVerification where
  quorumSize : Nat
  /-- A map from groups to counts: one element for each increment. -/
  groupCounts : List Nat := []
  groupTotals : Nat
  groupsVerified : Nat := 0
  decision : CommitDecision
  terminate : Bool := false
  deletable : Nat := 0
  deriving DecidableEq, Repr

/-- The effect of one call back: the process goes on with the new object, and the completion
callback may have been called. -/
abbrev CallBack := AsyncVerification → Nat → Bool → Option (AsyncVerification × Option Bool)

/-- The group is a `uint32_t`. -/
def asyncValidateP1RepliesCallback : CallBack := fun o groupId result =>
  let g := groupId % 2 ^ 32
  let o := { o with deletable := o.deletable - 1 }
  -- whoever comes last finds nothing left to do but to fail
  let incomplete (o : AsyncVerification) := if o.deletable = 0 then none else some (o, none)
  if o.terminate then incomplete o
  else if !result then incomplete { o with terminate := true }
  else
    let o := { o with groupCounts := g :: o.groupCounts }
    if o.groupCounts.count g ≠ o.quorumSize then incomplete o
    else
      let o := { o with groupsVerified := o.groupsVerified + 1 }
      if o.decision = .commit ∧ o.groupsVerified ≠ o.groupTotals then incomplete o
      else some ({ o with terminate := true }, some true)

/-- A job that fails ends the process, and so does a second group among the counts. -/
def asyncValidateP2RepliesCallback : CallBack := fun o groupId result =>
  let g := groupId % 2 ^ 32
  let o := { o with deletable := o.deletable - 1 }
  let incomplete (o : AsyncVerification) := if o.deletable = 0 then none else some (o, none)
  if o.terminate then incomplete o
  else if !result then none
  else
    let o := { o with groupCounts := g :: o.groupCounts }
    if o.groupCounts.dedup.length ≠ 1 then none
    else if o.groupCounts.count g = o.quorumSize then some ({ o with terminate := true }, some true)
    else incomplete o

/-- What a validator does on the thread that calls it. -/
inductive Dispatch where
  | panic
  /-- The validator returns without calling back, and no job is left that could. -/
  | silent
  /-- The completion callback is called at once, and no job is left. -/
  | report (valid : Bool)
  /-- A job is the group it counts for and the result of its verification. -/
  | jobs (obj : AsyncVerification) (verifications : List (Nat × Bool))

namespace Dispatch

def verifications : Dispatch → List (Nat × Bool)
  | jobs _ js => js
  | _ => []

/-- One job calls back; the second component collects the calls of the completion callback. -/
def step (cb : CallBack) (s : AsyncVerification × List Bool) (job : Nat × Bool) :
    Option (AsyncVerification × List Bool) :=
  (cb s.1 job.1 job.2).map fun r => (r.1, s.2 ++ r.2.toList)

/-- The calls of the completion callback, if the jobs complete in this order. -/
def outcome (cb : CallBack) (order : List (Nat × Bool)) : Dispatch → Option (List Bool)
  | panic => none
  | silent => some []
  | report b => some [b]
  | jobs o _ => (Run.exec (step cb) (o, []) order).map Prod.snd

end Dispatch

/-! ## Phase1 votes -/

/-- The loop of `asyncValidateP1Replies` over the entries. -/
def dispatchP1 (c : Configuration) (own : Nat → Bool) (ownMatches : Bool) (valid : Nat → Signature → Bool) :
    AsyncVerification → List (Nat × Signature) → List (Nat × Nat) → List (Nat × Bool) → Dispatch
  | o, [], _, js => .jobs { o with deletable := js.length } js
  | o, (g, s) :: rest, seen, js =>
    if !isReplicaInGroup c s.processId g || seen.contains (g, s.processId) then .panic
    else if own s.processId then
      if !ownMatches then .panic
      else
        let o := { o with groupCounts := g :: o.groupCounts }
        if o.groupCounts.count g ≠ o.quorumSize then
          dispatchP1 c own ownMatches valid o rest ((g, s.processId) :: seen) js
        else
          let o := { o with groupsVerified := o.groupsVerified + 1 }
          if o.decision = .commit ∧ o.groupsVerified ≠ o.groupTotals then
            dispatchP1 c own ownMatches valid o rest ((g, s.processId) :: seen) js
          else .report true
    else dispatchP1 c own ownMatches valid o rest ((g, s.processId) :: seen) (js ++ [(g, valid g s)])

def verifyVote (decision : CommitDecision) (txnDigest : Digest) (g : Nat) (s : Signature) : Bool :=
  verify s.processId (SignedBody.concurrencyControl (ccrOf decision) txnDigest g).wire s.signature

variable (c : Configuration)

/-- The object of a Phase1 validation. -/
def AsyncVerification.ofVotes (decision : CommitDecision) (fast : Bool) (txn : Transaction) : AsyncVerification where
  quorumSize := p1QuorumSize c decision fast
  groupTotals := txn.involvedGroups.length
  decision := decision

variable (decision : CommitDecision)

namespace Dispatch

/-- For an abort only a single group is looked at. -/
def asyncValidateP1Replies (fast : Bool) (txn : Transaction) (txnDigest : Digest) (groupedSigs : GroupedSignatures)
    (myProcessId : Nat) (my : Option Result) : Dispatch :=
  let groups : GroupedSignatures := if decision = .abort then groupedSigs.take 1 else groupedSigs
  dispatchP1 c (fun id => my.isSome && id == myProcessId) (my == some (ccrOf decision))
    (verifyVote decision txnDigest) (.ofVotes c decision fast txn) groups.entries [] []

end Dispatch

/-- The loop of `asyncBatchValidateP1Replies`. -/
def dispatchBatchP1 (c : Configuration) (valid : Nat → Signature → Bool) (o : AsyncVerification) :
    List (Nat × Signature) → List (Nat × Nat) → List (Nat × Bool) → Dispatch
  | [], _, js => .jobs { o with deletable := js.length } js
  | (g, s) :: rest, seen, js =>
    if !isReplicaInGroup c s.processId g || seen.contains (g, s.processId) then .report false
    else dispatchBatchP1 c valid o rest ((g, s.processId) :: seen) (js ++ [(g, valid g s)])

/-- The vote of the replica itself is not used, and an abort looks at all groups. -/
def Dispatch.asyncBatchValidateP1Replies (fast : Bool)
    (txn : Transaction) (txnDigest : Digest) (groupedSigs : GroupedSignatures) : Dispatch :=
  dispatchBatchP1 c (verifyVote decision txnDigest) (.ofVotes c decision fast txn)
    groupedSigs.entries [] []

/-! ## Validation of a Phase2 message -/

/-- The parameters that choose the validator. -/
structure Threading where
  multiThreading : Bool
  batchVerification : Bool
  deriving DecidableEq, Repr

/-- The validator calls `HandlePhase2CB`; the synchronous branch does so itself, after a failure. -/
def managePhase2Validation (t : Threading) (c : Configuration) (msg : Phase2) (txn : Transaction)
    (txnDigest : Digest) (myProcessId : Nat) (my : Option Result) : Dispatch :=
  if t.batchVerification then
    .asyncBatchValidateP1Replies c msg.decision false txn txnDigest msg.groupedSigs
  else if t.multiThreading then
    .asyncValidateP1Replies c msg.decision false txn txnDigest msg.groupedSigs myProcessId my
  else if !validateP1Replies c msg.decision false txn txnDigest msg.groupedSigs myProcessId my then
    .report false
  else .silent

/-- What `HandlePhase2` validates a message with: none if it is answered from what is on record, put off or dropped. -/
def phase2Validated (srv : Server) (d : Digest) (st : TxnState) (msg : Phase2) : Option (Transaction × Option Result) :=
  if st.p2.hasP2 || st.finished then none
  else
    let my := if msg.simulatedEquiv then none else st.lookupP1Decision
    match msg.txnDigest, st.ongoing, msg.txn with
    | some _, some txn, _ => some (txn, my)
    | some _, none, some txn => if srv.digestOf txn = d then some (txn, my) else none
    | some _, none, none => none
    | none, _, some txn => some (txn, my)
    | none, _, none => none

/-! ## Replies of one group -/

/-- The loop that the other validators share: `ok` is the check of each entry, `skip` tells the entries that are not
verified, `valid` is the signature check of a job. -/
def dispatchReplies {α : Type} (pid : α → Nat) (ok skip valid : α → Bool) (group : Nat) :
    AsyncVerification → List α → List Nat → List (Nat × Bool) → Dispatch
  | o, [], _, js => .jobs { o with deletable := js.length } js
  | o, e :: rest, seen, js =>
    if !ok e || seen.contains (pid e) then .report false
    else if skip e then
      let o := { o with groupCounts := group :: o.groupCounts }
      if o.groupCounts.count group = o.quorumSize then .report true
      else dispatchReplies pid ok skip valid group o rest (pid e :: seen) js
    else dispatchReplies pid ok skip valid group o rest (pid e :: seen) (js ++ [(group, valid e)])

/-- The object of a validation that needs `quorum` replies of one group. -/
def AsyncVerification.ofReplies (quorum : Nat) (decision : CommitDecision) : AsyncVerification where
  quorumSize := quorum
  groupTotals := 1
  decision := decision

variable (view : Nat)

def verifyReply (txnDigest : Digest) (logGrp : Nat) (s : Signature) : Bool :=
  verify s.processId (SignedBody.phase2Decision decision txnDigest logGrp view).wire s.signature

namespace Dispatch

def asyncValidateP2Replies (txn : Transaction) (txnDigest : Digest) (groupedSigs : GroupedSignatures)
    (myProcessId : Nat) (my : Option CommitDecision) : Dispatch :=
  match getLogGroup txn txnDigest with
  | none => .panic
  | some logGrp =>
    match groupedSigs with
    | [(g, sigs)] =>
      if g ≠ logGrp then .report false
      else if c.f = 1 ∧ sigs.length ≠ 5 then .panic
      else
        dispatchReplies Signature.processId (fun s => isReplicaInGroup c s.processId g)
          (fun s => my == some decision && s.processId == myProcessId)
          (verifyReply decision view txnDigest logGrp) g (.ofReplies c.quorumSize decision) sigs [] []
    | _ => .report false

def asyncBatchValidateP2Replies (txn : Transaction) (txnDigest : Digest) (groupedSigs : GroupedSignatures) : Dispatch :=
  match getLogGroup txn txnDigest with
  | none => .panic
  | some logGrp =>
    match groupedSigs with
    | [(g, sigs)] =>
      if g ≠ logGrp then .report false
      else
        dispatchReplies Signature.processId (fun s => isReplicaInGroup c s.processId g)
          (fun _ => false) (verifyReply decision view txnDigest logGrp) g
          (.ofReplies c.quorumSize decision) sigs [] []
    | _ => .report false

end Dispatch

/-! ## View changes -/

/-- The synchronous loop of `VerifyFBViews` and `ValidateFBDecision`: it stops at the quorum. -/
def validateReplies {α : Type} (pid : α → Nat) (ok skip valid : α → Bool) (quorum : Nat) :
    List α → List Nat → Nat → Bool
  | [], _, _ => false
  | e :: rest, seen, verified =>
    if !ok e || seen.contains (pid e) then false
    else if !skip e && !valid e then false
    else if verified + 1 = quorum then true
    else validateReplies pid ok skip valid quorum rest (pid e :: seen) (verified + 1)

section

variable (proposedView : Nat) (catchUp : Bool) (logGrp : Nat) (txnDigest : Digest)

/-- The number of views an InvokeFB has to show. -/
def viewQuorum : Nat :=
  if catchUp then c.f + 1 else 3 * c.f + 1

/-- The least view that counts: `proposed_view - (1-catch_up)`. -/
def leastView : Nat :=
  if catchUp then proposedView else (proposedView + (2 ^ 64 - 1)) % 2 ^ 64

/-- The checks of a signed view before its signature. -/
def isViewVote (m : SignedMessage) : Bool :=
  isReplicaInGroup c m.processId logGrp && m.data.bytes 2 == txnDigest &&
    decide (leastView proposedView catchUp ≤ m.data.varint 1)

/-- Our own view is not verified if we have reached it. -/
def isOwnView (myProcessId myCurrentView : Nat) (m : SignedMessage) : Bool :=
  m.processId == myProcessId && decide (leastView proposedView catchUp ≤ myCurrentView)

def verifyFBViews (signedMessages : List SignedMessage) (myProcessId myCurrentView : Nat) : Bool :=
  validateReplies SignedMessage.processId (isViewVote c proposedView catchUp logGrp txnDigest)
    (isOwnView proposedView catchUp myProcessId myCurrentView)
    (fun m => verify m.processId m.data m.signature) (viewQuorum c catchUp) signedMessages [] 0

def verifyElect (s : Signature) : Bool :=
  verify s.processId (SignedBody.electMessage 0 txnDigest decision view).wire s.signature

end

def validateFBDecision (txn : Transaction) (txnDigest : Digest) (sigs : List Signature)
    (myProcessId : Nat) (my : Option CommitDecision) : Bool :=
  match getLogGroup txn txnDigest with
  | none => false
  | some logGrp =>
    validateReplies Signature.processId (fun s => isReplicaInGroup c s.processId logGrp)
      (fun s => my == some decision && s.processId == myProcessId) (verifyElect decision view txnDigest)
      (2 * c.f + 1) sigs [] 0

namespace Dispatch

/-- More jobs than the quorum fail an assertion. -/
def asyncVerifyFBViews (proposedView : Nat) (catchUp : Bool) (logGrp : Nat)
    (txnDigest : Digest) (signedMessages : List SignedMessage) (myProcessId myCurrentView : Nat) : Dispatch :=
  match dispatchReplies SignedMessage.processId (isViewVote c proposedView catchUp logGrp txnDigest)
      (isOwnView proposedView catchUp myProcessId myCurrentView)
      (fun m => verify m.processId m.data m.signature) logGrp
      (.ofReplies (viewQuorum c catchUp) .commit) signedMessages [] [] with
  | .jobs o js => if js.length ≤ viewQuorum c catchUp then .jobs o js else .panic
  | d => d

def asyncValidateFBDecision (txn : Transaction) (txnDigest : Digest) (sigs : List Signature)
    (myProcessId : Nat) (my : Option CommitDecision) : Dispatch :=
  match getLogGroup txn txnDigest with
  | none => .panic
  | some logGrp =>
    dispatchReplies Signature.processId (fun s => isReplicaInGroup c s.processId logGrp)
      (fun s => my == some decision && s.processId == myProcessId) (verifyElect decision view txnDigest)
      logGrp (.ofReplies (2 * c.f + 1) decision) sigs [] []

end Dispatch

/-! ## Validation of a fallback decision -/

/-- What `HandleDecisionFB` validates a message with: none if it is outdated, or the transaction is finished or not
known. -/
def decisionValidated (st : TxnState) (msg : DecisionFB) : Option (Transaction × Option CommitDecision) :=
  if st.forwardWritebackMulti.isSome ∨ msg.view < st.p2.currentView ∨ msg.view = 0 then none
  else st.ongoing.map fun txn => (txn, st.lookupP2Decision)

/-- The end of `HandleDecisionFB`: whether `FBDecisionCallback` can be entered with `true`. Without multithreading the
verdict of `ValidateFBDecision`, which ends the process if there is no log group, is not used. -/
def decisionCalled (multiThreading : Bool) (c : Configuration) (msg : DecisionFB) (txn : Transaction)
    (txnDigest : Digest) (myProcessId : Nat) (my : Option CommitDecision) : Bool :=
  if multiThreading then
    Pequin.asyncValidateFBDecision c msg.decision msg.view txn txnDigest msg.electSigs myProcessId my
  else (getLogGroup txn txnDigest).isSome

end Pequin
