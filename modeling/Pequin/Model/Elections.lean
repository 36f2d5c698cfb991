import Pequin.Model.Cluster

/-!
# Elections

What a fallback leader gets for one transaction: ElectFB messages, the votes that it signs itself, and the ends of the
verifications that `HandleElectFB` has dispatched. Without multithreading a message is verified on the thread that
handles it.

All-to-all fallbacks also exchange MoveView messages, which are authenticated by their senders
(`ValidateHMACedMessage`); the sender is not used.
-/

namespace Pequin

/-- `HandleElectFB` without multithreading. `release_signature` has taken the signature out of the message, so `Verify`
gets an empty one and fails. -/
def handleElectFBSerial (srv : Server) (d : Digest) (st : TxnState) (msg : SignedMessage) : TxnState :=
  if !isReplicaInGroup srv.config msg.processId srv.groupIdx then st
  else if leaderIdx srv d (msg.data.varint 4) ≠ srv.idx then st
  else
    match st.forwardWritebackMulti with
    | some st => st
    | none =>
      match preProcessElectFB st (msg.data.varint 4) (msg.data.decision 3) msg.processId with
      | none => st
      | some st => st

/-- A received ElectFB, or a vote of the leader itself. -/
inductive ElectArrival where
  | received (msg : SignedMessage)
  | own (view : Nat) (decision : CommitDecision)

inductive ElectEvent where
  | arrive (a : ElectArrival)
  | verified (msg : SignedMessage)

/-- The verification of the message. -/
def Task.isElect (msg : SignedMessage) : Task → Bool
  | .elect m => m == msg
  | _ => false

def electStep (multiThreading : Bool) (srv : Server) (d : Digest) (st : TxnState) : ElectEvent → TxnState
  | .arrive (.received msg) =>
    if multiThreading then (handleElectFB srv d st msg).1 else handleElectFBSerial srv d st msg
  | .arrive (.own view decision) => (ownElect srv d st view decision).1
  | .verified msg => (st.act srv d (.task (st.tasks.findIdx (Task.isElect msg)) .ignore)).1

def electRun (multiThreading : Bool) (srv : Server) (d : Digest) (st : TxnState) (es : List ElectEvent) : TxnState :=
  es.foldl (electStep multiThreading srv d) st

inductive MoveEvent where
  | invokeFB (msg : InvokeFB)
  /-- The certificate in an InvokeFB has been validated. -/
  | p2fbValidated (msg : InvokeFB) (p2fb : Phase2FB)
  /-- The views in an InvokeFB have been validated. -/
  | viewsValidated (proposedView : Nat)
  /-- A MoveView of the replica with this index in the group. -/
  | moveView (sender view : Nat)

def moveStep (srv : Server) (d : Digest) (st : TxnState) : MoveEvent → TxnState
  | .invokeFB msg => (handleInvokeFB srv d st msg).1
  | .p2fbValidated msg p2fb => (invokeFBProcessP2FBCallback srv d st msg p2fb).1
  | .viewsValidated proposedView => (invokeFBcallback srv d st proposedView).1
  | .moveView _ view => (handleMoveView srv st view).1

def moveRun (srv : Server) (d : Digest) (st : TxnState) (es : List MoveEvent) : TxnState :=
  es.foldl (moveStep srv d) st

end Pequin
