import Pequin.Model.Types

/-!
# Waiting for dependencies

The two maps of `concurrencycontrol.cc`: `dependents` lists, for a transaction, those that wait for it, and
`waitingDependencies_new` keeps what a transaction still waits for. `ManageDependencies` fills them, and
`CheckDependents`, which `Commit` and `Abort` call once the transaction is in `committed` or `aborted`, empties them
and resumes who waits for nothing more.

They run on several threads. An entry of a map is locked by an accessor, and the steps here are what happens between
two points where a thread may have to wait for one:

* `ManageDependencies` holds the entry of its transaction in `waitingDependencies_new` throughout (`Managing`), and
  takes the entry of one dependency in `dependents` at a time;
* `CheckDependents` holds the entry in `dependents` while it visits who waits, takes the entry of each in
  `waitingDependencies_new`, and under that one the entry in `p1MetaData` for `BufferP1Result` (`CheckPc`);
* `HandlePhase1` calls `ManageDependencies` on a buffered WAIT, and holds the entry in `p1MetaData` meanwhile
  (`heldP1`).
-/

namespace Pequin

open Function

/-- The dependencies a replica works with: the merged ones if queries were merged. -/
def Transaction.depSet (t : Transaction) : List Dependency :=
  match t.mergedReadSet with
  | some m => m.deps
  | none => t.deps

/-- Only the dependencies of the group are looked at. -/
def checkDependencies (groupIdx : Nat) (committed : Digest → Bool) (timestamp : Timestamp) : List Dependency → Result
  | [] => .commit
  | dep :: deps =>
    if dep.involvedGroup ≠ groupIdx then checkDependencies groupIdx committed timestamp deps
    else if committed dep.preparedTxnDigest then
      if timestamp < dep.preparedTimestamp then .abstain
      else checkDependencies groupIdx committed timestamp deps
    else .abstain

/-- The end of a wait: the result, and the sets of finished transactions it was decided on. -/
structure Resumption where
  txn : Digest
  result : Result
  committed : Digest → Bool
  aborted : Digest → Bool

/-- A call of `ManageDependencies`, while it holds its entry in `waitingDependencies_new`. -/
structure Managing where
  /-- `new_waiting_dep`: the call inserted the entry. -/
  isNew : Bool
  /-- The caller holds the entry in `p1MetaData`. -/
  underP1 : Bool
  missing : List Digest
  /-- The dependencies still to be looked at. -/
  deps : List Dependency

/-- Where the thread of a `Commit` or `Abort` is in `CheckDependents`. -/
inductive CheckPc where
  | start
  /-- It holds the entry in `dependents`, and has these left to visit. -/
  | visit (rest : List Digest)
  /-- It also holds the entry of the transaction to be resumed. -/
  | buffer (r : Resumption) (rest : List Digest)
  /-- Before `CleanDependencies`. -/
  | clean
  | done

/-- The transaction whose entry in `waitingDependencies_new` is held. -/
def CheckPc.buffers : CheckPc → Option Digest
  | .buffer r _ => some r.txn
  | _ => none

/-- Whether the entry in `dependents` is held. -/
def CheckPc.holds : CheckPc → Bool
  | .visit _ => true
  | .buffer _ _ => true
  | _ => false

/-- The maps of a replica, and its threads. -/
structure DepState where
  committed : Digest → Bool := fun _ => false
  aborted : Digest → Bool := fun _ => false
  dependents : Digest → Option (List Digest) := fun _ => none
  waiting : Digest → Option (List Digest) := fun _ => none
  managing : Digest → Option Managing := fun _ => none
  heldP1 : Digest → Bool := fun _ => false
  finishing : List (Digest × CheckPc) := []
  /-- The transactions whose check returned WAIT. -/
  waited : List Digest := []
  resumed : List Resumption := []

inductive DepEvent where
  /-- `HandlePhase1` finds a buffered WAIT. -/
  | lockP1 (txn : Digest)
  /-- `ManageDependencies` gets its entry. -/
  | manage (txn : Digest) (underP1 : Bool)
  /-- It goes on to the next dependency. -/
  | register (txn : Digest)
  /-- It returns. -/
  | conclude (txn : Digest)
  | commit (txn : Digest)
  | abort (txn : Digest)
  /-- `Clean` of an invalid transaction, which enters it in `aborted`. -/
  | hardClean (txn : Digest)
  /-- A thread in `CheckDependents` goes on. The order in which it will visit the dependents is
  that of the hash set. -/
  | check (i : Nat) (order : List Digest)
  deriving DecidableEq, Repr

/-- The steps of threads that are already there. -/
def DepEvent.internal : DepEvent → Bool
  | .register _ => true
  | .conclude _ => true
  | .check _ _ => true
  | .manage _ underP1 => underP1
  | _ => false

namespace DepState

/-- In `committed` or `aborted`. -/
def finished (s : DepState) (txn : Digest) : Bool := s.committed txn || s.aborted txn

/-- No thread holds the entry in `waitingDependencies_new`. -/
def waitingFree (s : DepState) (txn : Digest) : Bool :=
  (s.managing txn).isNone && s.finishing.all fun p => p.2.buffers != some txn

/-- No thread holds the entry in `dependents`. -/
def dependentsFree (s : DepState) (txn : Digest) : Bool :=
  s.finishing.all fun p => p.1 != txn || !p.2.holds

/-- The thread `i` has gone on to `pc`. -/
def setPc (s : DepState) (i : Nat) (txn : Digest) (pc : CheckPc) : DepState :=
  { s with finishing := s.finishing.set i (txn, pc) }

section Steps

variable (groupIdx : Nat) (txns : Digest → Transaction) (s : DepState)

/-- `CheckDependencies` of a digest. A transaction that is not finished is ongoing. -/
def resumption (txn : Digest) : Resumption :=
  let result :=
    if s.committed txn then .commit
    else if s.aborted txn then .abstain
    else checkDependencies groupIdx s.committed (txns txn).timestamp (txns txn).depSet
  ⟨txn, result, s.committed, s.aborted⟩

/-- `ManageDependencies`, up to the loop. -/
def manage (txn : Digest) (underP1 : Bool) : Option DepState :=
  if s.waitingFree txn && (!underP1 || s.heldP1 txn) then
    let isNew := (s.waiting txn).isNone
    some { s with
      waiting := if isNew then update s.waiting txn (some []) else s.waiting
      managing := update s.managing txn (some ⟨isNew, underP1, [], (txns txn).depSet⟩) }
  else none

/-- `RegisterWaitingTxn`. The entry in `dependents` is taken for a new wait only. -/
def register (txn : Digest) : Option DepState :=
  match s.managing txn with
  | some ⟨isNew, underP1, missing, dep :: deps⟩ =>
    let depId := dep.preparedTxnDigest
    let next := fun missing => update s.managing txn (some ⟨isNew, underP1, missing, deps⟩)
    if dep.involvedGroup ≠ groupIdx then some { s with managing := next missing }
    else if isNew && !s.dependentsFree depId then none
    else if s.finished depId then some { s with managing := next missing }
    else some { s with
      managing := next (missing ++ [depId])
      dependents :=
        if isNew then
          update s.dependents depId (some (((s.dependents depId).getD []).insert txn))
        else s.dependents }
  | _ => none

/-- `ManageDependencies`, after the loop. -/
def conclude (txn : Digest) : Option DepState :=
  match s.managing txn with
  | some ⟨isNew, underP1, missing, []⟩ =>
    some { s with
      managing := update s.managing txn none
      heldP1 := if underP1 then update s.heldP1 txn false else s.heldP1
      waiting :=
        if isNew then update s.waiting txn (if missing = [] then none else some missing)
        else s.waiting
      waited := if isNew && !missing.isEmpty then s.waited ++ [txn] else s.waited }
  | _ => none

/-- `CheckDependents` and `CleanDependencies`. -/
def check (i : Nat) (order : List Digest) : Option DepState :=
  match s.finishing[i]? with
  | none => none
  | some (txn, .start) =>
    match s.dependents txn with
    | none => some (s.setPc i txn .clean)
    | some dependents => if order.Perm dependents then some (s.setPc i txn (.visit order)) else none
  | some (txn, .visit []) =>
    some ({ s with dependents := update s.dependents txn none }.setPc i txn .clean)
  | some (txn, .visit (dependent :: rest)) =>
    if s.waitingFree dependent then
      match s.waiting dependent with
      | none => some (s.setPc i txn (.visit rest))
      | some deps =>
        let deps := deps.filter (· ≠ txn)
        let s' := { s with waiting := update s.waiting dependent (some deps) }
        if deps = [] then some (s'.setPc i txn (.buffer (s.resumption groupIdx txns dependent) rest))
        else some (s'.setPc i txn (.visit rest))
    else none
  | some (txn, .buffer r rest) =>
    if s.heldP1 r.txn then none
    else
      some ({ s with
        waiting := update s.waiting r.txn none
        resumed := s.resumed ++ [r] }.setPc i txn (.visit rest))
  | some (txn, .clean) =>
    if s.waitingFree txn then
      some ({ s with waiting := update s.waiting txn none }.setPc i txn .done)
    else none
  | some (_, .done) => none

def step : DepEvent → Option DepState
  | .lockP1 txn =>
    -- the WAIT is buffered until the transaction is resumed
    if s.heldP1 txn || !s.waited.contains txn || s.resumed.any (·.txn = txn) then none
    else some { s with heldP1 := update s.heldP1 txn true }
  | .manage txn underP1 => s.manage txns txn underP1
  | .register txn => s.register groupIdx txn
  | .conclude txn => s.conclude txn
  | .commit txn =>
    if s.committed txn then some s
    else some { s with
      committed := update s.committed txn true
      finishing := s.finishing ++ [(txn, .start)] }
  | .abort txn =>
    some { s with
      aborted := update s.aborted txn true
      finishing := s.finishing ++ [(txn, .start)] }
  | .hardClean txn =>
    if s.finished txn then none
    else some { s with aborted := update s.aborted txn true }
  | .check i order => s.check groupIdx txns i order

end Steps

end DepState

end Pequin
