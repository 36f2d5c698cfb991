import Pequin.Framework.Run
import Pequin.Model.BatchedSigs

/-!
# Verifiers

`localbatchverifier.cc` and `sharedbatchverifier.cc`. A verifier computes the root hash that a batched signature leads
to, and checks the root signature. It keeps the root signatures that were valid in a cache.

An asynchronous request is answered by a callback, with a `void*`. The consumers (`asyncValidateP1RepliesCallback` and
its like in `common.cc`) test it with `if(!result)`. A step is a call, or a job of a worker. Where the process ends
(`Panic`, a failed assertion) there is no step. What the callbacks do in turn are steps of their own.
-/

namespace Pequin

open Function

/-- A request to verify: the arguments of `Verify` and of `asyncBatchVerify`. -/
structure VerifyRequest (K : Type) where
  publicKey : K
  message : Bytes
  signature : Bytes
deriving DecidableEq

/-- The hash function, `crypto::SigSize` and `crypto::Verify`. A batch is taken to be verified
signature by signature. -/
structure VerifierParams (K : Type) where
  hashFn : HashFn
  beyond : Nat → UInt8
  sigSize : K → Nat
  verify : K → Bytes → Bytes → Bool
  /-- The key is of type `DONNA`. -/
  donna : K → Bool
  merkleBranchFactor : UInt64

variable {K : Type}

/-- The root hash and the root signature of a request. -/
def VerifierParams.root (p : VerifierParams K) (r : VerifyRequest K) : Option (Bytes × Bytes) :=
  computeBatchedSignatureHash p.hashFn p.beyond (p.sigSize r.publicKey) p.merkleBranchFactor r.signature r.message

/-- A `void*`: null, the number 1, or the address of a `bool`. -/
inductive Pointer where
  | null
  | one
  | address (value : Bool)
deriving DecidableEq

/-- A `bool` that is cast to a pointer. -/
def Pointer.ofBool (b : Bool) : Pointer := if b then .one else .null

/-- A pointer as a condition. -/
def Pointer.test : Pointer → Bool
  | .null => false
  | _ => true

/-- What a request is answered with: the result of `Verify`, or the argument of its callback. -/
inductive Answer where
  | result (value : Bool)
  | callback (pointer : Pointer)
deriving DecidableEq

/-- The request counts as verified. -/
def Answer.accepts : Answer → Bool
  | .result value => value
  | .callback pointer => pointer.test

/-- An entry of the batch: `publicKeys`, `messagesS`, `signaturesS` and `pendingBatchCallbacks`. -/
structure VerifyJob (K : Type) where
  request : VerifyRequest K
  hashStr : Bytes
  rootSig : Bytes
deriving DecidableEq

/-- What is dispatched to the workers. -/
inductive VerifyTask (K : Type) where
  | partialVerify (job : VerifyJob K)
  | batchVerify (jobs : List (VerifyJob K))

structure LocalBatchVerifier (K : Type) where
  cache : Bytes → Option Bytes := fun _ => none
  batchSize : Nat
  messagesBatchedInterval : Nat := 0
  batch : List (VerifyJob K) := []
  dispatched : List (VerifyTask K) := []

abbrev Answers (K : Type) := List (VerifyRequest K × Answer)

namespace LocalBatchVerifier

variable (p : VerifierParams K) (v : LocalBatchVerifier K)

/-- `cache[key] = value`. -/
def store (key value : Bytes) : LocalBatchVerifier K :=
  { v with cache := update v.cache key (some value) }

theorem store_cache (key value : Bytes) : (v.store key value).cache = update v.cache key (some value) := rfl

/-- It only returns if the request is verified. -/
def verify (r : VerifyRequest K) : Option (LocalBatchVerifier K × Answers K) :=
  match p.root r with
  | none => none
  | some (hashStr, rootSig) =>
    match v.cache rootSig with
    | none =>
      if p.verify r.publicKey hashStr rootSig then some (v.store rootSig hashStr, [(r, .result true)])
      else none
    | some cached => if hashStr = cached then some (v, [(r, .result true)]) else none

def partialVerify (publicKey : K) (hashStr rootSig : Bytes) : LocalBatchVerifier K × Bool :=
  if p.verify publicKey hashStr rootSig then (v.store rootSig hashStr, true) else (v, false)

/-- `manageCallbacksS`, with what `asyncComputeBatchVerificationS` gives for each entry. -/
def manageCallbacks : LocalBatchVerifier K → List (VerifyJob K) → LocalBatchVerifier K × Answers K
  | v, [] => (v, [])
  | v, job :: jobs =>
    let valid := p.verify job.request.publicKey job.hashStr job.rootSig
    -- the hash is the key here, and the signature the value
    let v' := if valid then v.store job.hashStr job.rootSig else v
    let (v'', answers) := manageCallbacks v' jobs
    (v'', (job.request, .callback (.ofBool valid)) :: answers)

def complete (multithread force : Bool) : LocalBatchVerifier K × Answers K :=
  if v.batch = [] then (v, [])
  else if force || decide (v.batchSize ≤ v.batch.length) then
    if multithread then
      ({ v with batch := [], dispatched := v.dispatched ++ [.batchVerify v.batch] }, [])
    else manageCallbacks p { v with batch := [] } v.batch
  else (v, [])

/-- For a root hash that could be computed. -/
def asyncBatchVerifyCallback (r : VerifyRequest K) (hashStr rootSig : Bytes) (multithread autocomplete : Bool) :
    Option (LocalBatchVerifier K × Answers K) :=
  match v.cache rootSig with
  | some cached => some (v, [(r, .callback (.address (decide (hashStr = cached))))])
  | none =>
    if v.batchSize = 1 then
      if multithread then
        some ({ v with dispatched := v.dispatched ++ [.partialVerify ⟨r, hashStr, rootSig⟩] }, [])
      else
        let (v', valid) := v.partialVerify p r.publicKey hashStr rootSig
        some (v', [(r, .callback (.ofBool valid))])
    else if p.donna r.publicKey then
      let v' := { v with
        messagesBatchedInterval := v.messagesBatchedInterval + 1
        batch := v.batch ++ [⟨r, hashStr, rootSig⟩] }
      if autocomplete && decide (v'.batchSize ≤ v'.batch.length) then some (v'.complete p multithread false)
      else some (v', [])
    else none

/-- There is no callback if the root hash cannot be computed. -/
def asyncBatchVerify (r : VerifyRequest K) (multithread autocomplete : Bool) :
    Option (LocalBatchVerifier K × Answers K) :=
  match p.root r with
  | none => some (v, [])
  | some (hashStr, rootSig) => v.asyncBatchVerifyCallback p r hashStr rootSig multithread autocomplete

/-- A worker runs a job. The strings of a `partialVerify` are deleted once it is dispatched; `hashStr` and `rootSig`
are what it finds there. -/
def runTask (hashStr rootSig : Bytes) : VerifyTask K → LocalBatchVerifier K × Answers K
  | .partialVerify job =>
    let (v', valid) := v.partialVerify p job.request.publicKey hashStr rootSig
    (v', [(job.request, .callback (.address valid))])
  | .batchVerify jobs => manageCallbacks p v jobs

def adjustBatchSize : LocalBatchVerifier K :=
  { v with batchSize := (3 * v.batchSize + v.messagesBatchedInterval) / 4, messagesBatchedInterval := 0 }

end LocalBatchVerifier

/-- `SharedBatchVerifier::Verify`, on the cache in shared memory. -/
def sharedVerify (p : VerifierParams K) (cache : Bytes → Option Bytes) (r : VerifyRequest K) :
    (Bytes → Option Bytes) × Bool :=
  match p.root r with
  | none => (cache, false)
  | some (hashStr, rootSig) =>
    match cache rootSig with
    | none =>
      if p.verify r.publicKey hashStr rootSig then (update cache rootSig (some hashStr), true)
      else (cache, false)
    | some cached => (cache, decide (hashStr = cached))

/-- Both verifiers, the requests that were made, and the answers. -/
structure Verifiers (K : Type) where
  batched : LocalBatchVerifier K
  shared : Bytes → Option Bytes := fun _ => none
  requests : List (VerifyRequest K) := []
  answers : Answers K := []

/-- A call, or a job that a worker runs. `complete` is also what a timer runs. -/
inductive VerifyEvent (K : Type) where
  | verify (r : VerifyRequest K)
  | sharedVerify (r : VerifyRequest K)
  | asyncBatchVerify (r : VerifyRequest K) (multithread autocomplete : Bool)
  | complete (multithread force : Bool)
  | runTask (i : Nat) (hashStr rootSig : Bytes)
  | adjustBatchSize

/-- The request that an event makes. -/
def VerifyEvent.request? : VerifyEvent K → Option (VerifyRequest K)
  | .verify r | .sharedVerify r | .asyncBatchVerify r _ _ => some r
  | _ => none

/-- The local verifier, after a step with these answers. -/
def Verifiers.settle (s : Verifiers K) (out : LocalBatchVerifier K × Answers K) : Verifiers K :=
  { s with batched := out.1, answers := s.answers ++ out.2 }

/-- The step of an event, once its request is recorded. -/
def Verifiers.handle (p : VerifierParams K) (s : Verifiers K) : VerifyEvent K → Option (Verifiers K)
  | .verify r => (s.batched.verify p r).map s.settle
  | .sharedVerify r =>
    let (cache, result) := Pequin.sharedVerify p s.shared r
    some { s with shared := cache, answers := s.answers ++ [(r, .result result)] }
  | .asyncBatchVerify r multithread autocomplete =>
    (s.batched.asyncBatchVerify p r multithread autocomplete).map s.settle
  | .complete multithread force => some (s.settle (s.batched.complete p multithread force))
  | .runTask i hashStr rootSig =>
    s.batched.dispatched[i]?.map fun task =>
      s.settle ({ s.batched with dispatched := s.batched.dispatched.eraseIdx i }.runTask p hashStr rootSig task)
  | .adjustBatchSize => some { s with batched := s.batched.adjustBatchSize }

def Verifiers.step (p : VerifierParams K) (s : Verifiers K) (e : VerifyEvent K) : Option (Verifiers K) :=
  ({ s with requests := s.requests ++ e.request?.toList } : Verifiers K).handle p e

end Pequin
