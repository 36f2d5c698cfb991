import Pequin.Model.Verifier
import Pequin.Proof.BatchedSigs

/-!
# What an accepted signature says

The cache of the local verifier has two kinds of entries: those of `Verify` and `partialVerify`
(`Vouched`), and those of `manageCallbacksS`, whose key is a root hash (`Swapped`).
-/

namespace Pequin

open Function List LocalBatchVerifier Option Verifiers

variable {K : Type} {p : VerifierParams K} {r : VerifyRequest K} {out : LocalBatchVerifier K × Answers K}

def Authentic (p : VerifierParams K) (r : VerifyRequest K) : Prop :=
  ∃ hashStr rootSig, p.root r = some (hashStr, rootSig) ∧ p.verify r.publicKey hashStr rootSig = true

section Condition

section

variable (p) (requests : List (VerifyRequest K))

/-- No earlier request with another key has the same root signature. -/
def SameSigner (r : VerifyRequest K) : Prop :=
  ∀ r' ∈ requests, (p.root r).isSome = true → (p.root r').map Prod.snd = (p.root r).map Prod.snd →
    r'.publicKey = r.publicKey

/-- The root signature is not the root hash of an earlier request. -/
def NotRootHash (r : VerifyRequest K) : Prop :=
  ∀ r' ∈ requests, (p.root r).isSome = true → (p.root r').map Prod.fst ≠ (p.root r).map Prod.snd

def CacheAgrees (cache : Bytes → Option Bytes) (r : VerifyRequest K) : Prop :=
  ∀ out ∈ p.root r, ∀ cached ∈ cache out.2, out.1 = cached

def VerifyEvent.Proper (s : Verifiers K) : VerifyEvent K → Prop
  | .verify r => SameSigner p s.requests r ∧ NotRootHash p s.requests r
  | .sharedVerify r => SameSigner p s.requests r
  | .asyncBatchVerify r multithread _ => SameSigner p s.requests r ∧ NotRootHash p s.requests r ∧
      CacheAgrees p s.batched.cache r ∧ (multithread = true → s.batched.batchSize ≠ 1)
  | _ => True

end

section Decidable

variable [DecidableEq K] (requests : List (VerifyRequest K)) (r : VerifyRequest K)

instance SameSigner.decidable : Decidable (SameSigner p requests r) :=
  inferInstanceAs (Decidable (∀ r' ∈ requests, _ → _ → _))

instance NotRootHash.decidable : Decidable (NotRootHash p requests r) :=
  inferInstanceAs (Decidable (∀ r' ∈ requests, _ → _))

instance CacheAgrees.decidable (cache : Bytes → Option Bytes) : Decidable (CacheAgrees p cache r) :=
  inferInstanceAs (Decidable (∀ out ∈ p.root r, ∀ cached ∈ cache out.2, out.1 = cached))

instance VerifyEvent.Proper.decidable (s : Verifiers K) : ∀ e : VerifyEvent K, Decidable (e.Proper p s)
  | .verify _ => inferInstanceAs (Decidable (_ ∧ _))
  | .sharedVerify r => SameSigner.decidable s.requests r
  | .asyncBatchVerify _ _ _ => inferInstanceAs (Decidable (_ ∧ _ ∧ _ ∧ _))
  | .complete _ _ | .runTask _ _ _ | .adjustBatchSize => .isTrue trivial

end Decidable

end Condition

section

variable (p) (requests : List (VerifyRequest K))

/-- An entry for a root signature that was valid for a request. -/
def Vouched (key value : Bytes) : Prop :=
  ∃ r ∈ requests, p.root r = some (value, key) ∧ p.verify r.publicKey value key = true

/-- Entries of `manageCallbacksS`, whose key is a root hash. -/
def Swapped (key : Bytes) : Prop :=
  ∃ r ∈ requests, ∃ rootSig, p.root r = some (key, rootSig)

def VerifyJob.Of (job : VerifyJob K) : Prop :=
  job.request ∈ requests ∧ p.root job.request = some (job.hashStr, job.rootSig)

structure LocalBatchVerifier.From (v : LocalBatchVerifier K) : Prop where
  cache : ∀ key value, v.cache key = some value → Vouched p requests key value ∨ Swapped p requests key
  batch : ∀ job ∈ v.batch, job.Of p requests
  dispatched : ∀ task ∈ v.dispatched, ∃ jobs, task = .batchVerify jobs ∧ ∀ job ∈ jobs, job.Of p requests

/-- A step leaves such a state, and what it accepts is authentic. -/
def Faithful (out : LocalBatchVerifier K × Answers K) : Prop :=
  out.1.From p requests ∧ ∀ a ∈ out.2, a.2.accepts = true → Authentic p a.1

end

section Local

variable {requests : List (VerifyRequest K)} {v : LocalBatchVerifier K} {hashStr rootSig : Bytes}
  (h : v.From p requests)
include h

theorem LocalBatchVerifier.From.mono (more : List (VerifyRequest K)) : v.From p (requests ++ more) := by
  have hjob : ∀ {job : VerifyJob K}, job.Of p requests → job.Of p (requests ++ more) :=
    fun hj => ⟨mem_append_left _ hj.1, hj.2⟩
  refine ⟨fun key value hc => ?_, fun job hj => hjob (h.batch job hj), fun task ht => ?_⟩
  · rcases h.cache key value hc with ⟨r, hr, hroot⟩ | ⟨r, hr, hroot⟩
    · exact .inl ⟨r, mem_append_left _ hr, hroot⟩
    · exact .inr ⟨r, mem_append_left _ hr, hroot⟩
  · obtain ⟨jobs, rfl, hjobs⟩ := h.dispatched task ht
    exact ⟨jobs, rfl, fun job hj => hjob (hjobs job hj)⟩

theorem LocalBatchVerifier.From.store {key value : Bytes}
    (hnew : Vouched p requests key value ∨ Swapped p requests key) : (v.store key value).From p requests := by
  refine ⟨fun key' value' hc => ?_, h.batch, h.dispatched⟩
  by_cases hk : key' = key
  · subst hk
    rw [store_cache, update_self, some.injEq] at hc
    exact hc ▸ hnew
  · rw [store_cache, update_of_ne hk] at hc
    exact h.cache key' value' hc

theorem LocalBatchVerifier.From.hit (hroot : p.root r = some (hashStr, rootSig))
    (hsame : SameSigner p requests r) (hnot : NotRootHash p requests r) {cached : Bytes}
    (hc : v.cache rootSig = some cached) (heq : hashStr = cached) : Authentic p r := by
  have hsome : (p.root r).isSome = true := by
    rw [hroot]
    rfl
  rcases h.cache rootSig cached hc with ⟨r', hr', hroot', hvalid⟩ | ⟨r', hr', sig', hroot'⟩
  · have hkey := hsame r' hr' hsome (by rw [hroot', hroot]; rfl)
    exact ⟨hashStr, rootSig, hroot, by rw [heq, ← hkey]; exact hvalid⟩
  · exact absurd (by rw [hroot', hroot]; rfl) (hnot r' hr' hsome)

theorem verify_faithful (hsame : SameSigner p requests r) (hnot : NotRootHash p requests r)
    (hout : v.verify p r = some out) : Faithful p (requests ++ [r]) out := by
  rw [LocalBatchVerifier.verify] at hout
  split at hout
  · cases hout
  rename_i hashStr rootSig hroot
  split at hout
  · split at hout
    · rename_i hvalid
      cases hout
      refine ⟨(h.mono [r]).store (.inl ⟨r, mem_concat_self, hroot, hvalid⟩), fun a ha _ => ?_⟩
      obtain rfl := mem_singleton.mp ha
      exact ⟨hashStr, rootSig, hroot, hvalid⟩
    · cases hout
  · rename_i cached hc
    split at hout
    · rename_i heq
      cases hout
      refine ⟨h.mono [r], fun a ha _ => ?_⟩
      obtain rfl := mem_singleton.mp ha
      exact h.hit hroot hsame hnot hc heq
    · cases hout

theorem manageCallbacks_faithful {jobs : List (VerifyJob K)}
    (hjobs : ∀ job ∈ jobs, job.Of p requests) : Faithful p requests (manageCallbacks p v jobs) := by
  induction jobs generalizing v with
  | nil => exact ⟨h, fun a ha => (by cases ha)⟩
  | cons job jobs ih =>
    obtain ⟨hr, hroot⟩ := hjobs job mem_cons_self
    have hnext : (if p.verify job.request.publicKey job.hashStr job.rootSig then v.store job.hashStr job.rootSig
        else v).From p requests := by
      split
      · exact h.store (.inr ⟨job.request, hr, job.rootSig, hroot⟩)
      · exact h
    obtain ⟨hfrom, hans⟩ := ih hnext fun job' hj => hjobs job' (mem_cons_of_mem _ hj)
    refine ⟨hfrom, fun a ha hacc => ?_⟩
    rcases mem_cons.mp ha with rfl | ha
    · -- the verdict is the number 0 or 1 here
      cases hvalid : p.verify job.request.publicKey job.hashStr job.rootSig with
      | true => exact ⟨job.hashStr, job.rootSig, hroot, hvalid⟩
      | false =>
        rw [hvalid] at hacc
        cases hacc
    · exact hans a ha hacc

theorem complete_faithful (multithread force : Bool) : Faithful p requests (v.complete p multithread force) := by
  rw [complete]
  split
  · exact ⟨h, fun a ha => (by cases ha)⟩
  split
  · split
    · refine ⟨⟨h.cache, fun job hj => (by cases hj), fun task ht => ?_⟩, fun a ha => (by cases ha)⟩
      rcases mem_append.mp ht with ht | ht
      · exact h.dispatched task ht
      · exact ⟨v.batch, mem_singleton.mp ht, h.batch⟩
    · have hcleared : ({ v with batch := [] } : LocalBatchVerifier K).From p requests :=
        ⟨h.cache, fun job hj => (by cases hj), h.dispatched⟩
      exact manageCallbacks_faithful hcleared h.batch
  · exact ⟨h, fun a ha => (by cases ha)⟩

theorem asyncBatchVerify_faithful {multithread autocomplete : Bool}
    (hsame : SameSigner p requests r) (hnot : NotRootHash p requests r) (hagree : CacheAgrees p v.cache r)
    (hsize : multithread = true → v.batchSize ≠ 1)
    (hout : v.asyncBatchVerify p r multithread autocomplete = some out) : Faithful p (requests ++ [r]) out := by
  rw [asyncBatchVerify] at hout
  split at hout
  · cases hout
    exact ⟨h.mono [r], fun a ha => (by cases ha)⟩
  rename_i hashStr rootSig hroot
  rw [asyncBatchVerifyCallback] at hout
  split at hout
  · rename_i cached hc
    cases hout
    refine ⟨h.mono [r], fun a ha _ => ?_⟩
    obtain rfl := mem_singleton.mp ha
    exact h.hit hroot hsame hnot hc (hagree _ hroot _ hc)
  · split at hout
    · rename_i hone
      cases multithread with
      | true => exact absurd hone (hsize rfl)
      | false =>
        rw [partialVerify] at hout
        cases hvalid : p.verify r.publicKey hashStr rootSig with
        | true =>
          rw [hvalid] at hout
          cases hout
          refine ⟨(h.mono [r]).store (.inl ⟨r, mem_concat_self, hroot, hvalid⟩), fun a ha _ => ?_⟩
          obtain rfl := mem_singleton.mp ha
          exact ⟨hashStr, rootSig, hroot, hvalid⟩
        | false =>
          rw [hvalid] at hout
          cases hout
          refine ⟨h.mono [r], fun a ha hacc => ?_⟩
          obtain rfl := mem_singleton.mp ha
          cases hacc
    · split at hout
      · have hadded : ({ v with
            messagesBatchedInterval := v.messagesBatchedInterval + 1
            batch := v.batch ++ [⟨r, hashStr, rootSig⟩] } : LocalBatchVerifier K).From p (requests ++ [r]) := by
          have hmono := h.mono [r]
          refine ⟨hmono.cache, fun job hj => ?_, hmono.dispatched⟩
          rcases mem_append.mp hj with hj | hj
          · exact hmono.batch job hj
          · obtain rfl := mem_singleton.mp hj
            exact ⟨mem_concat_self, hroot⟩
        dsimp only at hout
        split at hout
        · cases hout
          exact complete_faithful hadded multithread false
        · cases hout
          exact ⟨hadded, fun a ha => (by cases ha)⟩
      · cases hout

theorem runTask_faithful {task : VerifyTask K}
    (htask : ∃ jobs, task = .batchVerify jobs ∧ ∀ job ∈ jobs, job.Of p requests) :
    Faithful p requests (v.runTask p hashStr rootSig task) := by
  obtain ⟨jobs, rfl, hjobs⟩ := htask
  exact manageCallbacks_faithful h hjobs

end Local

/-- Only authentic messages are accepted. -/
structure Verifiers.Faithful (p : VerifierParams K) (s : Verifiers K) : Prop where
  batched : s.batched.From p s.requests
  shared : ∀ key value, s.shared key = some value → Vouched p s.requests key value
  answers : ∀ a ∈ s.answers, a.2.accepts = true → Authentic p a.1

section Runs

variable {s s' : Verifiers K}

theorem vouched_mono {requests : List (VerifyRequest K)} {key value : Bytes} (h : Vouched p requests key value)
    (more : List (VerifyRequest K)) : Vouched p (requests ++ more) key value :=
  let ⟨r, hr, hroot⟩ := h
  ⟨r, mem_append_left _ hr, hroot⟩

theorem Verifiers.Faithful.settle (h : s.Faithful p) (more : List (VerifyRequest K))
    (hout : Pequin.Faithful p (s.requests ++ more) out) :
    (({ s with requests := s.requests ++ more } : Verifiers K).settle out).Faithful p := by
  refine ⟨hout.1, fun key value hc => vouched_mono (h.shared key value hc) more, fun a ha => ?_⟩
  rcases mem_append.mp ha with ha | ha
  · exact h.answers a ha
  · exact hout.2 a ha

theorem sharedVerify_faithful (h : s.Faithful p) (hsame : SameSigner p s.requests r) {cache : Bytes → Option Bytes}
    {result : Bool} (hout : sharedVerify p s.shared r = (cache, result)) :
    (∀ key value, cache key = some value → Vouched p (s.requests ++ [r]) key value) ∧
      (result = true → Authentic p r) := by
  have hold : ∀ key value, s.shared key = some value → Vouched p (s.requests ++ [r]) key value :=
    fun key value hc => vouched_mono (h.shared key value hc) [r]
  rw [sharedVerify] at hout
  split at hout
  · cases hout
    exact ⟨hold, nofun⟩
  rename_i hashStr rootSig hroot
  split at hout
  · split at hout
    · rename_i hvalid
      cases hout
      refine ⟨fun key value hc => ?_, fun _ => ⟨hashStr, rootSig, hroot, hvalid⟩⟩
      by_cases hk : key = rootSig
      · rw [hk, update_self, some.injEq] at hc
        exact ⟨r, mem_concat_self, by rw [hroot, hc, hk], by rw [hk, ← hc]; exact hvalid⟩
      · rw [update_of_ne hk] at hc
        exact hold key value hc
    · cases hout
      exact ⟨hold, nofun⟩
  · rename_i cached hc
    cases hout
    refine ⟨hold, fun hres => ?_⟩
    obtain ⟨r', hr', hroot', hvalid⟩ := h.shared rootSig cached hc
    have hkey := hsame r' hr' (by rw [hroot]; rfl) (by rw [hroot', hroot]; rfl)
    exact ⟨hashStr, rootSig, hroot, by rw [of_decide_eq_true hres, ← hkey]; exact hvalid⟩

theorem Verifiers.Faithful.step {e : VerifyEvent K} (h : s.Faithful p) (hok : e.Proper p s)
    (hstep : s.step p e = some s') : s'.Faithful p := by
  cases e with
  | verify r =>
    obtain ⟨out, hout, rfl⟩ := map_eq_some_iff.mp hstep
    exact h.settle [r] (verify_faithful h.batched hok.1 hok.2 hout)
  | sharedVerify r =>
    cases hstep
    obtain ⟨hcache, hres⟩ := sharedVerify_faithful h hok (Prod.mk.eta (p := sharedVerify p s.shared r)).symm
    refine ⟨h.batched.mono [r], hcache, fun a ha hacc => ?_⟩
    rcases mem_append.mp ha with ha | ha
    · exact h.answers a ha hacc
    · obtain rfl := mem_singleton.mp ha
      exact hres hacc
  | asyncBatchVerify r multithread autocomplete =>
    obtain ⟨out, hout, rfl⟩ := map_eq_some_iff.mp hstep
    obtain ⟨hsame, hnot, hagree, hsize⟩ := hok
    exact h.settle [r] (asyncBatchVerify_faithful h.batched hsame hnot hagree hsize hout)
  | complete multithread force =>
    cases hstep
    exact h.settle [] (complete_faithful (h.batched.mono []) multithread force)
  | runTask i hashStr rootSig =>
    obtain ⟨task, htask, rfl⟩ := map_eq_some_iff.mp hstep
    have hmono := h.batched.mono []
    refine h.settle [] (runTask_faithful (v := { s.batched with dispatched := s.batched.dispatched.eraseIdx i })
      ⟨hmono.cache, hmono.batch, fun task' ht => ?_⟩ (hmono.dispatched task (mem_of_getElem? htask)))
    exact hmono.dispatched task' (mem_of_mem_eraseIdx ht)
  | adjustBatchSize =>
    cases hstep
    have hmono := h.batched.mono []
    exact ⟨⟨hmono.cache, hmono.batch, hmono.dispatched⟩, fun key value hc => vouched_mono (h.shared key value hc) [],
      h.answers⟩

def Verifiers.init (batchSize : Nat) : Verifiers K := { batched := { batchSize := batchSize } }

theorem faithful_init (batchSize : Nat) : (init batchSize : Verifiers K).Faithful p :=
  ⟨⟨nofun, nofun, nofun⟩, nofun, nofun⟩

/-- What counts as verified in a run of proper steps is authentic. -/
theorem accepted_authentic {batchSize : Nat} {events : List (VerifyEvent K)}
    (hm : Run.Meets (step p) (fun s e => e.Proper p s) (.init batchSize) events)
    (hexec : Run.exec (step p) (.init batchSize) events = some s) :
    ∀ a ∈ s.answers, a.2.accepts = true → Authentic p a.1 := by
  have hfaithful : s.Faithful p :=
    Run.exec_invariant_of_meets (fun h hok hstep => h.step hok hstep) (faithful_init batchSize) hm hexec
  exact hfaithful.answers

end Runs

/-- Root signatures of one byte, which only key 0 can make. -/
def oneSigner : VerifierParams Nat where
  hashFn := twoMessages
  beyond _ := 0
  sigSize _ := 1
  verify publicKey hashStr rootSig := decide (publicKey = 0) && decide (rootSig = headSigner.sign hashStr)
  donna _ := true
  merkleBranchFactor := 2

def requestOf (publicKey : Nat) (message : Bytes) : VerifyRequest Nat :=
  ⟨publicKey, message, headSigner.sign (numbered 0) ++ packInt 1 ++ packInt 0⟩

def borrowedSignature : List (VerifyEvent Nat) :=
  [.verify (requestOf 0 [1]), .verify (requestOf 1 [1]), .sharedVerify (requestOf 0 [1]),
    .sharedVerify (requestOf 1 [1]), .asyncBatchVerify (requestOf 0 [2]) false false]

/-- A signature of key 0 in a cache counts for key 1. The asynchronous request is refused, and its verdict counts. -/
theorem accepted_unsigned_run : ∃ s, Run.exec (step oneSigner) (.init 1) borrowedSignature = some s ∧
    s.answers = [(requestOf 0 [1], .result true), (requestOf 1 [1], .result true),
      (requestOf 0 [1], .result true), (requestOf 1 [1], .result true), (requestOf 0 [2], .callback (.address false))] ∧
    (Answer.callback (.address false)).accepts = true ∧
    ¬Authentic oneSigner (requestOf 1 [1]) ∧ ¬Authentic oneSigner (requestOf 0 [2]) := by
  have hrun : (Run.exec (step oneSigner) (.init 1) borrowedSignature).any (fun s =>
      decide (s.answers = [(requestOf 0 [1], .result true), (requestOf 1 [1], .result true),
        (requestOf 0 [1], .result true), (requestOf 1 [1], .result true),
        (requestOf 0 [2], .callback (.address false))])) = true := by decide +kernel
  obtain ⟨s, hexec, hans⟩ := Run.exec_of_any hrun
  have hroot : oneSigner.root (requestOf 1 [1]) = some (numbered 0, [0]) := by decide +kernel
  have hroot' : oneSigner.root (requestOf 0 [2]) = some (numbered 1, [0]) := by decide +kernel
  refine ⟨s, hexec, of_decide_eq_true hans, rfl, ?_, ?_⟩
  · rintro ⟨hashStr, rootSig, h, hvalid⟩
    cases some.inj (hroot.symm.trans h)
    cases hvalid
  · rintro ⟨hashStr, rootSig, h, hvalid⟩
    cases some.inj (hroot'.symm.trans h)
    cases hvalid

theorem accepted_authentic_twice : Authentic oneSigner (requestOf 0 [1]) := by
  have hrun : (Run.exec (step oneSigner) (.init 1)
      [.verify (requestOf 0 [1]), .asyncBatchVerify (requestOf 0 [1]) false false]).any (fun s =>
        decide ((requestOf 0 [1], .callback (.address true)) ∈ s.answers)) = true := by decide +kernel
  obtain ⟨s, hexec, hans⟩ := Run.exec_of_any hrun
  have hproper : Run.Meets (step oneSigner) (fun s e => e.Proper oneSigner s) (.init 1)
      [.verify (requestOf 0 [1]), .asyncBatchVerify (requestOf 0 [1]) false false] := by decide +kernel
  exact accepted_authentic hproper hexec (requestOf 0 [1], .callback (.address true)) (of_decide_eq_true hans) rfl

end Pequin
