import Pequin.Proof.QueryResults

/-!
# Failed queries

Results and failures go into one set of replicas, and either handler gives a query up once the set has as many members
as it waits for. The handlers do not wait for the same number, and that of failures does not compare the replica which
a failure names with its signer.
-/

namespace Pequin

open List Option PendingQuery QueryClient

variable {p : QueryParams} {s s' : QueryClient} {reqId n : Nat} {q q' : PendingQuery} {r : QueryResult}
  {m : SignedBytes}

section Prefixes

variable {α : Type} {f : α → Bool} {xs : List α}

theorem exists_prefix_snoc {P : List α → α → Prop} {y : α} :
    (∃ l x, l ++ [x] <+: xs ++ [y] ∧ P l x) ↔ P xs y ∨ ∃ l x, l ++ [x] <+: xs ∧ P l x := by
  constructor
  · rintro ⟨l, x, hpre, hP⟩
    rcases prefix_concat_iff.mp hpre with heq | hpre
    · obtain ⟨rfl, hx⟩ := append_inj' heq rfl
      exact .inl (singleton_inj.mp hx ▸ hP)
    · exact .inr ⟨l, x, hpre, hP⟩
  · rintro (hP | ⟨l, x, hpre, hP⟩)
    · exact ⟨xs, y, prefix_rfl, hP⟩
    · exact ⟨l, x, hpre.trans (prefix_append _ _), hP⟩

theorem exists_prefix_countP : (∃ l x, l ++ [x] <+: xs ∧ f x = true ∧ l.countP f + 1 = n) ↔
    0 < n ∧ n ≤ xs.countP f := by
  induction xs using List.reverseRecOn with
  | nil =>
    simp only [prefix_nil, append_eq_nil_iff, cons_ne_self, and_false, false_and, exists_false, countP_nil, false_iff]
    omega
  | append_singleton xs y ih =>
    rw [exists_prefix_snoc, ih, countP_append, countP_singleton]
    cases f y with
    | true =>
      simp only [true_and, if_true]
      omega
    | false => simp

end Prefixes

namespace PendingQuery

variable {merged : Bool} {up : Option QueryUpcall} {rs : Option ResultReadSet}

def failWait (p : QueryParams) (q : PendingQuery) : Int :=
  maxWait p q.numDesignatedReplies (p.eagerExec || p.optimisticTxID && decide (0 < q.retryVersion))

theorem unmatched_snapshot (he : q.eagerMode = false) (h : q.unmatched p reqId r rs merged = some (q', up)) :
    q' = q ∧ (up.isSome = true ↔ (q.resultsVerified.length : Int) = q.resultWait p) := by
  unfold unmatched at h
  simp only [he, Bool.false_and, Bool.false_eq_true, if_false, Bool.and_false, Bool.false_or] at h
  rw [resultWait, he, Bool.and_false, Bool.false_or]
  split at h
  · cases h
  split at h
  · cases h
    exact ⟨rfl, by simpa⟩
  · cases h
    exact ⟨rfl, by simpa⟩

theorem handleQueryResult_snapshot (he : q.eagerMode = false) (hopen : m.openResult p = some r)
    (hc : q.counts p r = true) (h : q.handleQueryResult p reqId m merged = some (q', up)) :
    (up.isSome = true ↔ (q.mgr (r.key p)).freq + 1 = p.resultQuorum ∨
      (q.resultsVerified.length : Int) + 1 = q.resultWait p) ∧ (up = none → q' = q.counted p r) := by
  unfold handleQueryResult at h
  simp only [counts, Bool.and_eq_true, Bool.not_eq_true', decide_eq_false_iff_not] at hc
  obtain ⟨⟨hold, hgroup⟩, hnew⟩ := hc
  simp only [hopen, hold, hgroup, hnew, Bool.false_eq_true, if_false, Bool.not_true] at h
  split at h
  · cases h
  rw [← ResultMgr.count_freq (p := p) (e := q.eagerMode) (r := r)]
  split at h
  · rename_i hquorum
    cases h
    rw [Bool.and_eq_true, beq_iff_eq] at hquorum
    exact ⟨by simpa using .inl hquorum.2, fun hn => by cases hn⟩
  · rename_i hquorum
    simp only [he, Bool.and_false, Bool.not_false, Bool.true_and, beq_iff_eq] at hquorum
    obtain ⟨rfl, hup⟩ := unmatched_snapshot (q := q.counted p r) he h
    refine ⟨hup.trans ?_, fun _ => rfl⟩
    rw [or_iff_right (he ▸ hquorum)]
    exact Iff.rfl

theorem handleFailQuery_counted {replicaId : Nat} (hopen : m.openFail p = some replicaId)
    (hgroup : isReplicaInGroup p.config replicaId p.group = true) (hnew : replicaId ∉ q.resultsVerified) :
    ((q.handleFailQuery p reqId m).2.isSome = true ↔ q.numFails + 1 = p.config.f + 1 ∨
      (q.resultsVerified.length : Int) + 1 = q.failWait p) ∧ (q.handleFailQuery p reqId m).1 =
      { q with resultsVerified := replicaId :: q.resultsVerified, numFails := q.numFails + 1 } := by
  unfold handleFailQuery
  simp only [hopen, hgroup, hnew, Bool.not_true, Bool.false_eq_true, if_false]
  refine ⟨?_, trivial⟩
  split
  · rename_i hwait
    exact ⟨fun _ => hwait, fun _ => rfl⟩
  · rename_i hwait
    exact ⟨nofun, fun h => absurd h hwait⟩

end PendingQuery

/-! ## Sequences of replies -/

/-- A reply to the query, by what it holds. -/
inductive QueryAnswer where
  | result (m : SignedBytes) (merged : Bool) (r : QueryResult)
  | failure (m : SignedBytes) (replicaId : Nat)

namespace QueryAnswer

variable (p)

def replicaId : QueryAnswer → Nat
  | result _ _ r => r.replicaId
  | failure _ replicaId => replicaId

def event (reqId : Nat) : QueryAnswer → QueryEvent
  | result m merged _ => .resultReply ⟨reqId, some m⟩ merged
  | failure m _ => .failReply ⟨reqId, some m⟩

def Valid : QueryAnswer → Prop
  | result m _ r => m.openResult p = some r ∧ r.localSs = none ∧ isReplicaInGroup p.config r.replicaId p.group = true
  | failure m replicaId => m.openFail p = some replicaId ∧ isReplicaInGroup p.config replicaId p.group = true

def hasKey (k : Bytes × Bytes) : QueryAnswer → Bool
  | result _ _ r => r.key p = k
  | failure _ _ => false

def isFailure : QueryAnswer → Bool
  | result _ _ _ => false
  | failure _ _ => true

def wait (q : PendingQuery) : QueryAnswer → Int
  | result _ _ _ => q.resultWait p
  | failure _ _ => q.failWait p

def Triggers (q : PendingQuery) (l : List QueryAnswer) (x : QueryAnswer) : Prop :=
  (l.length : Int) + 1 = x.wait p q ∨ x.isFailure = true ∧ l.countP isFailure + 1 = p.config.f + 1 ∨
    ∃ k, x.hasKey p k = true ∧ l.countP (hasKey p k) + 1 = p.resultQuorum

end QueryAnswer

namespace QueryClient

open QueryAnswer

variable {q₀ : PendingQuery} {ups : List QueryUpcall} {l xs : List QueryAnswer} {x : QueryAnswer}

open QueryAnswer

/-- What the query `q₀` has become with the replies `l`. -/
structure Counted (p : QueryParams) (q₀ : PendingQuery) (l : List QueryAnswer) (q : PendingQuery) : Prop where
  eagerMode : q.eagerMode = false
  designated : q.numDesignatedReplies = q₀.numDesignatedReplies
  retryVersion : q.retryVersion = q₀.retryVersion
  verified : q.resultsVerified = (l.map replicaId).reverse
  numFails : q.numFails = l.countP isFailure
  freq : ∀ k, (q.mgr k).freq = l.countP (hasKey p k)

/-- Once one of the replies has triggered it there is a call back; before, the replies are counted. -/
def Awaiting (p : QueryParams) (reqId : Nat) (q₀ : PendingQuery) (ups : List QueryUpcall) (l : List QueryAnswer)
    (s : QueryClient) : Prop :=
  (∃ l' x, l' ++ [x] <+: l ∧ x.Triggers p q₀ l') ∧ ups.length < s.upcalls.length ∨
  (¬ ∃ l' x, l' ++ [x] <+: l ∧ x.Triggers p q₀ l') ∧ s.upcalls = ups ∧ ∃ q, s.active reqId = some q ∧ Counted p q₀ l q

theorem Counted.wait (he : q₀.eagerMode = false) (h : Counted p q₀ l q) (x : QueryAnswer) :
    x.wait p q = x.wait p q₀ := by
  cases x with
  | result m merged r => simp only [QueryAnswer.wait, resultWait, h.designated, h.retryVersion, h.eagerMode, he]
  | failure m replicaId => simp only [QueryAnswer.wait, failWait, h.designated, h.retryVersion]

theorem Counted.step (he : q₀.eagerMode = false) (h : Counted p q₀ l q) (hv : x.Valid p)
    (hnew : x.replicaId ∉ l.map replicaId) {y : PendingQuery × Option QueryUpcall}
    (hx : q.Handled p y (x.event reqId)) : (y.2.isSome = true ↔ x.Triggers p q₀ l) ∧
      (y.2 = none → Counted p q₀ (l ++ [x]) y.1 ∧ y.1.done = q.done) := by
  have hlen : q.resultsVerified.length = l.length := by rw [h.verified, length_reverse, length_map]
  have hfresh : x.replicaId ∉ q.resultsVerified := by rwa [h.verified, mem_reverse]
  have hwait := h.wait he x
  have hverified : x.replicaId :: q.resultsVerified = ((l ++ [x]).map replicaId).reverse := by
    rw [h.verified, map_append, reverse_append]
    rfl
  cases x with
  | result m merged r =>
    obtain ⟨m', hm', hhandle⟩ := hx
    cases hm'
    obtain ⟨hopen, hlocal, hgroup⟩ := hv
    have hcounts : q.counts p r = true := by
      have hfirst : decide (r.replicaId ∈ q.resultsVerified) = false := decide_eq_false hfresh
      rw [counts, hlocal, hgroup, hfirst, isSome_none, Bool.and_false]
      rfl
    obtain ⟨hup, hq'⟩ := handleQueryResult_snapshot h.eagerMode hopen hcounts hhandle
    rw [hlen, h.freq] at hup
    refine ⟨hup.trans ?_, fun hnone => ?_⟩
    · have hkey : (∃ k, (result m merged r).hasKey p k = true ∧ l.countP (hasKey p k) + 1 = p.resultQuorum) ↔
          l.countP (hasKey p (r.key p)) + 1 = p.resultQuorum := by simp [hasKey]
      rw [Triggers, ← hwait, hkey, or_comm]
      simp [QueryAnswer.wait, isFailure]
    · rw [hq' hnone]
      refine ⟨⟨h.eagerMode, h.designated, h.retryVersion, hverified, ?_, fun k => ?_⟩, rfl⟩
      · rw [countP_append, ← h.numFails]
        rfl
      rw [mgr_counted, countP_append, countP_singleton, ← h.freq k]
      by_cases hk : k = r.key p
      · rw [if_pos hk, ResultMgr.count_freq, hk]
        simp [hasKey]
      · rw [if_neg hk]
        simp [hasKey, Ne.symm hk]
  | failure m replicaId =>
    obtain ⟨m', hm', rfl⟩ := hx
    cases hm'
    obtain ⟨hopen, hgroup⟩ := hv
    obtain ⟨hup, hq'⟩ := handleFailQuery_counted hopen hgroup hfresh
    rw [hlen, h.numFails] at hup
    refine ⟨hup.trans ?_, fun _ => ?_⟩
    · rw [Triggers, ← hwait, or_comm]
      simp [QueryAnswer.wait, isFailure, hasKey]
    rw [hq']
    refine ⟨⟨h.eagerMode, h.designated, h.retryVersion, hverified, ?_, fun k => ?_⟩, rfl⟩
    · rw [countP_append, ← h.numFails]
      rfl
    · rw [countP_append, ← h.freq k]
      rfl

theorem Awaiting.step (he : q₀.eagerMode = false) (h : Awaiting p reqId q₀ ups l s) (hv : x.Valid p)
    (hnew : x.replicaId ∉ l.map replicaId) (hs : step p s (x.event reqId) = some s') :
    Awaiting p reqId q₀ ups (l ++ [x]) s' := by
  have hreq : (x.event reqId).reqId = some reqId := by cases x <;> rfl
  rw [Awaiting, exists_prefix_snoc]
  rcases step_cases hs with ⟨hnone, -⟩ | ⟨id, hid, hcase⟩
  · rw [hreq] at hnone
    cases hnone
  obtain rfl : reqId = id := some.inj (hreq.symm.trans hid)
  rcases h with ⟨htrig, hlt⟩ | ⟨hnot, hups, q, hq, hc⟩
  · refine .inl ⟨.inr htrig, ?_⟩
    rcases hcase with ⟨-, rfl⟩ | ⟨q, y, -, -, rfl⟩
    · exact hlt
    · exact hlt.trans_le (by rw [update, length_append]; omega)
  · rcases hcase with ⟨hnone, -⟩ | ⟨q', y, hq', hx, rfl⟩
    · rw [hq] at hnone
      cases hnone
    obtain rfl : q = q' := some.inj (hq.symm.trans hq')
    obtain ⟨hup, hrest⟩ := hc.step he hv hnew hx
    cases hy : y.2 with
    | some u =>
      refine .inl ⟨.inl (hup.mp (by rw [hy]; rfl)), ?_⟩
      rw [update, hups, hy, length_append]
      exact Nat.lt_succ_self _
    | none =>
      have hnot' : ¬ x.Triggers p q₀ l := fun ht => by
        have hsome := hup.mpr ht
        rw [hy] at hsome
        cases hsome
      obtain ⟨hc', hdone⟩ := hrest hy
      refine .inr ⟨not_or.mpr ⟨hnot', hnot⟩, ?_, y.1, ?_, hc'⟩
      · rw [update, hups, hy]
        exact append_nil _
      · rw [active_update, if_pos rfl]
        exact filter_eq_some_iff.mpr ⟨rfl, by rw [hdone, (active_eq_some hq).2]; rfl⟩

theorem Awaiting.run (he : q₀.eagerMode = false) (h : Awaiting p reqId q₀ ups l s) (hv : ∀ x ∈ xs, x.Valid p)
    (hnd : ((l ++ xs).map replicaId).Nodup) (hrun : Run.exec (QueryClient.step p) s (xs.map (event reqId)) = some s') :
    Awaiting p reqId q₀ ups (l ++ xs) s' := by
  induction xs generalizing l s with
  | nil =>
    cases hrun
    rwa [append_nil]
  | cons x xs ih =>
    obtain ⟨s₁, hs, hrest⟩ := Run.exec_cons hrun
    have hnew : x.replicaId ∉ l.map replicaId := by
      rw [map_append, map_cons, nodup_append] at hnd
      exact fun hmem => hnd.2.2 _ hmem _ mem_cons_self rfl
    rw [← singleton_append, ← append_assoc] at hnd ⊢
    exact ih (h.step he (hv x mem_cons_self) hnew hs) (fun y hy => hv y (mem_cons_of_mem _ hy)) hnd hrest

/-- After the replies of all designated replicas the callback has been invoked exactly if a quorum match, more than `f`
are failures, or one comes when its handler has waited long enough; in every order if both handlers wait for the same
number, of at most the designated. -/
theorem answered_iff (hq : s.active reqId = some q) (he : q.eagerMode = false) (hnew : q.Unanswered)
    (hv : ∀ x ∈ xs, x.Valid p) (hnd : (xs.map replicaId).Nodup) (hlen : xs.length = q.numDesignatedReplies)
    (hrun : Run.exec (QueryClient.step p) s (xs.map (event reqId)) = some s') :
    (s'.upcalls ≠ s.upcalls ↔ (∃ l x, l ++ [x] <+: xs ∧ (l.length : Int) + 1 = x.wait p q) ∨
      p.config.f < xs.countP isFailure ∨
      0 < p.resultQuorum ∧ ∃ k, p.resultQuorum ≤ xs.countP (hasKey p k)) ∧
    (q.resultWait p = q.failWait p → 0 < q.failWait p → q.failWait p ≤ q.numDesignatedReplies →
      s'.upcalls ≠ s.upcalls) := by
  have hfirst : Awaiting p reqId q s.upcalls [] s := by
    refine .inr ⟨by simp, rfl, q, hq, he, rfl, rfl, hnew.resultsVerified, hnew.numFails, fun k => ?_⟩
    rw [mgr, hnew.resultFreq]
    rfl
  have hafter := hfirst.run he hv hnd hrun
  have hiff : s'.upcalls ≠ s.upcalls ↔ ∃ l x, l ++ [x] <+: xs ∧ x.Triggers p q l := by
    rcases hafter with ⟨htrig, hlt⟩ | ⟨hnot, hsame, -⟩
    · exact iff_of_true (fun he => by rw [he] at hlt; exact absurd hlt (lt_irrefl _)) htrig
    · exact iff_of_false (fun hne => hne hsame) hnot
  refine ⟨hiff.trans ⟨?_, ?_⟩, fun hsame hpos hle => hiff.mpr ?_⟩
  · rintro ⟨l, x, hpre, hwait | ⟨hf, hn⟩ | ⟨k, hk, hn⟩⟩
    · exact .inl ⟨l, x, hpre, hwait⟩
    · exact .inr (.inl (exists_prefix_countP.mp ⟨l, x, hpre, hf, hn⟩).2)
    · obtain ⟨hpos, hn⟩ := exists_prefix_countP.mp ⟨l, x, hpre, hk, hn⟩
      exact .inr (.inr ⟨hpos, k, hn⟩)
  · rintro (⟨l, x, hpre, hwait⟩ | hn | ⟨hpos, k, hn⟩)
    · exact ⟨l, x, hpre, .inl hwait⟩
    · obtain ⟨l, x, hpre, h⟩ := exists_prefix_countP.mpr ⟨Nat.succ_pos _, hn⟩
      exact ⟨l, x, hpre, .inr (.inl h)⟩
    · obtain ⟨l, x, hpre, h⟩ := exists_prefix_countP.mpr ⟨hpos, hn⟩
      exact ⟨l, x, hpre, .inr (.inr ⟨k, h⟩)⟩
  · -- the reply at that position is a result or a failure
    obtain ⟨i, hi⟩ := Int.eq_ofNat_of_zero_le (Int.le_sub_one_of_lt hpos)
    have hlt : i < xs.length := by omega
    refine ⟨xs.take i, xs[i], ?_, .inl ?_⟩
    · rw [take_concat_get' xs i hlt]
      exact take_prefix _ _
    rw [length_take, min_eq_left hlt.le]
    cases xs[i] with
    | result m merged r =>
      show (i : Int) + 1 = q.resultWait p
      omega
    | failure m replicaId =>
      show (i : Int) + 1 = q.failWait p
      omega

/-! ## Undecided queries -/

def soleResult (r : UInt8) : QueryResult where
  querySeqNum := 1
  clientId := 9
  replicaId := r.toNat
  queryResult := [42]
  queryReadSet := some ⟨⟨[{ key := [r], readtime := ⟨5, 1⟩ }], [], []⟩, []⟩

def snapshotQueries (quorum : Nat) (eager : Bool) : QueryParams :=
  { sampleQueries with
    resultQuorum := quorum
    syncMessages := 4
    eagerExec := eager
    parseResult := fun
      | [r] => some (soleResult r)
      | _ => none
    parseFail := fun b => b.head?.map UInt8.toNat }

def resultOf (r : UInt8) : QueryAnswer := .result ⟨[r], r.toNat, [r]⟩ false (soleResult r)

def failureOf (r : UInt8) : QueryAnswer := .failure ⟨[r], r.toNat, [r]⟩ r.toNat

/-- Four replicas are asked. On a retry of an eager query the third reply is not enough for results, and the fourth too
late for failures. -/
theorem undecided_replies :
    (∃ s s', Run.exec (step (snapshotQueries 4 false)) .init [.query 1, .syncReply 0 true] = some s ∧
      (s.active 0).any (fun q => q.snapshotMode && q.numDesignatedReplies == 4) = true ∧
      Run.exec (step (snapshotQueries 4 false)) s
        ([resultOf 0, resultOf 1, resultOf 2, resultOf 3].map (event 0)) = some s' ∧ s'.upcalls = s.upcalls) ∧
    ∃ s s', Run.exec (step (snapshotQueries 3 true)) .init [.query 1, .retryQuery 1, .syncReply 1 true] = some s ∧
      (s.active 1).any (fun q => q.snapshotMode && q.numDesignatedReplies == 4) = true ∧
      Run.exec (step (snapshotQueries 3 true)) s
        ([resultOf 0, resultOf 1, resultOf 2, failureOf 3].map (event 1)) = some s' ∧ s'.upcalls = s.upcalls :=
  ⟨⟨_, _, rfl, rfl, rfl, rfl⟩, _, _, rfl, rfl, rfl, rfl⟩

/-- Three results and a failure, where both handlers wait for four replies. -/
theorem answered_iff_four :
    ∃ s s', Run.exec (step (snapshotQueries 3 false)) .init [.query 1, .syncReply 0 true] = some s ∧
      Run.exec (step (snapshotQueries 3 false)) s
        ([resultOf 0, failureOf 1, resultOf 2, resultOf 3].map (event 0)) = some s' ∧ s'.upcalls ≠ s.upcalls := by
  have hv : ∀ x ∈ [resultOf 0, failureOf 1, resultOf 2, resultOf 3], x.Valid (snapshotQueries 3 false) := by
    simp only [mem_cons, not_mem_nil, or_false, forall_eq_or_imp, forall_eq]
    exact ⟨⟨rfl, rfl, rfl⟩, ⟨rfl, rfl⟩, ⟨rfl, rfl, rfl⟩, rfl, rfl, rfl⟩
  obtain ⟨s, s', q, hs, hs', hq, he, hnew, hlen, hsame, hpos, hle⟩ : ∃ s s' q,
      Run.exec (step (snapshotQueries 3 false)) .init [.query 1, .syncReply 0 true] = some s ∧
      Run.exec (step (snapshotQueries 3 false)) s
        ([resultOf 0, failureOf 1, resultOf 2, resultOf 3].map (event 0)) = some s' ∧
      s.active 0 = some q ∧ q.eagerMode = false ∧ q.Unanswered ∧ 4 = q.numDesignatedReplies ∧
      q.resultWait (snapshotQueries 3 false) = q.failWait (snapshotQueries 3 false) ∧
      0 < q.failWait (snapshotQueries 3 false) ∧ q.failWait (snapshotQueries 3 false) ≤ q.numDesignatedReplies :=
    ⟨_, _, _, rfl, rfl, rfl, rfl, ⟨rfl, rfl, rfl⟩, rfl, rfl, by decide, by decide⟩
  exact ⟨s, s', hs, hs', (answered_iff hq he hnew hv (by decide) hlen hs').2 hsame hpos hle⟩

end QueryClient

/-! ## Who is heard -/

/-- The signed replies to a request, with whether they are failures. -/
def signedReplies (reqId : Nat) (es : List QueryEvent) : List (Bool × SignedBytes) :=
  es.filterMap fun
    | .resultReply reply _ => if reply.reqId = reqId then reply.signedResult.map (false, ·) else none
    | .failReply reply => if reply.reqId = reqId then reply.signedFail.map (true, ·) else none
    | _ => none

def signerOf (x : Bool × SignedBytes) : Nat := x.2.processId

def Attests (p : QueryParams) (reqId : Nat) (es : List QueryEvent) (x : Bool × SignedBytes) : Prop :=
  x ∈ signedReplies reqId es ∧ signerOf x / p.config.n = p.group ∧
    (if x.1 then (x.2.openFail p).isSome else (x.2.openResult p).isSome) = true

namespace QueryEvent

variable (p)

/-- A failure names its signer, a reply counted is of the group, and a result counted the only one with its hash. -/
def faithful (s : QueryClient) : QueryEvent → Bool
  | .resultReply reply _ => (s.active reply.reqId).all fun q =>
      (reply.signedResult.bind fun m => m.openResult p).all fun r => !q.counts p r ||
        r.replicaId / p.config.n == p.group && q.resultFreq.keys.all fun k => k.1 != (r.key p).1 || k == r.key p
  | .failReply reply => reply.signedFail.all fun m => (m.openFail p).all fun replicaId =>
      replicaId == m.processId && (!isReplicaInGroup p.config replicaId p.group || replicaId / p.config.n == p.group)
  | _ => true

def wait (q : PendingQuery) : QueryEvent → Int
  | .failReply _ => q.failWait p
  | _ => q.resultWait p

/-- `f + 1` replicas of the group have signed a failure, or as many as are waited for a reply. -/
def FailureBacked (s : QueryClient) (es : List QueryEvent) (e : QueryEvent) : Prop :=
  ∃ reqId q, e.reqId = some reqId ∧ s.active reqId = some q ∧
    (Tally.Attained signerOf (fun x => x.1 = true ∧ Attests p reqId es x) (p.config.f + 1) ∨
      ∃ n : Nat, n = e.wait p q ∧ Tally.Attained signerOf (Attests p reqId es) n)

end QueryEvent

namespace PendingQuery

variable {P P' : Bool × SignedBytes → Prop} {l : List (Bool × SignedBytes)} {x : Bool × SignedBytes}

/-- The replies `l` were counted, of distinct signers. -/
structure Heard (P : Bool × SignedBytes → Prop) (q : PendingQuery) (l : List (Bool × SignedBytes)) : Prop where
  verified : q.resultsVerified = l.map signerOf
  nodup : q.resultsVerified.Nodup
  numFails : q.numFails = l.countP Prod.fst
  proper : ∀ x ∈ l, P x

theorem Heard.nil (hv : q.resultsVerified = []) (hn : q.numFails = 0) : Heard P q [] :=
  ⟨hv, hv.symm ▸ nodup_nil, hn, nofun⟩

theorem Heard.cast (h : Heard P q l) (hx : P x) (hnew : signerOf x ∉ q.resultsVerified)
    (hv : q'.resultsVerified = signerOf x :: q.resultsVerified)
    (hn : q'.numFails = q.numFails + if x.1 then 1 else 0) : Heard P q' (x :: l) where
  verified := by rw [hv, h.verified, map_cons]
  nodup := by
    rw [hv]
    exact nodup_cons.mpr ⟨hnew, h.nodup⟩
  numFails := by rw [hn, h.numFails, countP_cons]
  proper := forall_mem_cons.mpr ⟨hx, h.proper⟩

theorem Heard.moves (h : Heard P q l) (hm : Moves q q') : ∃ l, Heard P q' l := by
  rcases hm.fails with ⟨hv, hn⟩ | ⟨hv, hn⟩
  · exact ⟨l, hv.trans h.verified, hv ▸ h.nodup, hn.trans h.numFails, h.proper⟩
  · exact ⟨[], .nil hv hn⟩

theorem Heard.mono (h : Heard P q l) (hP : ∀ x, P x → P' x) : Heard P' q l :=
  ⟨h.verified, h.nodup, h.numFails, fun x hx => hP x (h.proper x hx)⟩

theorem Heard.attained (h : Heard P q l) : Tally.Attained signerOf P q.resultsVerified.length :=
  ⟨l, h.verified ▸ h.nodup, h.proper, by rw [h.verified, length_map]⟩

theorem Heard.failures (h : Heard P q l) (hn : q.numFails = n) :
    Tally.Attained signerOf (fun x => x.1 = true ∧ P x) n :=
  Tally.attained_filter (h.verified ▸ h.nodup) (fun x hx hf => ⟨hf, h.proper x hx⟩)
    (by rw [← countP_eq_length_filter, ← h.numFails, hn])

theorem resultsOf_counted (h : ∀ k ∈ q.resultFreq.keys, k.1 = (r.key p).1 → k = r.key p) :
    ((q.counted p r).resultsOf (r.key p).1).length = 1 := by
  have hrest : (kerase (r.key p) q.resultFreq.entries).filter (fun e => e.1.1 == (r.key p).1) = [] := by
    refine filter_eq_nil_iff.mpr fun e he hhash => ?_
    have hmem : e.1 ∈ q.resultFreq.keys := mem_keys_of_mem ((kerase_sublist _ _).subset he)
    have hkey := mem_keys_of_mem he
    rw [h e.1 hmem (beq_iff_eq.mp hhash)] at hkey
    exact notMem_keys_kerase (r.key p) q.resultFreq.nodupKeys hkey
  show (filter _ (AList.insert _ _ _).entries).length = 1
  rw [AList.entries_insert, filter_cons, hrest]
  simp

end PendingQuery

namespace QueryClient

variable {e : QueryEvent} {past es : List QueryEvent}

theorem Attests.snoc {x : Bool × SignedBytes} (h : Attests p reqId past x) : Attests p reqId (past ++ [e]) x := by
  refine ⟨?_, h.2⟩
  rw [signedReplies, filterMap_append]
  exact mem_append_left _ h.1

theorem attests_result {reply : QueryResultReply} {merged : Bool}
    (hn : (QueryEvent.resultReply reply merged).faithful p s = true) (hq : s.active reply.reqId = some q)
    (hm : reply.signedResult = some m) (hopen : m.openResult p = some r) (hc : q.counts p r = true) :
    Attests p reply.reqId (past ++ [.resultReply reply merged]) (false, m) ∧
      ∀ k ∈ q.resultFreq.keys, k.1 = (r.key p).1 → k = r.key p := by
  rw [QueryEvent.faithful, hq, all_some, hm, bind_some, hopen, all_some, hc] at hn
  simp only [Bool.not_true, Bool.false_or, Bool.and_eq_true, beq_iff_eq, List.all_eq_true, Bool.or_eq_true,
    bne_iff_ne] at hn
  obtain ⟨-, -, hid⟩ := openResult_eq_some hopen
  refine ⟨⟨?_, ?_, by rw [if_neg Bool.false_ne_true, hopen]; rfl⟩, fun k hk hhash => (hn.2 k hk).resolve_left (· hhash)⟩
  · rw [signedReplies, filterMap_append]
    exact mem_append_right _ (by simp [hm])
  · rw [signerOf, ← hid]
    exact hn.1

theorem attests_failure {reply : FailQuery} {replicaId : Nat}
    (hn : (QueryEvent.failReply reply).faithful p s = true) (hm : reply.signedFail = some m)
    (hopen : m.openFail p = some replicaId) (hgroup : isReplicaInGroup p.config replicaId p.group = true) :
    Attests p reply.reqId (past ++ [.failReply reply]) (true, m) ∧ replicaId = m.processId := by
  rw [QueryEvent.faithful, hm, all_some, hopen, all_some, hgroup] at hn
  simp only [Bool.not_true, Bool.false_or, Bool.and_eq_true, beq_iff_eq] at hn
  refine ⟨⟨?_, ?_, by rw [if_pos rfl, hopen]; rfl⟩, hn.1⟩
  · rw [signedReplies, filterMap_append]
    exact mem_append_right _ (by simp [hm])
  · rw [signerOf, ← hn.1]
    exact hn.2

def Attested (p : QueryParams) (past : List QueryEvent) (s : QueryClient) : Prop :=
  ∀ reqId q, s.pendingQueries reqId = some q → ∃ l, Heard (Attests p reqId past) q l

theorem Attested.snoc (h : Attested p past s) (e : QueryEvent) : Attested p (past ++ [e]) s := by
  intro reqId q hq
  obtain ⟨l, hl⟩ := h reqId q hq
  exact ⟨l, hl.mono fun _ => Attests.snoc⟩

theorem Heard.counted {reply : QueryResultReply} {merged : Bool} {l : List (Bool × SignedBytes)}
    (h : Heard (Attests p reply.reqId (past ++ [.resultReply reply merged])) q l)
    (hn : (QueryEvent.resultReply reply merged).faithful p s = true) (hq : s.active reply.reqId = some q)
    (hm : reply.signedResult = some m) (hopen : m.openResult p = some r) (hc : q.counts p r = true) :
    Heard (Attests p reply.reqId (past ++ [.resultReply reply merged])) (q.counted p r) ((false, m) :: l) := by
  obtain ⟨-, -, hid⟩ := openResult_eq_some hopen
  refine h.cast (attests_result hn hq hm hopen hc).1 ?_ (congrArg (· :: q.resultsVerified) hid) rfl
  rw [counts, Bool.and_eq_true] at hc
  simpa [signerOf, ← hid] using hc.2

theorem Attested.step (h : Attested p past s) (hn : e.faithful p s = true) (hs : step p s e = some s') :
    Attested p (past ++ [e]) s' := by
  refine pending_step hs (h.snoc e) (fun _ _ hnew => ⟨[], .nil hnew.resultsVerified hnew.numFails⟩)
    fun reqId q x hid hq ⟨l, hl⟩ hx => ?_
  cases e with
  | resultReply reply merged =>
    obtain ⟨q', up⟩ := x
    obtain ⟨m, hm, hhandle⟩ := hx
    cases hid
    rcases handleQueryResult_cases hhandle with ⟨rfl, -, -⟩ | ⟨r, hopen, hc, hcase⟩
    · exact ⟨l, hl⟩
    have hcounted := Heard.counted hl hn hq hm hopen hc
    rcases hcase with ⟨rfl, -, -⟩ | ⟨hmoves, -⟩
    · exact ⟨_, hcounted.verified, hcounted.nodup, hcounted.numFails, hcounted.proper⟩
    · exact hcounted.moves hmoves
  | failReply reply =>
    obtain ⟨m, hm, rfl⟩ := hx
    cases hid
    rcases handleFailQuery_cases p q reply.reqId m with ⟨he, -⟩ | ⟨replicaId, hopen, hgroup, hnew, he⟩
    · rw [he]
      exact ⟨l, hl⟩
    · obtain ⟨hatt, rfl⟩ := attests_failure hn hm hopen hgroup
      rw [he]
      exact ⟨_, hl.cast hatt hnew rfl rfl⟩
  | syncReply id merged =>
    cases hx
    exact hl.moves (moves_checkSyncStart q)
  | _ => exact hx.elim

/-- If failures name their signers, one that is reported rests on enough replicas; and a result is counted, as the only
one with its hash, unless its replica has signed a reply before. -/
theorem failures_attested (hm : Run.Meets (step p) (fun s e => e.faithful p s = true) .init (es ++ [e]))
    (hrun : Run.exec (step p) .init es = some s) :
    (∀ s' u, step p s e = some s' → s'.upcalls = s.upcalls ++ [u] → u.success = false →
      e.FailureBacked p s (es ++ [e])) ∧
    ∀ reply merged q m r, e = .resultReply reply merged → s.active reply.reqId = some q →
      reply.signedResult = some m → m.openResult p = some r →
      isReplicaInGroup p.config r.replicaId p.group = true → q.eagerMode = true ∨ r.localSs = none →
      (∀ x, Attests p reply.reqId es x → signerOf x ≠ m.processId) →
      q.counts p r = true ∧ ((q.counted p r).resultsOf (r.key p).1).length = 1 := by
  obtain ⟨hbefore, hlast, -⟩ := hm.append hrun
  have hall : Attested p ([] ++ es) s :=
    Run.exec_history_of_meets (fun h hn hs => Attested.step h hn hs) (fun _ _ hq => by cases hq) hbefore hrun
  constructor
  · intro s' u hs hup hfail
    obtain ⟨reqId, q, q', hid, hq, hx⟩ := step_upcall hs hup
    refine ⟨reqId, q, hid, hq, ?_⟩
    obtain ⟨l, hl⟩ := (hall.snoc e) reqId q (active_eq_some hq).1
    cases e with
    | resultReply reply merged =>
      obtain ⟨m, hm, hhandle⟩ := hx
      cases hid
      rcases handleQueryResult_cases hhandle with ⟨-, hnone, -⟩ | ⟨r, hopen, hc, ⟨-, -, hu⟩ | ⟨-, hu⟩⟩
      · cases hnone
      · rw [some.inj hu] at hfail
        cases hfail
      · exact .inr ⟨_, (hu u rfl).2, (Heard.counted hl hlast hq hm hopen hc).attained⟩
    | failReply reply =>
      obtain ⟨m, hm, hx⟩ := hx
      cases hid
      rcases handleFailQuery_cases p q reply.reqId m with ⟨he, -⟩ | ⟨replicaId, hopen, hgroup, hnew, -⟩
      · cases he.symm.trans hx
      obtain ⟨hatt, rfl⟩ := attests_failure hlast hm hopen hgroup
      obtain ⟨hup, -⟩ := handleFailQuery_counted hopen hgroup hnew
      rw [hx] at hup
      have hheard : Heard _
          { q with resultsVerified := m.processId :: q.resultsVerified, numFails := q.numFails + 1 } _ :=
        hl.cast hatt hnew rfl rfl
      exact (hup.mp rfl).imp hheard.failures fun hwait => ⟨_, hwait, hheard.attained⟩
    | syncReply id merged => cases hx
    | _ => exact hx.elim
  · rintro reply merged q m r rfl hq hm hopen hgroup hmode hother
    obtain ⟨l, hl⟩ := hall reply.reqId q (active_eq_some hq).1
    obtain ⟨-, -, hid⟩ := openResult_eq_some hopen
    have hnew : r.replicaId ∉ q.resultsVerified := by
      rw [hl.verified, hid]
      intro hmem
      obtain ⟨x, hx, hsame⟩ := mem_map.mp hmem
      exact hother x (hl.proper x hx) hsame
    have hcounts : q.counts p r = true := by
      rw [counts, hgroup]
      rcases hmode with hmode | hmode <;> simp [hmode, hnew]
    obtain ⟨-, hsame⟩ : Attests p reply.reqId (es ++ [.resultReply reply merged]) (false, m) ∧ _ :=
      attests_result hlast hq hm hopen hcounts
    exact ⟨hcounts, resultsOf_counted hsame⟩

/-- A failure that `signer` has signed in the name of replica `r`. -/
def failureIn (signer r : UInt8) : QueryEvent := .failReply ⟨0, some ⟨[r], signer.toNat, [signer]⟩⟩

/-- Replica `5` signs failures in the names of `0` and `1`: one is reported, and the result of `0` is not counted. -/
theorem failures_of_others :
    ∃ s s' u, Run.exec (step (snapshotQueries 3 false)) .init [.query 1, .syncReply 0 true, failureIn 5 0] = some s ∧
      (s.active 0).any (fun q => decide (q.failWait (snapshotQueries 3 false) = 4)) = true ∧
      step (snapshotQueries 3 false) s (failureIn 5 1) = some s' ∧ s'.upcalls = s.upcalls ++ [u] ∧ u.success = false ∧
      (∀ x ∈ signedReplies 0 [.query 1, .syncReply 0 true, failureIn 5 0, failureIn 5 1], signerOf x = 5) ∧
      (s.active 0).any (fun q => q.counts (snapshotQueries 3 false) (soleResult 0)) = false :=
  ⟨_, _, _, rfl, by decide +kernel, rfl, rfl, rfl, by decide, rfl⟩

theorem failures_attested_two :
    ∃ s s' u, Run.exec (step (snapshotQueries 3 false)) .init [.query 1, .syncReply 0 true, failureIn 0 0] = some s ∧
      step (snapshotQueries 3 false) s (failureIn 1 1) = some s' ∧ s'.upcalls = s.upcalls ++ [u] ∧
      (failureIn 1 1).FailureBacked (snapshotQueries 3 false) s
        [.query 1, .syncReply 0 true, failureIn 0 0, failureIn 1 1] := by
  have hmeets : Run.Meets (step (snapshotQueries 3 false)) (fun s e => e.faithful (snapshotQueries 3 false) s = true)
      .init ([.query 1, .syncReply 0 true, failureIn 0 0] ++ [failureIn 1 1]) := by decide +kernel
  exact ⟨_, _, _, rfl, rfl, rfl, (failures_attested hmeets rfl).1 _ _ rfl rfl rfl⟩

end QueryClient

end Pequin
