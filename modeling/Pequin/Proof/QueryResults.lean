import Pequin.Framework.Tally
import Pequin.Model.Queries
import Pequin.Proof.Equivocation

/-!
# Query results

The shard client reports the result of a query once `resultQuorum` replies match. Replies are routed by a request id
that is not signed, and the query that is named in the signed result is not compared with the pending one. They match
if the hashes of their read sets do; the hash is over the keys and versions one after the other.
-/

namespace Pequin

open Bool Function List Option PendingQuery QueryClient

variable {p : QueryParams} {q q' : PendingQuery} {r : QueryResult} {m : SignedBytes} {s s' : QueryClient}
  {e : QueryEvent}

namespace PendingQuery

variable {reqId : Nat} {merged : Bool} {up : Option QueryUpcall} {rs : Option ResultReadSet}

section

variable (p q r)

/-- An authentic result that is counted: not an outdated eager one, of the group, the first of its replica. -/
def counts : Bool :=
  !(!q.eagerMode && r.localSs.isSome) && isReplicaInGroup p.config r.replicaId p.group &&
    !decide (r.replicaId ∈ q.resultsVerified)

def mgr (k : Bytes × Bytes) : ResultMgr := (q.resultFreq.lookup k).getD {}

def counted : PendingQuery :=
  { q with
    resultsVerified := r.replicaId :: q.resultsVerified
    resultFreq := q.resultFreq.insert (r.key p) ((q.mgr (r.key p)).count p q.eagerMode r).1 }

/-- What may happen to a query apart from counting: nothing that matters, or the reset for the snapshot. -/
structure Moves (q' : PendingQuery) : Prop where
  querySeqNum : q'.querySeqNum = q.querySeqNum
  kept : q'.resultsVerified = q.resultsVerified ∧ q'.resultFreq = q.resultFreq ∧ q'.eagerMode = q.eagerMode ∨
    q'.resultsVerified = [] ∧ q'.resultFreq = ∅ ∧ q'.eagerMode = false
  fails : q'.resultsVerified = q.resultsVerified ∧ q'.numFails = q.numFails ∨ q'.resultsVerified = [] ∧ q'.numFails = 0

end

theorem Moves.refl (q : PendingQuery) : Moves q q := ⟨rfl, .inl ⟨rfl, rfl, rfl⟩, .inl ⟨rfl, rfl⟩⟩

theorem Moves.trans {q'' : PendingQuery} (h : Moves q q') (h' : Moves q' q'') : Moves q q'' := by
  refine ⟨h'.querySeqNum.trans h.querySeqNum, ?_, ?_⟩
  · rcases h'.kept with ⟨hv', hf', he'⟩ | hreset
    · rcases h.kept with ⟨hv, hf, he⟩ | ⟨hv, hf, he⟩
      · exact .inl ⟨hv'.trans hv, hf'.trans hf, he'.trans he⟩
      · exact .inr ⟨hv'.trans hv, hf'.trans hf, he'.trans he⟩
    · exact .inr hreset
  · rcases h'.fails with ⟨hv', hn'⟩ | hreset
    · exact h.fails.imp (fun ⟨hv, hn⟩ => ⟨hv'.trans hv, hn'.trans hn⟩) fun ⟨hv, hn⟩ => ⟨hv'.trans hv, hn'.trans hn⟩
    · exact .inr hreset

theorem moves_checkSyncStart (q : PendingQuery) : Moves q (q.checkSyncStart p merged) := by
  unfold checkSyncStart
  split
  · unfold syncReplicas
    cases p.eagerPlusSnapshot with
    | true => exact ⟨rfl, .inr ⟨rfl, rfl, rfl⟩, .inr ⟨rfl, rfl⟩⟩
    | false => exact ⟨rfl, .inl ⟨rfl, rfl, rfl⟩, .inl ⟨rfl, rfl⟩⟩
  · exact .refl q

def resultWait (p : QueryParams) (q : PendingQuery) : Int :=
  maxWait p q.numDesignatedReplies (p.eagerExec && q.eagerMode || p.optimisticTxID && decide (0 < q.retryVersion))

theorem unmatched_cases (h : q.unmatched p reqId r rs merged = some (q', up)) : Moves q q' ∧
    ∀ u, up = some u → u.success = false ∧ (q.resultsVerified.length : Int) = q.resultWait p := by
  unfold unmatched at h
  simp only at h
  split at h
  · split at h
    · cases h
    obtain ⟨rfl, rfl⟩ := h
    refine ⟨?_, fun u hu => by cases hu⟩
    have hmode (c : Prop) [Decidable c] : Moves q (if c then { q with snapshotMode := true } else q) := by
      split <;> exact ⟨rfl, .inl ⟨rfl, rfl, rfl⟩, .inl ⟨rfl, rfl⟩⟩
    split
    · exact (hmode _).trans (moves_checkSyncStart _)
    · exact hmode _
  · split at h
    · cases h
    split at h
    · rename_i hwait
      obtain ⟨rfl, rfl⟩ := h
      refine ⟨.refl q, fun u hu => ?_⟩
      cases hu
      exact ⟨rfl, hwait⟩
    · rw [some.injEq, Prod.mk.injEq] at h
      obtain ⟨rfl, rfl⟩ := h
      exact ⟨.refl q, fun u hu => by cases hu⟩

theorem handleQueryResult_cases (h : q.handleQueryResult p reqId m merged = some (q', up)) :
    (q' = q ∧ up = none ∧ ∀ r, m.openResult p = some r → q.counts p r = false) ∨
    ∃ r, m.openResult p = some r ∧ q.counts p r = true ∧ ((q' = { q.counted p r with done := true } ∧
          ((q.mgr (r.key p)).count p q.eagerMode r).1.freq = p.resultQuorum ∧
          up = some ⟨reqId, q.querySeqNum, true, ((q.mgr (r.key p)).count p q.eagerMode r).2, r.queryResultHash,
            r.queryResult⟩) ∨ Moves (q.counted p r) q' ∧ ∀ u, up = some u → u.success = false ∧
              ((q.counted p r).resultsVerified.length : Int) = (q.counted p r).resultWait p) := by
  unfold handleQueryResult at h
  split at h
  · rename_i hnone
    cases h
    exact .inl ⟨rfl, rfl, fun r hr => by rw [hnone] at hr; cases hr⟩
  rename_i r hopen
  have honly : ∀ r', m.openResult p = some r' → r' = r := fun r' hr' => by
    rw [hopen] at hr'
    exact (some.inj hr').symm
  split at h
  · rename_i hold
    cases h
    exact .inl ⟨rfl, rfl, fun r' hr' => by rw [honly r' hr', counts, hold]; rfl⟩
  rename_i hold
  split at h
  · rename_i hgroup
    cases h
    refine .inl ⟨rfl, rfl, fun r' hr' => ?_⟩
    rw [honly r' hr', counts]
    simp only [Bool.not_eq_true'] at hgroup
    simp [hgroup]
  · rename_i hgroup
    split at h
    · rename_i hdup
      cases h
      exact .inl ⟨rfl, rfl, fun r' hr' => by rw [honly r' hr', counts]; simp [hdup]⟩
    rename_i hnew
    refine .inr ⟨r, hopen, ?_, ?_⟩
    · simp only [Bool.not_eq_true', Bool.not_eq_false] at hgroup
      rw [counts, hgroup]
      simp only [hold, hnew, decide_false, Bool.not_false, Bool.and_self]
    simp only at h
    split at h
    · cases h
    split at h
    · rename_i hquorum
      cases h
      rw [Bool.and_eq_true, beq_iff_eq] at hquorum
      exact .inl ⟨rfl, hquorum.2, rfl⟩
    · exact .inr (unmatched_cases h)

theorem handleFailQuery_cases (p : QueryParams) (q : PendingQuery) (reqId : Nat) (m : SignedBytes) :
    (q.handleFailQuery p reqId m = (q, none) ∧ ∀ replicaId, m.openFail p = some replicaId →
      isReplicaInGroup p.config replicaId p.group = true → replicaId ∈ q.resultsVerified) ∨
    ∃ replicaId, m.openFail p = some replicaId ∧ isReplicaInGroup p.config replicaId p.group = true ∧
      replicaId ∉ q.resultsVerified ∧ (q.handleFailQuery p reqId m).1 =
        { q with resultsVerified := replicaId :: q.resultsVerified, numFails := q.numFails + 1 } := by
  unfold handleFailQuery
  cases hopen : m.openFail p with
  | none => exact .inl ⟨rfl, fun replicaId hr => by cases hr⟩
  | some replicaId =>
    cases hgroup : isReplicaInGroup p.config replicaId p.group with
    | false =>
      refine .inl ⟨by simp [hgroup], fun r hr hg => ?_⟩
      rw [← some.inj hr, hgroup] at hg
      cases hg
    | true =>
      by_cases hdup : replicaId ∈ q.resultsVerified
      · exact .inl ⟨by simp [hgroup, hdup], fun r hr _ => some.inj hr ▸ hdup⟩
      · exact .inr ⟨replicaId, rfl, hgroup, hdup, by simp [hgroup, hdup]⟩

theorem handleFailQuery_upcall {u : QueryUpcall} (h : (q.handleFailQuery p reqId m).2 = some u) :
    u.success = false := by
  unfold handleFailQuery at h
  split at h
  · cases h
  split at h
  · cases h
  split at h
  · cases h
  simp only at h
  split at h
  · cases h
    rfl
  · cases h

end PendingQuery

def QueryEvent.reqId : QueryEvent → Option Nat
  | .resultReply reply _ => some reply.reqId
  | .failReply reply => some reply.reqId
  | .syncReply reqId _ => some reqId
  | _ => none

namespace PendingQuery

/-- What the handler of a reply makes of the query. -/
def Handled (p : QueryParams) (q : PendingQuery) (x : PendingQuery × Option QueryUpcall) : QueryEvent → Prop
  | .resultReply reply merged => ∃ m, reply.signedResult = some m ∧ q.handleQueryResult p reply.reqId m merged = some x
  | .failReply reply => ∃ m, reply.signedFail = some m ∧ q.handleFailQuery p reply.reqId m = x
  | .syncReply _ merged => (q.checkSyncStart p merged, none) = x
  | _ => False

structure Unanswered (q : PendingQuery) : Prop where
  resultsVerified : q.resultsVerified = []
  resultFreq : q.resultFreq = ∅
  numFails : q.numFails = 0

end PendingQuery

namespace QueryClient

theorem step_cases (hs : step p s e = some s') :
    (e.reqId = none ∧ s'.upcalls = s.upcalls ∧ s.lastReqId ≤ s'.lastReqId ∧ ∀ id q, s'.pendingQueries id = some q →
      s.pendingQueries id = some q ∨ id = s.lastReqId ∧ q.Unanswered) ∨
    ∃ id, e.reqId = some id ∧ (s.active id = none ∧ s' = s ∨
      ∃ q x, s.active id = some q ∧ q.Handled p x e ∧ s' = s.update id x) := by
  have hset {f : Nat → Option PendingQuery} {o : Option PendingQuery} {reqId id : Nat} {q : PendingQuery}
      (hq : Function.update f reqId o id = some q) : f id = some q ∨ id = reqId ∧ o = some q := by
    by_cases hid : id = reqId
    · rw [hid, update_self] at hq
      exact .inr ⟨hid, hq⟩
    · rw [update_of_ne hid] at hq
      exact .inl hq
  cases e with
  | query querySeqNum =>
    cases hs
    refine .inl ⟨rfl, rfl, Nat.le_succ _, fun id q hq => (hset hq).imp_right fun ⟨hid, ho⟩ => ⟨hid, ?_⟩⟩
    cases ho
    exact ⟨rfl, rfl, rfl⟩
  | retryQuery querySeqNum =>
    simp only [step] at hs
    split at hs
    · cases hs
    obtain ⟨q₀, -, rfl⟩ := map_eq_some_iff.mp hs
    refine .inl ⟨rfl, rfl, Nat.le_succ _, fun id q hq => ?_⟩
    rcases hset hq with hq | ⟨hid, ho⟩
    · exact .inl ((hset hq).resolve_right fun ⟨_, ho⟩ => by cases ho)
    · cases ho
      exact .inr ⟨hid, rfl, rfl, rfl⟩
  | clearQuery querySeqNum =>
    simp only [step] at hs
    split at hs
    · cases hs
      exact .inl ⟨rfl, rfl, le_rfl, fun id q hq => .inl hq⟩
    split at hs
    · cases hs
      exact .inl ⟨rfl, rfl, le_rfl, fun id q hq => .inl hq⟩
    · cases hs
      exact .inl ⟨rfl, rfl, le_rfl, fun id q hq => .inl ((hset hq).resolve_right fun ⟨_, ho⟩ => by cases ho)⟩
  | resultReply reply merged =>
    refine .inr ⟨reply.reqId, rfl, ?_⟩
    simp only [step] at hs
    split at hs
    · rename_i hq
      exact .inl ⟨hq, (some.inj hs).symm⟩
    · rename_i q hq
      obtain ⟨m, hm, hhandled⟩ := bind_eq_some_iff.mp hs
      obtain ⟨x, hx, rfl⟩ := map_eq_some_iff.mp hhandled
      exact .inr ⟨q, x, hq, ⟨m, hm, hx⟩, rfl⟩
  | failReply reply =>
    refine .inr ⟨reply.reqId, rfl, ?_⟩
    simp only [step] at hs
    split at hs
    · rename_i hq
      exact .inl ⟨hq, (some.inj hs).symm⟩
    · rename_i q hq
      obtain ⟨m, hm, rfl⟩ := map_eq_some_iff.mp hs
      exact .inr ⟨q, _, hq, ⟨m, hm, rfl⟩, rfl⟩
  | syncReply reqId merged =>
    refine .inr ⟨reqId, rfl, ?_⟩
    simp only [step] at hs
    split at hs
    · rename_i hq
      exact .inl ⟨hq, (some.inj hs).symm⟩
    · rename_i q hq
      cases hs
      exact .inr ⟨q, _, hq, rfl, rfl⟩

theorem pending_step {I : Nat → PendingQuery → Prop} (hs : step p s e = some s')
    (h : ∀ id q, s.pendingQueries id = some q → I id q) (hnew : ∀ id q, q.Unanswered → I id q)
    (hhandle : ∀ id q x, e.reqId = some id → s.active id = some q → I id q → q.Handled p x e → I id x.1) :
    ∀ id q, s'.pendingQueries id = some q → I id q := by
  intro id q hq
  rcases step_cases hs with ⟨-, -, -, hkeep⟩ | ⟨reqId, hid, ⟨-, rfl⟩ | ⟨q₀, x, hq₀, hx, rfl⟩⟩
  · exact (hkeep id q hq).elim (h id q) fun ⟨_, hun⟩ => hnew id q hun
  · exact h id q hq
  · by_cases heq : id = reqId
    · obtain rfl : x.1 = q := by simpa [update, heq] using hq
      exact heq ▸ hhandle reqId q₀ x hid hq₀ (h reqId q₀ (filter_eq_some_iff.mp hq₀).1) hx
    · exact h id q (by simpa [update, update_of_ne heq] using hq)

theorem active_eq_some {reqId : Nat} (h : s.active reqId = some q) :
    s.pendingQueries reqId = some q ∧ q.done = false := by
  obtain ⟨hq, hdone⟩ := filter_eq_some_iff.mp h
  exact ⟨hq, by simpa using hdone⟩

theorem active_update (reqId : Nat) (x : PendingQuery × Option QueryUpcall) (id : Nat) :
    (s.update reqId x).active id = if id = reqId then (some x.1).filter fun q => !q.done else s.active id := by
  show (Function.update s.pendingQueries reqId (some x.1) id).filter (fun q => !q.done) = _
  split
  · rename_i hid
    rw [hid, update_self]
  · rename_i hid
    rw [update_of_ne hid]
    rfl

end QueryClient

/-! ## What is counted -/

def keyOf (p : QueryParams) (m : SignedBytes) : Option (Bytes × Bytes) := (m.openResult p).map (QueryResult.key p)

def receivedResults (es : List QueryEvent) : List SignedBytes :=
  es.filterMap fun
    | .resultReply reply _ => reply.signedResult
    | _ => none

theorem openResult_eq_some (h : m.openResult p = some r) :
    p.verify m.processId m.data m.signature = true ∧ p.parseResult m.data = some r ∧ r.replicaId = m.processId := by
  unfold SignedBytes.openResult at h
  split at h
  · rename_i hv
    obtain ⟨hparse, hid⟩ := filter_eq_some_iff.mp h
    exact ⟨hv, hparse, beq_iff_eq.mp hid⟩
  · cases h

namespace ResultMgr

variable {e : Bool} {mgr : ResultMgr}

theorem noteVersions_freq (c : Bool) (idx : Nat) (preds : List ReadPredicate) (mgr : ResultMgr) :
    (mgr.noteVersions c idx preds).1.freq = mgr.freq := by
  induction preds generalizing idx mgr with
  | nil => rfl
  | cons pred preds ih => exact ih _ _

theorem count_freq : (mgr.count p e r).1.freq = mgr.freq + 1 := by
  unfold count
  simp only
  split
  · rfl
  have hnoted (c : Bool) (m : ResultMgr) (preds : List ReadPredicate) :
      (if e then m.noteVersions c 0 preds else (m, preds)).1.freq = m.freq := by
    split
    · exact noteVersions_freq _ _ _ _
    · rfl
  split <;> exact hnoted _ _ _

theorem count_readSet (hc : p.cacheReadSet = false) :
    (mgr.count p e r).2.map (fun rs => rs.readSet) = some r.sortedReadSet.readSet := by
  unfold count
  simp only [hc, false_eq_true, ↓reduceIte]
  split <;> rfl

end ResultMgr

namespace PendingQuery

variable {P : SignedBytes → Prop} {l : List SignedBytes}

/-- The messages `l` are those counted: of distinct replicas, all with `P`, as many for each result as it says. -/
structure Gathered (p : QueryParams) (P : SignedBytes → Prop) (l : List SignedBytes) (q : PendingQuery) : Prop where
  kept : Tally.Kept SignedBytes.processId P q.resultsVerified l
  freq : ∀ k, (q.mgr k).freq = (l.filter fun m => keyOf p m = some k).length

theorem Gathered.new (hf : q.resultFreq = ∅) : Gathered p P [] q where
  kept := .nil _
  freq k := by
    rw [mgr, hf]
    rfl

theorem Gathered.of_eq (h : Gathered p P l q) (hv : q'.resultsVerified = q.resultsVerified)
    (hf : q'.resultFreq = q.resultFreq) : Gathered p P l q' where
  kept := hv ▸ h.kept
  freq k := by
    rw [mgr, hf]
    exact h.freq k

theorem Gathered.moves (h : Gathered p P l q) (hm : Moves q q') : ∃ l', Gathered p P l' q' := by
  rcases hm.kept with ⟨hv, hf, -⟩ | ⟨-, hf, -⟩
  · exact ⟨l, h.of_eq hv hf⟩
  · exact ⟨[], .new hf⟩

theorem mgr_counted (k : Bytes × Bytes) : (q.counted p r).mgr k =
    if k = r.key p then ((q.mgr (r.key p)).count p q.eagerMode r).1 else q.mgr k := by
  unfold mgr counted
  split
  · rename_i hk
    rw [hk, AList.lookup_insert]
    rfl
  · rename_i hk
    rw [AList.lookup_insert_ne hk]

theorem Gathered.counted (h : Gathered p P l q) (hopen : m.openResult p = some r) (hc : q.counts p r = true)
    (hP : P m) : Gathered p P (l ++ [m]) (q.counted p r) where
  kept := by
    obtain ⟨-, -, hid⟩ := openResult_eq_some hopen
    have hnew : m.processId ∉ q.resultsVerified := by
      rw [counts, Bool.and_eq_true] at hc
      simpa [hid] using hc.2
    show Tally.Kept _ _ (r.replicaId :: q.resultsVerified) _
    rw [hid]
    exact h.kept.cast hP hnew
  freq k := by
    have hkey : keyOf p m = some (r.key p) := by rw [keyOf, hopen, map_some]
    rw [mgr_counted, filter_append, length_append]
    split
    · rename_i hk
      rw [ResultMgr.count_freq, h.freq, hk]
      simp [hkey]
    · rename_i hk
      rw [h.freq]
      simp [hkey, Ne.symm hk]

theorem Gathered.hear (h : Gathered p P l q) {replicaId : Nat}
    (hv : q'.resultsVerified = replicaId :: q.resultsVerified) (hf : q'.resultFreq = q.resultFreq) :
    Gathered p P l q' where
  kept := hv ▸ h.kept.hear replicaId
  freq k := by
    rw [mgr, hf]
    exact h.freq k

theorem Gathered.attained (h : Gathered p P l q) {k : Bytes × Bytes} {n : Nat} (hn : (q.mgr k).freq = n) :
    Tally.Attained SignedBytes.processId (fun m => P m ∧ keyOf p m = some k) n :=
  Tally.attained_filter (f := fun m => keyOf p m = some k) h.kept.nodup
    (fun m hm hk => ⟨h.kept.proper m hm, of_decide_eq_true hk⟩) (hn ▸ (h.freq k).le)

theorem Gathered.mono {P' : SignedBytes → Prop} (h : Gathered p P l q) (hP : ∀ m, P m → P' m) : Gathered p P' l q :=
  ⟨⟨h.kept.nodup, h.kept.heard, fun m hm => hP m (h.kept.proper m hm)⟩, h.freq⟩

end PendingQuery

def Named (p : QueryParams) (received : List SignedBytes) (querySeqNum : Nat) (m : SignedBytes) : Prop :=
  m ∈ received ∧ m.processId / p.config.n = p.group ∧
    ∃ r, m.openResult p = some r ∧ r.clientId = p.clientId ∧ r.querySeqNum = querySeqNum

def QueryEvent.named (p : QueryParams) (s : QueryClient) : QueryEvent → Bool
  | .resultReply reply _ => (s.active reply.reqId).all fun q =>
      (reply.signedResult.bind fun m => m.openResult p).all fun r =>
        !q.counts p r ||
          r.clientId == p.clientId && r.querySeqNum == q.querySeqNum && r.replicaId / p.config.n == p.group
  | _ => true

namespace QueryClient

variable {past : List QueryEvent} {u : QueryUpcall}

def Tallied (p : QueryParams) (past : List QueryEvent) (s : QueryClient) : Prop :=
  ∀ reqId q, s.pendingQueries reqId = some q → ∃ l, q.Gathered p (Named p (receivedResults past) q.querySeqNum) l

theorem mem_receivedResults_snoc (h : m ∈ receivedResults past) : m ∈ receivedResults (past ++ [e]) := by
  rw [receivedResults, filterMap_append]
  exact mem_append_left _ h

theorem Tallied.snoc (h : Tallied p past s) (e : QueryEvent) : Tallied p (past ++ [e]) s := by
  intro reqId q hq
  obtain ⟨l, hl⟩ := h reqId q hq
  exact ⟨l, hl.mono fun m hm => ⟨mem_receivedResults_snoc hm.1, hm.2⟩⟩

theorem named_of_counts {reply : QueryResultReply} {merged : Bool}
    (hn : (QueryEvent.resultReply reply merged).named p s = true)
    (hq : s.active reply.reqId = some q) (hm : reply.signedResult = some m) (hopen : m.openResult p = some r)
    (hc : q.counts p r = true) : Named p (receivedResults (past ++ [.resultReply reply merged])) q.querySeqNum m := by
  rw [QueryEvent.named, hq, all_some, hm, bind_some, hopen, all_some, hc] at hn
  simp only [Bool.not_true, Bool.false_or, Bool.and_eq_true, beq_iff_eq] at hn
  obtain ⟨⟨hclient, hseq⟩, hgroup⟩ := hn
  obtain ⟨-, -, hid⟩ := openResult_eq_some hopen
  refine ⟨?_, hid ▸ hgroup, r, hopen, hclient, hseq⟩
  rw [receivedResults, filterMap_append]
  exact mem_append_right _ (by simp [hm])

theorem Tallied.step (h : Tallied p past s) (hn : e.named p s = true) (hs : step p s e = some s') :
    Tallied p (past ++ [e]) s' := by
  refine pending_step hs (h.snoc e) (fun _ q hnew => ⟨[], .new hnew.resultFreq⟩) fun reqId q x hid hq ⟨l, hl⟩ hx => ?_
  cases e with
  | resultReply reply merged =>
    obtain ⟨q', up⟩ := x
    obtain ⟨m, hm, hhandle⟩ := hx
    cases hid
    rcases handleQueryResult_cases hhandle with ⟨rfl, -, -⟩ | ⟨r, hopen, hc, hcase⟩
    · exact ⟨l, hl⟩
    have hcounted := hl.counted hopen hc (named_of_counts hn hq hm hopen hc)
    rcases hcase with ⟨rfl, -, -⟩ | ⟨hmoves, -⟩
    · exact ⟨l ++ [m], hcounted.of_eq rfl rfl⟩
    · rw [hmoves.querySeqNum]
      exact hcounted.moves hmoves
  | failReply reply =>
    obtain ⟨m, -, rfl⟩ := hx
    rcases handleFailQuery_cases p q reply.reqId m with ⟨he, -⟩ | ⟨replicaId, -, -, -, he⟩
    · rw [he]
      exact ⟨l, hl⟩
    · rw [he]
      exact ⟨l, hl.hear rfl rfl⟩
  | syncReply id merged =>
    cases hx
    have hmoves : Moves q (q.checkSyncStart p merged) := moves_checkSyncStart q
    rw [hmoves.querySeqNum]
    exact hl.moves hmoves
  | _ => exact hx.elim

theorem step_upcall (hs : step p s e = some s') (hup : s'.upcalls = s.upcalls ++ [u]) :
    ∃ reqId q q', e.reqId = some reqId ∧ s.active reqId = some q ∧ q.Handled p (q', some u) e := by
  rcases step_cases hs with ⟨-, hsame, -⟩ | ⟨reqId, hid, ⟨-, rfl⟩ | ⟨q, ⟨q', up⟩, hq, hx, rfl⟩⟩
  · rw [hsame] at hup
    simp at hup
  · simp at hup
  · have hup' : up.toList = [u] := append_cancel_left hup
    exact ⟨reqId, q, q', hid, hq, toList_eq_singleton_iff.mp hup' ▸ hx⟩

theorem step_success (hs : step p s e = some s') (hup : s'.upcalls = s.upcalls ++ [u]) (hok : u.success = true) :
    ∃ reply merged q m q', e = .resultReply reply merged ∧ s.active reply.reqId = some q ∧
      reply.signedResult = some m ∧ q.handleQueryResult p reply.reqId m merged = some (q', some u) := by
  obtain ⟨reqId, q, q', hid, hq, hx⟩ := step_upcall hs hup
  cases e with
  | resultReply reply merged =>
    obtain ⟨m, hm, hhandle⟩ := hx
    cases hid
    exact ⟨reply, merged, q, m, q', rfl, hq, hm, hhandle⟩
  | failReply reply =>
    obtain ⟨m, -, hm⟩ := hx
    rw [handleFailQuery_upcall (congrArg Prod.snd hm)] at hok
    cases hok
  | syncReply id merged => cases hx
  | _ => exact hx.elim

end QueryClient

/-! ## Reported results -/

def ResultReadSet.versions (rs : ResultReadSet) : List (Bytes × Timestamp) :=
  rs.readSet.map fun x => (x.key, x.readtime)

def QueryResult.SameReads (p : QueryParams) (u : QueryUpcall) (r : QueryResult) : Prop :=
  if p.cacheReadSet then r.queryResultHash = u.resultHash
  else u.readSet.map ResultReadSet.versions = some r.sortedReadSet.versions

/-- `resultQuorum` replicas of the group have signed a result for the query that is reported. -/
def QueryUpcall.Backed (p : QueryParams) (received : List SignedBytes) (u : QueryUpcall) : Prop :=
  Tally.Attained SignedBytes.processId (fun m => m ∈ received ∧ m.processId / p.config.n = p.group ∧
    p.verify m.processId m.data m.signature = true ∧ ∃ r, p.parseResult m.data = some r ∧
      r.clientId = p.clientId ∧ r.querySeqNum = u.querySeqNum ∧ r.queryResult = u.result ∧ r.SameReads p u)
    p.resultQuorum

def openedResults (p : QueryParams) (es : List QueryEvent) : List QueryResult :=
  (receivedResults es).filterMap fun m => m.openResult p

theorem mem_openedResults {es : List QueryEvent}
    (hm : m ∈ receivedResults es) (hr : m.openResult p = some r) : r ∈ openedResults p es :=
  mem_filterMap.mpr ⟨m, hm, hr⟩

/-- Where the results counted name their query and come from the group, the hash has no collision among the read sets
received, and the same bytes are the same reads, every reported result rests on a quorum of signed ones. -/
theorem query_result_quorum {p : QueryParams} {es : List QueryEvent} {e : QueryEvent} {s s' : QueryClient}
    {u : QueryUpcall} (hm : Run.Meets (QueryClient.step p) (fun s e => e.named p s = true) .init (es ++ [e]))
    (hhash : p.cacheReadSet = false →
      Set.InjOn p.hash { b | ∃ r ∈ openedResults p (es ++ [e]), r.sortedReadSet.hashed = b })
    (hreads : p.cacheReadSet = false → ∀ r ∈ openedResults p (es ++ [e]), ∀ r' ∈ openedResults p (es ++ [e]),
      r.sortedReadSet.hashed = r'.sortedReadSet.hashed → r.sortedReadSet.versions = r'.sortedReadSet.versions)
    (hrun : Run.exec (QueryClient.step p) .init es = some s) (hs : QueryClient.step p s e = some s')
    (hup : s'.upcalls = s.upcalls ++ [u]) (hok : u.success = true) : u.Backed p (receivedResults (es ++ [e])) := by
  obtain ⟨hbefore, hlast⟩ := hm.append hrun
  have htallied : Tallied p ([] ++ es) s :=
    Run.exec_history_of_meets (fun h hn hs => Tallied.step h hn hs)
      (fun reqId q hq => by cases hq) hbefore hrun
  obtain ⟨reply, merged, q, m, q', rfl, hq, hsigned, hhandle⟩ := step_success hs hup hok
  obtain ⟨l, hl⟩ := (htallied.snoc (.resultReply reply merged)) reply.reqId q (active_eq_some hq).1
  rcases handleQueryResult_cases hhandle with ⟨-, hnone, -⟩ | ⟨r, hopen, hc, hcase⟩
  · cases hnone
  rcases hcase with ⟨-, hfreq, hu⟩ | ⟨-, hfail⟩
  · cases hu
    have hnamed : Named p (receivedResults (es ++ [.resultReply reply merged])) q.querySeqNum m :=
      named_of_counts hlast.1 hq hsigned hopen hc
    have hcounted := hl.counted hopen hc hnamed
    have hquorum := hcounted.attained (k := r.key p) (n := p.resultQuorum) (by
      rw [mgr_counted, if_pos rfl]
      exact hfreq)
    refine hquorum.mono fun m' hm' => ?_
    obtain ⟨⟨hmem, hgroup, r', hopen', hclient, hseq⟩, hkey⟩ := hm'
    obtain ⟨hverify, hparse, -⟩ := openResult_eq_some hopen'
    refine ⟨hmem, hgroup, hverify, r', hparse, hclient, hseq, ?_⟩
    rw [keyOf, hopen', map_some, some.injEq] at hkey
    refine ⟨congrArg Prod.snd hkey, ?_⟩
    -- the keys agree, so the hashes do
    have hfst := congrArg Prod.fst hkey
    unfold QueryResult.SameReads
    cases hcache : p.cacheReadSet with
    | true =>
      simp only [QueryResult.key, hcache, ↓reduceIte] at hfst
      exact hfst
    | false =>
      simp only [QueryResult.key, hcache, false_eq_true, ↓reduceIte] at hfst
      have hr := mem_openedResults hnamed.1 hopen
      have hr' := mem_openedResults hmem hopen'
      have hbytes := hhash hcache ⟨r', hr', rfl⟩ ⟨r, hr, rfl⟩ hfst
      have hhanded : ((q.mgr (r.key p)).count p q.eagerMode r).2.map (fun rs => rs.readSet) =
          some r.sortedReadSet.readSet := ResultMgr.count_readSet hcache
      rw [if_neg Bool.false_ne_true, hreads hcache r' hr' r hr hbytes]
      obtain ⟨rs, hrs, hset⟩ := map_eq_some_iff.mp hhanded
      rw [hrs, map_some, ResultReadSet.versions, hset]
      rfl
  · rw [(hfail u rfl).1] at hok
    cases hok

/-! ## Results of other queries -/

def sampleReads (v : UInt8) : List ReadMessage :=
  if v = 0 then [{ key := [1], readtime := ⟨5, 1⟩ }, { key := [2], readtime := ⟨6, 1⟩ }]
  else [{ key := [1] ++ u64Bytes 1 ++ u64Bytes 5 ++ [2], readtime := ⟨6, 1⟩ }]

/-- The bytes `[n, c, r, v]` are a result of replica `r` for query `n` of client `c`. Two results suffice. -/
def sampleQueries : QueryParams where
  config := sixReplicas.config
  group := 0
  clientId := 9
  resultQuorum := 2
  syncMessages := 3
  queryMessages := 3
  cacheReadSet := false
  eagerExec := true
  eagerPlusSnapshot := false
  simulateFailEagerPlusSnapshot := false
  optimisticTxID := false
  verify id _ sig := sig == [UInt8.ofNat id]
  parseResult
    | [n, c, r, v] => some
      { querySeqNum := n.toNat
        clientId := c.toNat
        replicaId := r.toNat
        queryResult := [42]
        queryReadSet := some ⟨⟨sampleReads v, [], []⟩, []⟩ }
    | _ => none
  parseFail _ := none
  hash b := b

def resultVote (reqId : Nat) (r n v : UInt8) : QueryEvent :=
  .resultReply ⟨reqId, some ⟨[n, 9, r, v], r.toNat, [r]⟩⟩ false

/-- Results for query `1` are reported for query `2`, and reads that replica `5` alone has signed for query `1`. -/
theorem foreign_results :
    (∃ s s' u, Run.exec (QueryClient.step sampleQueries) .init [.query 1, .query 2, resultVote 1 0 1 0] = some s ∧
      QueryClient.step sampleQueries s (resultVote 1 1 1 0) = some s' ∧ s'.upcalls = s.upcalls ++ [u] ∧
      u.success = true ∧ u.querySeqNum = 2 ∧ ¬ u.Backed sampleQueries
        (receivedResults [.query 1, .query 2, resultVote 1 0 1 0, resultVote 1 1 1 0])) ∧
    (∃ s s' u, Run.exec (QueryClient.step sampleQueries) .init [.query 1, resultVote 0 0 1 0] = some s ∧
      QueryClient.step sampleQueries s (resultVote 0 5 1 1) = some s' ∧ s'.upcalls = s.upcalls ++ [u] ∧
      u.success = true ∧
      ¬ u.Backed sampleQueries (receivedResults [.query 1, resultVote 0 0 1 0, resultVote 0 5 1 1])) := by
  constructor
  · refine ⟨_, _, _, rfl, rfl, rfl, rfl, rfl, fun h => ?_⟩
    -- no result that was received names query 2
    have hother : ∀ m ∈ receivedResults [.query 1, .query 2, resultVote 1 0 1 0, resultVote 1 1 1 0],
        ((sampleQueries.parseResult m.data).all fun r => r.querySeqNum != 2) = true := by decide
    have hnone : sampleQueries.resultQuorum ≤ ([] : List Nat).length := h.le_length fun m hm => by
      obtain ⟨hmem, -, -, r, hparse, -, hseq, -⟩ := hm
      have hne := hother m hmem
      rw [hparse, all_some, bne_iff_ne] at hne
      exact absurd hseq hne
    exact absurd hnone (by decide)
  · refine ⟨_, _, _, rfl, rfl, rfl, rfl, fun h => ?_⟩
    -- only replica 5 has signed the reads that are reported
    have honly : ∀ m ∈ receivedResults [.query 1, resultVote 0 0 1 0, resultVote 0 5 1 1],
        ((sampleQueries.parseResult m.data).all fun r =>
          m.processId == 5 || r.sortedReadSet.versions != [([1] ++ u64Bytes 1 ++ u64Bytes 5 ++ [2], ⟨6, 1⟩)]) =
            true := by
      decide +kernel
    have hone : sampleQueries.resultQuorum ≤ [5].length := h.le_length fun m hm => by
      obtain ⟨hmem, -, -, r, hparse, -, -, -, hsame⟩ := hm
      have hcase := honly m hmem
      rw [hparse, all_some, or_eq_true, beq_iff_eq, bne_iff_ne] at hcase
      exact mem_singleton.mpr (hcase.resolve_right fun hne => hne (some.inj hsame).symm)
    exact absurd hone (by decide)

theorem query_result_quorum_two :
    ∃ s s' u, Run.exec (QueryClient.step sampleQueries) .init [.query 1, resultVote 0 0 1 0] = some s ∧
      QueryClient.step sampleQueries s (resultVote 0 1 1 0) = some s' ∧ s'.upcalls = s.upcalls ++ [u] ∧
      u.success = true ∧
      u.Backed sampleQueries (receivedResults [.query 1, resultVote 0 0 1 0, resultVote 0 1 1 0]) := by
  refine ⟨_, _, _, rfl, rfl, rfl, rfl, ?_⟩
  have hreads : ∀ r ∈ openedResults sampleQueries [.query 1, resultVote 0 0 1 0, resultVote 0 1 1 0],
      ∀ r' ∈ openedResults sampleQueries [.query 1, resultVote 0 0 1 0, resultVote 0 1 1 0],
        r.sortedReadSet.versions = r'.sortedReadSet.versions := by decide +kernel
  have hmeets : Run.Meets (step sampleQueries) (fun s e => e.named sampleQueries s = true) .init
      ([.query 1, resultVote 0 0 1 0] ++ [resultVote 0 1 1 0]) := by decide +kernel
  exact query_result_quorum hmeets (fun _ => injective_id.injOn) (fun _ r hr r' hr' _ => hreads r hr r' hr') rfl rfl
    rfl rfl

end Pequin
