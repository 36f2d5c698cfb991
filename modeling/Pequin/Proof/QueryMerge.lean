import Pequin.Model.QueryMerge

/-!
# What a merge of read sets changes

Whether a query is available, missing or refused does not depend on its predicates. So the loop of
`mergeTxReadSets` takes the predicates of the queries up to the first one that is not available.
-/

namespace Pequin

open CachedQuery Function List Option

variable {p : CCParams} {cache : Bytes → Option CachedQuery} {txn txn' : Transaction} {d : Digest}
  {query : QueryResultMetaData} {queries : List QueryResultMetaData} {res : Result} {id : Bytes}

def fetchResult (p : CCParams) (cache : Bytes → Option CachedQuery) (txn : Transaction) (query : QueryResultMetaData) :
    Option Result :=
  (fetchReadSet p cache txn query).map Prod.fst

/-- The predicates of a query do not matter for whether it is available. -/
theorem fetchResult_release (id : Bytes) :
    fetchResult p (update cache id ((cache id).map release)) txn = fetchResult p cache txn := by
  funext query
  by_cases hid : query.queryId = id
  · subst hid
    simp only [fetchResult, fetchReadSet, update_self]
    cases query.groupMeta.lookup p.groupIdx with
    | none => rfl
    | some md =>
      obtain ⟨hash, own⟩ := md
      cases own <;> cases hash <;> cases cache query.queryId with
      | none => rfl
      | some q =>
        obtain ⟨_, _, _, rs, _, _⟩ := q
        cases rs <;> simp only [map_some, map_none, release] <;> repeat' split
        all_goals rfl
  · simp only [fetchResult, fetchReadSet, update_of_ne hid]

theorem usesCache_of_fetchReadSet (h : fetchReadSet p cache txn query = some (.commit, none)) :
    query.usesCache p = false := by
  unfold fetchReadSet at h
  cases hmd : query.groupMeta.lookup p.groupIdx with
  | none => rw [QueryResultMetaData.usesCache, hmd]; rfl
  | some md =>
    simp only [hmd] at h
    repeat' split at h
    all_goals cases h

section

variable (p cache txn queries)

/-- The queries up to the first one that is not available. -/
def available : List QueryResultMetaData :=
  queries.takeWhile fun query => fetchResult p cache txn query = some .commit

/-- Those of which the predicates are moved out of the cache. -/
def moved : List Bytes :=
  ((available p cache txn queries).filter fun query => p.cacheReadSet && query.usesCache p).map (·.queryId)

def NoneCached (queryId : Bytes) : Prop :=
  ∀ q rs, cache queryId = some q → q.queryReadSet = some rs → rs.readPredicates = []

def NoneCarried (query : QueryResultMetaData) : Prop :=
  ∀ md rs, (p.groupIdx, md) ∈ query.groupMeta → md.queryReadSet = some rs → rs.readPredicates = []

end

theorem ReadSet.release_eq_self {rs : ReadSet} : rs.release = rs ↔ rs.readPredicates = [] :=
  ⟨fun h => by rw [← h]; rfl, fun h => by rw [release, ← h]⟩

theorem map_release_eq_self {rs : Option ReadSet} :
    rs.map ReadSet.release = rs ↔ ∀ r, rs = some r → r.readPredicates = [] := by
  cases rs with
  | none => simp
  | some r => simp [ReadSet.release_eq_self]

theorem noneCached_iff : NoneCached cache id ↔ (cache id).map release = cache id := by
  cases h : cache id with
  | none => simp [NoneCached, h]
  | some q =>
    have hq : q.release = q ↔ ∀ rs, q.queryReadSet = some rs → rs.readPredicates = [] := by
      rw [← map_release_eq_self]
      exact ⟨fun h => congrArg queryReadSet h, fun h => by rw [release, h]⟩
    rw [NoneCached, h, map_some, some_inj, hq]
    exact ⟨fun h rs => h q rs rfl, fun h q' rs hq' => by cases hq'; exact h rs⟩

theorem NoneCarried.release (h : NoneCarried p query) : query.release p = query := by
  have hmap : (query.groupMeta.map fun g =>
      if g.1 = p.groupIdx then (g.1, { g.2 with queryReadSet := g.2.queryReadSet.map ReadSet.release }) else g) =
      query.groupMeta := by
    refine (map_congr_left fun g hg => ?_).trans (map_id _)
    split
    · rename_i hidx
      rw [map_release_eq_self.mpr fun rs => h g.2 rs (hidx ▸ hg)]
      rfl
    · rfl
  rw [QueryResultMetaData.release, hmap]

theorem CachedQuery.release_release (q : CachedQuery) : q.release.release = q.release := by
  obtain ⟨_, _, _, rs, _, _⟩ := q
  cases rs <;> rfl

namespace MergeLoop

variable {s s' : MergeLoop} {rs : Option ReadSet}

theorem run_cons (h : run p txn (query :: queries) s = some (res, s')) :
    (∃ rs, fetchReadSet p s.cache txn query = some (.commit, rs) ∧
      run p txn queries (s.merge p query (if s.missingQueries.isEmpty then rs else none)) = some (res, s')) ∨
    (fetchResult p s.cache txn query ≠ some .commit ∧ (run p txn queries (s.wait query) = some (res, s') ∨
        s' = { s with querySet := s.querySet ++ query :: queries })) := by
  rw [run] at h
  cases hfetch : fetchReadSet p s.cache txn query with
  | none => rw [hfetch] at h; cases h
  | some f =>
    obtain ⟨res', rs⟩ := f
    rw [hfetch] at h
    cases res' with
    | commit => exact .inl ⟨rs, rfl, h⟩
    | wait => exact .inr ⟨by simp [fetchResult, hfetch], .inl h⟩
    | abort | abstain | retry | ignore =>
      cases h
      exact .inr ⟨by simp [fetchResult, hfetch], .inr rfl⟩

theorem run_of_missing (h : run p txn queries s = some (res, s')) (hs : s.missingQueries ≠ []) :
    s'.cache = s.cache ∧ s'.querySet = s.querySet ++ queries := by
  induction queries generalizing s with
  | nil =>
    cases h
    exact ⟨rfl, (append_nil _).symm⟩
  | cons query queries ih =>
    obtain ⟨rs, -, h⟩ | ⟨-, h | rfl⟩ := run_cons h
    · rw [if_neg (by simpa using hs)] at h
      obtain ⟨hcache, hquery⟩ := ih h hs
      exact ⟨hcache, hquery.trans (append_assoc _ [query] _)⟩
    · obtain ⟨hcache, hquery⟩ := ih h (append_ne_nil_of_right_ne_nil _ (cons_ne_nil _ _))
      exact ⟨hcache, hquery.trans (append_assoc _ [query] _)⟩
    · exact ⟨rfl, rfl⟩

theorem fetchResult_merge : fetchResult p (s.merge p query rs).cache txn = fetchResult p s.cache txn := by
  rw [merge]
  split
  · exact fetchResult_release _
  · rfl

/-- What the loop leaves in the cache. -/
theorem run_cache (h : run p txn queries s = some (res, s')) (hs : s.missingQueries = []) (id : Bytes) : s'.cache id =
    if id ∈ moved p s.cache txn queries then (s.cache id).map release else s.cache id := by
  induction queries generalizing s with
  | nil =>
    cases h
    rfl
  | cons query queries ih =>
    obtain ⟨rs, hfetch, h⟩ | ⟨hne, h⟩ := run_cons h
    · have hres : fetchResult p s.cache txn query = some .commit := by rw [fetchResult, hfetch]; rfl
      have hrest : moved p (s.merge p query rs).cache txn queries = moved p s.cache txn queries := by
        rw [moved, available, fetchResult_merge, moved, available]
      simp only [hs, isEmpty_nil, if_true] at h
      rw [ih h hs, hrest]
      simp only [moved, available, takeWhile_cons, hres, decide_true, if_true, filter_cons]
      have huses : (rs.isSome && p.cacheReadSet && query.usesCache p) = (p.cacheReadSet && query.usesCache p) := by
        cases rs with
        | none => simp [usesCache_of_fetchReadSet hfetch]
        | some rs => rfl
      rw [merge, huses]
      by_cases huse : (p.cacheReadSet && query.usesCache p) = true
      · simp only [huse, if_true, map_cons, mem_cons]
        by_cases hid : id = query.queryId
        · subst hid
          simp only [update_self, true_or, if_true, Option.map_map]
          split
          · exact congrFun (congrArg Option.map (funext release_release)) _
          · rfl
        · simp only [update_of_ne hid, hid, false_or]
      · simp only [huse]
        rfl
    · simp only [moved, available, takeWhile_cons, hne, decide_false]
      obtain h | rfl := h
      · exact congrFun (run_of_missing h (append_ne_nil_of_right_ne_nil _ (cons_ne_nil _ _))).1 id
      · rfl

theorem run_querySet (h : run p txn queries s = some (res, s'))
    (hquery : ∀ query ∈ available p s.cache txn queries, NoneCarried p query) :
    s'.querySet = s.querySet ++ queries := by
  by_cases hs : s.missingQueries = []
  · induction queries generalizing s with
    | nil =>
      cases h
      exact (append_nil _).symm
    | cons query queries ih =>
      obtain ⟨rs, hfetch, h⟩ | ⟨-, h | rfl⟩ := run_cons h
      · have hres : fetchResult p s.cache txn query = some .commit := by rw [fetchResult, hfetch]; rfl
        rw [available, takeWhile_cons, if_pos (by simp [hres])] at hquery
        rw [ih h (fun query' hmem => hquery query' (mem_cons_of_mem _ ?_)) hs]
        · simp only [merge, (hquery query mem_cons_self).release, ite_self, append_assoc, singleton_append]
        · rwa [available, fetchResult_merge] at hmem
      · rw [(run_of_missing h (append_ne_nil_of_right_ne_nil _ (cons_ne_nil _ _))).2]
        exact append_assoc _ [query] _
      · rfl
  · exact (run_of_missing h hs).2

end MergeLoop

namespace MergeState

variable {st st' : MergeState} {call : MergeCall}

theorem mergeTxReadSets_cases (h : st.mergeTxReadSets p d txn call = some (res, st', txn')) (hres : res ≠ .commit) :
    ((st.txnMissingQueries d).isSome ∧ st'.queryMetaData = st.queryMetaData ∧ txn' = txn) ∨
    (st.txnMissingQueries d = none ∧ ∃ res' s,
      MergeLoop.run p txn txn.querySet { cache := st.queryMetaData } = some (res', s) ∧
      st'.queryMetaData = s.cache ∧ txn' = { txn with querySet := s.querySet }) := by
  unfold mergeTxReadSets at h
  split at h
  · cases h
    exact absurd rfl hres
  cases hwait : st.txnMissingQueries d with
  | some waiting =>
    rw [hwait] at h
    cases h
    exact .inl ⟨rfl, rfl, rfl⟩
  | none =>
    rw [hwait] at h
    obtain ⟨⟨res', s⟩, hrun, h⟩ := map_eq_some_iff.mp h
    refine .inr ⟨rfl, res', s, hrun, ?_⟩
    simp only at h
    split_ifs at h <;> cases h
    all_goals first | exact ⟨rfl, rfl⟩ | exact absurd rfl hres

def merged (p : CCParams) (st : MergeState) (d : Digest) (txn : Transaction) (call : MergeCall) :
    Option (Result × Transaction) :=
  (st.mergeTxReadSets p d txn call).map fun r => (r.1, r.2.2)

def deliver (st : MergeState) (results : List (Bytes × CachedQuery)) : MergeState :=
  results.foldl (fun st r => (st.cacheResult r.1 r.2).1) st

theorem queryMetaData_cacheResult (id : Bytes) (q : CachedQuery) :
    (st.cacheResult id q).1.queryMetaData = update st.queryMetaData id (some q) := by
  unfold cacheResult wakeSubscribedTx
  dsimp only
  repeat' split
  all_goals rfl

theorem queryMetaData_deliver (results : List (Bytes × CachedQuery)) (h : st'.queryMetaData = st.queryMetaData) :
    (st'.deliver results).queryMetaData = (st.deliver results).queryMetaData := by
  induction results generalizing st st' with
  | nil => exact h
  | cons r results ih => exact ih (by rw [queryMetaData_cacheResult, queryMetaData_cacheResult, h])

theorem merged_congr (hcache : st'.queryMetaData = st.queryMetaData) (hwait : st.txnMissingQueries d = none)
    (hwait' : st'.txnMissingQueries d = none) : merged p st' d txn call = merged p st d txn call := by
  unfold merged mergeTxReadSets
  rw [hwait, hwait', hcache]
  split
  · rfl
  simp only [Option.map_map]
  congr 1
  funext r
  simp only [Function.comp_apply]
  split_ifs <;> rfl

/-- A call that fails leaves the cached read sets alone exactly if the transaction waits already, or those before the
first query that is missing have no predicates. If the transaction has none for these either, a later call merges what
it would alone. -/
theorem mergeTxReadSets_cache_iff (h : st.mergeTxReadSets p d txn call = some (res, st', txn')) (hres : res ≠ .commit) :
    (st'.queryMetaData = st.queryMetaData ↔ (st.txnMissingQueries d).isSome ∨
        ∀ id ∈ moved p st.queryMetaData txn txn.querySet, NoneCached st.queryMetaData id) ∧
    (st'.queryMetaData = st.queryMetaData →
      (∀ query ∈ available p st.queryMetaData txn txn.querySet, NoneCarried p query) →
      ∀ results call', (st'.deliver results).txnMissingQueries d = none →
        (st.deliver results).txnMissingQueries d = none →
        merged p (st'.deliver results) d txn' call' = merged p (st.deliver results) d txn call') := by
  obtain ⟨hwait, hcache, rfl⟩ | ⟨hwait, res', s, hrun, hcache, rfl⟩ := mergeTxReadSets_cases h hres
  · refine ⟨iff_of_true hcache (.inl hwait), fun hcache _ results call' hwait₁ hwait₂ => ?_⟩
    exact merged_congr (queryMetaData_deliver results hcache) hwait₂ hwait₁
  have hloop := MergeLoop.run_cache hrun rfl
  constructor
  · rw [hcache, hwait, funext_iff]
    simp only [hloop, isSome_none, Bool.false_eq_true, false_or]
    refine forall_congr' fun id => ?_
    split
    · rename_i hmem
      rw [← noneCached_iff]
      exact ⟨fun h _ => h, fun h => h hmem⟩
    · rename_i hmem
      exact iff_of_true rfl fun h => absurd h hmem
  · intro hcache hquery results call' hwait₁ hwait₂
    have hset : s.querySet = txn.querySet := MergeLoop.run_querySet hrun hquery
    rw [hset]
    exact merged_congr (queryMetaData_deliver results hcache) hwait₂ hwait₁

def cachingParams : CCParams := ⟨0, fun _ => true, true, false⟩

def twoQueries : Transaction :=
  { clientId := 1, clientSeqNum := 1, involvedGroups := [0], readSet := [], writeSet := [], timestamp := .genesis,
    querySet := [⟨[1], 0, [(0, ⟨some [], none⟩)]⟩, ⟨[2], 0, [(0, ⟨some [], none⟩)]⟩] }

def cachedQuery (preds : List ReadPredicate) : CachedQuery := ⟨1, 0, true, some ⟨[], [], preds⟩, some [], false⟩

/-- The state in which the first of the two queries is available. -/
def firstCached (preds : List ReadPredicate) : MergeState :=
  { queryMetaData := fun id => if id = [1] then some (cachedQuery preds) else none }

theorem mergeTxReadSets_cache_of_no_predicates : ∃ st' txn',
    (firstCached []).mergeTxReadSets cachingParams [] twoQueries (.prepare 0 false) = some (.wait, st', txn') ∧
    st'.queryMetaData = (firstCached []).queryMetaData := by
  have h : (firstCached []).mergeTxReadSets cachingParams [] twoQueries (.prepare 0 false) = some (.wait, _, _) := rfl
  refine ⟨_, _, h, (mergeTxReadSets_cache_iff h nofun).1.mpr (.inr ?_)⟩
  intro id hid q rs hq hrs
  rw [show id = [1] by simpa using (show id ∈ [[1]] from hid)] at hq
  cases hq
  cases hrs
  rfl

/-- The call waits for the second query, and the predicates of the first are not in what a later call merges. -/
theorem wait_loses_predicates : ∃ preds : List ReadPredicate, ∃ st' txn' m m',
    (firstCached preds).mergeTxReadSets cachingParams [] twoQueries (.prepare 0 false) = some (.wait, st', txn') ∧
    (st'.queryMetaData [1]).bind (·.queryReadSet) ≠ ((firstCached preds).queryMetaData [1]).bind (·.queryReadSet) ∧
    merged cachingParams (st'.deliver [([2], cachedQuery preds)]) [] txn' (.prepare 0 false) = some (.commit, m') ∧
    merged cachingParams ((firstCached preds).deliver [([2], cachedQuery preds)]) [] twoQueries (.prepare 0 false) =
      some (.commit, m) ∧
    (m'.mergedReadSet.map (·.readPredicates.length), m.mergedReadSet.map (·.readPredicates.length)) =
      (some 2, some 4) := by
  refine ⟨[⟨[1], .genesis, [[1]]⟩, ⟨[2], .genesis, [[2]]⟩], _, _, _, _, rfl, by decide, rfl, rfl, by decide⟩

end MergeState

end Pequin
