import Pequin.Proof.QueryResults

/-!
# Dependencies of query results

With the read set of a result the client gets the transactions that enough replies depend on. Votes are counted for
every entry of the list in a reply, so a reply which lists a transaction twice has two votes.
-/

namespace Pequin

open Dependency List QueryResult

variable {p : QueryParams} {r : QueryResult} {d : Digest} {l : List QueryResult}

def QueryResult.depDigests (r : QueryResult) : List Digest := r.sortedReadSet.deps.map Dependency.preparedTxnDigest

def depEntries (l : List QueryResult) (d : Digest) : Nat := (l.map fun r => r.depDigests.count d).sum

def reporters (l : List QueryResult) (d : Digest) : Finset Nat :=
  ((l.filter fun r => d ∈ r.depDigests).map QueryResult.replicaId).toFinset

theorem card_reporters_le (l : List QueryResult) (d : Digest) : (reporters l d).card ≤ depEntries l d := by
  refine (toFinset_card_le _).trans ?_
  rw [length_map, depEntries]
  induction l with
  | nil => exact le_rfl
  | cons r l ih =>
    rw [map_cons, sum_cons, filter_cons]
    split
    · rename_i hd
      have hone : 0 < r.depDigests.count d := count_pos_iff.mpr (of_decide_eq_true hd)
      rw [length_cons]
      omega
    · omega

theorem exists_correct_not_reporting (hnd : (l.map replicaId).Nodup) {byzantine : Finset Nat}
    (hlt : (reporters l d).card + byzantine.card < l.length) : ∃ r ∈ l, r.replicaId ∉ byzantine ∧ d ∉ r.depDigests := by
  have hcard : (reporters l d ∪ byzantine).card < (l.map replicaId).toFinset.card := by
    rw [toFinset_card_of_nodup hnd, length_map]
    exact (Finset.card_union_le _ _).trans_lt hlt
  obtain ⟨id, hid, hnot⟩ := Finset.exists_mem_notMem_of_card_lt_card hcard
  obtain ⟨r, hr, rfl⟩ := mem_map.mp (mem_toFinset.mp hid)
  rw [Finset.mem_union, not_or] at hnot
  refine ⟨r, hr, hnot.2, fun hd => hnot.1 (mem_toFinset.mpr (mem_map_of_mem ?_))⟩
  exact mem_filter.mpr ⟨hr, decide_eq_true hd⟩

namespace ResultMgr

variable {e : Bool} {mgr : ResultMgr}

def votes (mgr : ResultMgr) (d : Digest) : Nat := (mgr.depCandidates.lookup d).getD 0

theorem noteVersions_votes (c : Bool) (idx : Nat) (preds : List ReadPredicate) (mgr : ResultMgr) :
    (mgr.noteVersions c idx preds).1.depCandidates = mgr.depCandidates := by
  induction preds generalizing idx mgr with
  | nil => rfl
  | cons pred preds ih => exact ih _ _

theorem noteDeps_votes (deps : List Dependency) (mgr : ResultMgr) (d : Digest) :
    (mgr.noteDeps deps).votes d = mgr.votes d + (deps.map preparedTxnDigest).count d := by
  induction deps generalizing mgr with
  | nil => rfl
  | cons dep deps ih =>
    refine (ih { mgr with
      depCandidates := mgr.depCandidates.insert dep.preparedTxnDigest
        ((mgr.depCandidates.lookup dep.preparedTxnDigest).getD 0 + 1) }).trans ?_
    rw [map_cons, count_cons, votes, votes]
    by_cases h : dep.preparedTxnDigest = d
    · rw [h, AList.lookup_insert, Option.getD_some, if_pos (beq_self_eq_true d)]
      omega
    · rw [AList.lookup_insert_ne (Ne.symm h), if_neg (by simpa using h)]
      omega

theorem mem_selectDeps : d ∈ (mgr.selectDeps p).map preparedTxnDigest ↔ 2 * p.config.f + 1 ≤ mgr.votes d := by
  simp only [selectDeps, map_map, mem_map, mem_filter, mem_insertionSort, decide_eq_true_eq, votes]
  constructor
  · rintro ⟨⟨d', n⟩, ⟨hmem, hn⟩, rfl⟩
    rw [Function.comp_apply, AList.mem_lookup_iff.mpr hmem]
    exact hn
  intro hn
  cases hl : mgr.depCandidates.lookup d with
  | none =>
    rw [hl, Option.getD_none] at hn
    omega
  | some n =>
    rw [hl] at hn
    exact ⟨⟨d, n⟩, ⟨AList.mem_lookup_iff.mp hl, hn⟩, rfl⟩

section Count

variable (hc : p.cacheReadSet = false)
include hc

theorem count_votes (hq : mgr.freq + 1 ≠ p.resultQuorum) (d : Digest) :
    (mgr.count p e r).1.votes d = mgr.votes d + r.depDigests.count d := by
  have hnot : (mgr.freq + 1 == p.resultQuorum) = false := by simpa using hq
  cases e with
  | true =>
    simp only [count, hc, hnot, Bool.false_eq_true, if_false, if_true]
    rw [noteDeps_votes, votes, noteVersions_votes, depDigests, votes]
  | false =>
    simp only [count, hc, hnot, Bool.false_eq_true, if_false]
    rw [noteDeps_votes, depDigests, votes, votes]

theorem count_deps (hq : mgr.freq + 1 = p.resultQuorum) : ∃ rs, (mgr.count p e r).2 = some rs ∧
    ∀ d, d ∈ rs.deps.map preparedTxnDigest ↔ 2 * p.config.f + 1 ≤ mgr.votes d + r.depDigests.count d := by
  have hyes : (mgr.freq + 1 == p.resultQuorum) = true := by simpa using hq
  cases e with
  | true =>
    simp only [count, hc, hyes, Bool.false_eq_true, if_false, if_true]
    refine ⟨_, rfl, fun d => mem_selectDeps.trans ?_⟩
    rw [noteDeps_votes, votes, noteVersions_votes, depDigests, votes]
  | false =>
    simp only [count, hc, hyes, Bool.false_eq_true, if_false, if_true]
    refine ⟨_, rfl, fun d => mem_selectDeps.trans ?_⟩
    rw [noteDeps_votes, depDigests, votes, votes]

end Count

end ResultMgr

namespace PendingQuery

structure Reply where
  message : SignedBytes
  merged : Bool
  result : QueryResult

/-- The reply is authentic and has the hash and the result `k`. -/
def Reply.Matches (p : QueryParams) (k : Bytes × Bytes) (x : Reply) : Prop :=
  x.message.openResult p = some x.result ∧ x.result.key p = k

def afterResults (p : QueryParams) (reqId : Nat) (q : PendingQuery) (xs : List Reply) : Option PendingQuery :=
  xs.foldlM (fun q x => (q.handleQueryResult p reqId x.message x.merged).map Prod.fst) q

variable {k : Bytes × Bytes} {q q' q₁ : PendingQuery} {reqId : Nat} {up : Option QueryUpcall} {x : Reply}
  {xs : List Reply}

def Tallies (k : Bytes × Bytes) (l : List QueryResult) (q : PendingQuery) : Prop :=
  (q.mgr k).freq ≤ l.length ∧ ((q.mgr k).freq = l.length → ∀ d, (q.mgr k).votes d = depEntries l d)

theorem Tallies.step (hc : p.cacheReadSet = false) (h : Tallies k l q) (hlt : l.length + 1 < p.resultQuorum)
    (hx : x.Matches p k) (hr : q.handleQueryResult p reqId x.message x.merged = some (q', up)) :
    Tallies k (l ++ [x.result]) q' := by
  obtain ⟨hopen, hk⟩ := hx
  have hlen : (l ++ [x.result]).length = l.length + 1 := by rw [length_append, length_singleton]
  rcases handleQueryResult_cases hr with ⟨rfl, -⟩ | ⟨r', hopen', -, hcase⟩
  · exact ⟨h.1.trans (by omega), fun he => absurd h.1 (by omega)⟩
  obtain rfl : x.result = r' := Option.some.inj (hopen.symm.trans hopen')
  have hmgr : (q.counted p x.result).mgr k = ((q.mgr k).count p q.eagerMode x.result).1 := by
    rw [mgr_counted, if_pos hk.symm, hk]
  rcases hcase with ⟨-, hfreq, -⟩ | ⟨hmoves, -⟩
  · rw [hk, ResultMgr.count_freq] at hfreq
    exact absurd h.1 (by omega)
  rcases hmoves.kept with ⟨-, hf, -⟩ | ⟨-, hf, -⟩
  · have hsame : q'.mgr k = ((q.mgr k).count p q.eagerMode x.result).1 := by rw [mgr, hf]; exact hmgr
    rw [Tallies, hsame, ResultMgr.count_freq, hlen]
    refine ⟨Nat.succ_le_succ h.1, fun he d => ?_⟩
    rw [ResultMgr.count_votes hc (by omega), h.2 (Nat.succ.inj he), depEntries, depEntries, map_append, sum_append]
    rfl
  · have hnew : q'.mgr k = {} := by rw [mgr, hf]; rfl
    rw [Tallies, hnew, hlen]
    exact ⟨Nat.zero_le _, fun hn => absurd hn (Nat.succ_ne_zero _).symm⟩

open Reply

theorem Tallies.run (hc : p.cacheReadSet = false) (h : Tallies k l q) (hlt : l.length + xs.length < p.resultQuorum)
    (hall : ∀ x ∈ xs, x.Matches p k) (hr : afterResults p reqId q xs = some q') :
    Tallies k (l ++ xs.map result) q' := by
  induction xs generalizing q l with
  | nil =>
    cases hr
    rwa [map_nil, append_nil]
  | cons x xs ih =>
    rw [length_cons] at hlt
    obtain ⟨q₁, hq₁, hrest⟩ := Option.bind_eq_some_iff.mp hr
    obtain ⟨⟨q₂, up⟩, hstep, rfl⟩ := Option.map_eq_some_iff.mp hq₁
    have h' := ih (h.step hc (by omega) (hall x mem_cons_self) hstep) (by rw [length_append, length_singleton]; omega)
      (fun y hy => hall y (mem_cons_of_mem _ hy)) hrest
    rwa [map_cons, ← singleton_append, ← append_assoc]

section Quorum

variable (hc : p.cacheReadSet = false) (hq : q.resultFreq = ∅) (hall : ∀ y ∈ xs ++ [x], y.Matches p k)
  (hlen : xs.length + 1 = p.resultQuorum) (hrun : afterResults p reqId q xs = some q₁) {u : QueryUpcall}
  (hlast : q₁.handleQueryResult p reqId x.message x.merged = some (q', some u)) (hok : u.success = true)
include hc hq hall hlen hrun hlast hok

/-- The dependencies of the result are those with `2f + 1` entries in the replies of the quorum. -/
theorem deps_by_entries : ∃ rs, u.readSet = some rs ∧ ∀ d, d ∈ rs.deps.map preparedTxnDigest ↔
    2 * p.config.f + 1 ≤ depEntries ((xs ++ [x]).map result) d := by
  have hnew : Tallies k [] q := by
    rw [Tallies, mgr, hq]
    exact ⟨le_rfl, fun _ _ => rfl⟩
  obtain ⟨hopen, hk⟩ := hall x (mem_append_right _ (mem_singleton_self _))
  have hbefore := hnew.run hc (by rw [length_nil]; omega) (fun y hy => hall y (mem_append_left _ hy)) hrun
  rw [nil_append, Tallies, length_map] at hbefore
  rcases handleQueryResult_cases hlast with ⟨-, hup, -⟩ | ⟨r, hopen', -, ⟨-, hfreq, hup⟩ | ⟨-, hfail⟩⟩
  · cases hup
  · obtain rfl : x.result = r := Option.some.inj (hopen.symm.trans hopen')
    rw [hk] at hfreq hup
    rw [ResultMgr.count_freq] at hfreq
    obtain ⟨rs, hrs, hdeps⟩ := ResultMgr.count_deps (e := q₁.eagerMode) (r := x.result) hc hfreq
    rw [hrs, Option.some.injEq] at hup
    refine ⟨rs, hup ▸ rfl, fun d => (hdeps d).trans ?_⟩
    rw [hbefore.2 (by omega), depEntries, depEntries, map_append, map_append, sum_append]
    rfl
  · rw [(hfail u rfl).1] at hok
    cases hok

/-- A transaction is listed exactly if `2f + 1` replicas report it, exactly if none has `2f + 1` entries of fewer. With
`3f + 1` replies, some correct replica did not report what is omitted. -/
theorem deps_reported_iff (hnd : ((xs ++ [x]).map fun y => y.result.replicaId).Nodup) : ∃ rs, u.readSet = some rs ∧
    ((∀ d, d ∈ rs.deps.map Dependency.preparedTxnDigest ↔
        2 * p.config.f + 1 ≤ (reporters ((xs ++ [x]).map result) d).card) ↔
      ∀ d, 2 * p.config.f + 1 ≤ depEntries ((xs ++ [x]).map result) d →
        2 * p.config.f + 1 ≤ (reporters ((xs ++ [x]).map result) d).card) ∧
    (p.resultQuorum = 3 * p.config.f + 1 → ∀ byzantine : Finset Nat, byzantine.card ≤ p.config.f →
      ∀ d, d ∉ rs.deps.map Dependency.preparedTxnDigest →
        ∃ y ∈ xs ++ [x], y.result.replicaId ∉ byzantine ∧ d ∉ y.result.depDigests) := by
  obtain ⟨rs, hrs, hdeps⟩ := deps_by_entries hc hq hall hlen hrun hlast hok
  refine ⟨rs, hrs, ⟨fun h d he => (h d).mp ((hdeps d).mpr he),
    fun h d => ⟨fun hd => h d ((hdeps d).mp hd), fun hd => ?_⟩⟩,
    fun hquorum byzantine hbyz d hd => ?_⟩
  · exact (hdeps d).mpr (hd.trans (card_reporters_le _ d))
  have hfew := mt (hdeps d).mpr hd
  have hle := card_reporters_le ((xs ++ [x]).map result) d
  have hnd' : (((xs ++ [x]).map result).map replicaId).Nodup := by rwa [map_map]
  have hlt : (reporters ((xs ++ [x]).map result) d).card + byzantine.card <
      ((xs ++ [x]).map result).length := by
    rw [length_map, length_append, length_singleton]
    omega
  obtain ⟨r, hr, hcorrect, hnot⟩ := exists_correct_not_reporting hnd' hlt
  obtain ⟨y, hy, rfl⟩ := mem_map.mp hr
  exact ⟨y, hy, hcorrect, hnot⟩

end Quorum

def listed (r c : UInt8) : QueryResult where
  querySeqNum := 1
  clientId := 9
  replicaId := r.toNat
  queryResult := [42]
  queryReadSet := some ⟨⟨[], replicate c.toNat ⟨[7], .genesis, 0⟩, []⟩, []⟩

def listingQueries : QueryParams :=
  { sampleQueries with
    resultQuorum := 4
    syncMessages := 4
    parseResult := fun
      | [r, c] => some (listed r c)
      | _ => none }

def listing (r c : UInt8) : Reply := ⟨⟨[r, c], r.toNat, [r]⟩, false, listed r c⟩

def freshListing : PendingQuery :=
  request listingQueries { querySeqNum := 1, eagerMode := false, snapshotMode := true, numDesignatedReplies := 0 }

/-- Replica `3` alone reports the transaction, with three entries. It becomes a dependency. -/
theorem repeated_entries_listed :
    ∃ q₁ q' u rs, afterResults listingQueries 0 freshListing [listing 0 0, listing 1 0, listing 2 0] = some q₁ ∧
      q₁.handleQueryResult listingQueries 0 (listing 3 3).message false = some (q', some u) ∧ u.success = true ∧
      u.readSet = some rs ∧ [7] ∈ rs.deps.map Dependency.preparedTxnDigest ∧
      reporters ([listing 0 0, listing 1 0, listing 2 0, listing 3 3].map result) [7] = {3} :=
  ⟨_, _, _, _, rfl, rfl, rfl, rfl, by decide +kernel, by decide +kernel⟩

theorem deps_reported_iff_three :
    ∃ q₁ q' u, afterResults listingQueries 0 freshListing [listing 0 1, listing 1 1, listing 2 1] = some q₁ ∧
      q₁.handleQueryResult listingQueries 0 (listing 3 0).message false = some (q', some u) ∧ u.success = true ∧
      ∃ rs, u.readSet = some rs ∧ [7] ∈ rs.deps.map Dependency.preparedTxnDigest := by
  have hmatch : ∀ y ∈ [listing 0 1, listing 1 1, listing 2 1] ++ [listing 3 0],
      y.Matches listingQueries ([], [42]) := by
    simp only [Matches]
    decide +kernel
  obtain ⟨q₁, hq₁⟩ : ∃ q₁, afterResults listingQueries 0 freshListing [listing 0 1, listing 1 1, listing 2 1] =
      some q₁ :=
    ⟨_, rfl⟩
  obtain ⟨q', u, hlast, hok⟩ : ∃ q' u, q₁.handleQueryResult listingQueries 0 (listing 3 0).message false =
      some (q', some u) ∧ u.success = true := by
    cases hq₁
    exact ⟨_, _, rfl, rfl⟩
  obtain ⟨rs, hrs, hiff, -⟩ := deps_reported_iff rfl rfl hmatch rfl hq₁ hlast hok (by decide)
  refine ⟨q₁, q', u, hq₁, hlast, hok, rs, hrs, (hiff.mpr (fun d hd => ?_) [7]).mpr (by decide +kernel)⟩
  by_cases h7 : d = [7]
  · subst h7
    decide +kernel
  · exact absurd hd (by simp [depEntries, listing, listed, depDigests, sortedReadSet, Ne.symm h7])

end PendingQuery

end Pequin
