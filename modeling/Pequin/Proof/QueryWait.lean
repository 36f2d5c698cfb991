import Pequin.Proof.QueryMerge

/-!
# Waiting for the results of queries

A transaction that misses results of queries should be resumed when the last of them is there, and as a commit with its
proof if it was committed meanwhile (`due`). What a replica does instead: it forgets the transaction at the first result
that the transaction waits for, forgets who waits for a query at the first result of any version, and at a commit it
discards what is kept for the transaction.
-/

namespace Pequin

open Function List

inductive WaitEvent where
  | result (queryId : Bytes) (q : CachedQuery)
  | commit (txn : Transaction) (proof : CommittedProof)

def WaitEvent.concerns (queryId : Bytes) : WaitEvent → Bool
  | .result id _ => id == queryId
  | .commit _ _ => true

/-- How the transaction should be resumed at each event. -/
def due : List (Bytes × Nat) → MergeCall → List WaitEvent → List (Option MergeCall)
  | _, _, [] => []
  | missing, call, .result id q :: es =>
    let rest := missing.filter (· ≠ (id, q.retryVersion))
    (if missing ≠ [] ∧ rest = [] then some call else none) :: due rest call es
  | missing, _, .commit _ proof :: es => none :: due missing (.commit proof) es

theorem due_eq_none_iff {missing : List (Bytes × Nat)} {call : MergeCall} {es : List WaitEvent} :
    due missing call es = es.map (fun _ => none) ↔
      missing = [] ∨ ∃ m ∈ missing, ∀ q, .result m.1 q ∈ es → q.retryVersion ≠ m.2 := by
  induction es generalizing missing call with
  | nil => cases missing <;> simp [due]
  | cons e es ih =>
    cases e with
    | commit txn proof =>
      rw [due, map_cons, cons_inj_right, ih]
      simp
    | result id q =>
      rw [due, map_cons, List.cons.injEq, ih]
      constructor
      · rintro ⟨hhead, hrest⟩
        by_cases hmissing : missing = []
        · exact .inl hmissing
        obtain ⟨m, hm, hq⟩ := hrest.resolve_left fun hnil => nomatch (if_pos ⟨hmissing, hnil⟩).symm.trans hhead
        obtain ⟨hm, hne⟩ := mem_filter.mp hm
        refine .inr ⟨m, hm, fun q' hq' heq => ?_⟩
        rcases mem_cons.mp hq' with hq' | hq'
        · cases hq'
          exact of_decide_eq_true hne (Prod.ext rfl heq.symm)
        · exact hq q' hq' heq
      · rintro (rfl | ⟨m, hm, hq⟩)
        · exact ⟨rfl, .inl rfl⟩
        have hm' : m ∈ missing.filter (· ≠ (id, q.retryVersion)) := by
          refine mem_filter.mpr ⟨hm, decide_eq_true fun heq => ?_⟩
          subst heq
          exact hq q mem_cons_self rfl
        refine ⟨if_neg fun h => ?_, .inr ⟨m, hm', fun q' hq' => hq q' (mem_cons_of_mem _ hq')⟩⟩
        exact not_mem_nil (h.2 ▸ hm')

namespace MergeState

def handle (p : CCParams) (d : Digest) (st : MergeState) : WaitEvent → MergeState × Option MergeCall
  | .result id q => ((st.cacheResult id q).1, ((st.cacheResult id q).2.filter (·.1 = d)).map Prod.snd)
  | .commit txn proof => (st.commit p d txn proof, none)

def resumed (p : CCParams) (d : Digest) : MergeState → List WaitEvent → List (Option MergeCall)
  | _, [] => []
  | st, e :: es => (st.handle p d e).2 :: resumed p d (st.handle p d e).1 es

variable {p : CCParams} {d : Digest} {st : MergeState} {id : Bytes} {q : CachedQuery} {waiting : WaitingOnQueriesMeta}
  {call : MergeCall} {es : List WaitEvent}

theorem txnMissingQueries_commit (txn : Transaction) (proof : CommittedProof) :
    (st.commit p d txn proof).txnMissingQueries d = none :=
  update_self ..

theorem subscribedQuery_cacheResult : (st.cacheResult id q).1.subscribedQuery = update st.subscribedQuery id none := by
  simp only [cacheResult, wakeSubscribedTx]
  split
  · rename_i hsub
    exact (update_eq_self_iff.mpr hsub.symm).symm
  · split
    · rfl
    · split <;> rfl

/-- The result is that of a query that the transaction waits for, and has subscribed to. -/
def Wakes (st : MergeState) (d : Digest) (id : Bytes) (version : Nat) (waiting : WaitingOnQueriesMeta) : Prop :=
  st.subscribedQuery id = some d ∧ st.txnMissingQueries d = some waiting ∧
    waiting.missingQueryIdVersions.lookup id = some version

theorem handle_of_wakes (h : st.Wakes d id q.retryVersion waiting) :
    (st.handle p d (.result id q)).1.txnMissingQueries d = none ∧ (st.handle p d (.result id q)).2 =
      if (waiting.missingQueryIdVersions.filter (·.1 ≠ id)).isEmpty then some waiting.call else none := by
  obtain ⟨hsub, hmissing, hlookup⟩ := h
  simp only [handle, cacheResult, wakeSubscribedTx, hsub, hmissing, hlookup, ne_eq, not_true_eq_false, if_false]
  refine ⟨update_self .., ?_⟩
  split_ifs <;> simp

theorem handle_of_not_wakes (h : ∀ waiting, ¬ st.Wakes d id q.retryVersion waiting) :
    (st.handle p d (.result id q)).1.txnMissingQueries d = st.txnMissingQueries d ∧
    (st.handle p d (.result id q)).2 = none := by
  simp only [handle, cacheResult, wakeSubscribedTx]
  split
  · exact ⟨rfl, rfl⟩
  rename_i d' hsub
  split
  · exact ⟨rfl, rfl⟩
  rename_i waiting hmissing
  split_ifs with hlookup
  · exact ⟨rfl, rfl⟩
  all_goals
    have hne : d ≠ d' := by
      rintro rfl
      exact h waiting ⟨hsub, hmissing, not_not.mp hlookup⟩
    refine ⟨update_of_ne hne .., ?_⟩
    simp [hne.symm]

/-- No result resumes the transaction. -/
def Lost (st : MergeState) (d : Digest) : Prop :=
  ∀ id version waiting, st.Wakes d id version waiting →
    (waiting.missingQueryIdVersions.filter (·.1 ≠ id)).isEmpty = false

theorem Lost.of_none (h : st.txnMissingQueries d = none) : st.Lost d := by
  rintro id version waiting ⟨-, hmissing, -⟩
  cases h.symm.trans hmissing

theorem Lost.handle (h : st.Lost d) (e : WaitEvent) : (st.handle p d e).1.Lost d ∧ (st.handle p d e).2 = none := by
  cases e with
  | commit txn proof => exact ⟨.of_none (txnMissingQueries_commit txn proof), rfl⟩
  | result id q =>
    by_cases hw : ∃ waiting, st.Wakes d id q.retryVersion waiting
    · obtain ⟨waiting, hw⟩ := hw
      obtain ⟨hnone, hout⟩ := handle_of_wakes (p := p) hw
      exact ⟨.of_none hnone, by rw [hout, h _ _ _ hw]; rfl⟩
    obtain ⟨hsame, hout⟩ := handle_of_not_wakes (p := p) (not_exists.mp hw)
    refine ⟨fun id' version waiting ⟨hsub, hmissing, hlookup⟩ => h id' version waiting ⟨?_, ?_, hlookup⟩, hout⟩
    · rw [MergeState.handle, subscribedQuery_cacheResult, update_apply] at hsub
      split_ifs at hsub
      exact hsub
    · rw [← hsame, hmissing]

theorem Lost.resumed (h : st.Lost d) (es : List WaitEvent) : st.resumed p d es = es.map fun _ => none := by
  induction es generalizing st with
  | nil => rfl
  | cons e es ih =>
    obtain ⟨hlost, hout⟩ := h.handle (p := p) e
    rw [MergeState.resumed, hout, ih hlost]
    rfl

theorem lost_or_single (hwait : st.txnMissingQueries d = some waiting)
    (hnodup : (waiting.missingQueryIdVersions.map Prod.fst).Nodup) :
    st.Lost d ∨ ∃ id version, waiting.missingQueryIdVersions = [(id, version)] ∧ st.subscribedQuery id = some d := by
  by_cases h : ∃ id version, waiting.missingQueryIdVersions = [(id, version)] ∧ st.subscribedQuery id = some d
  · exact .inr h
  refine .inl fun id version waiting' ⟨hsub, hmissing, hlookup⟩ => ?_
  cases hwait.symm.trans hmissing
  rw [isEmpty_eq_false_iff]
  intro hfilter
  have hall : ∀ m ∈ waiting.missingQueryIdVersions, m.1 = id := by simpa using filter_eq_nil_iff.mp hfilter
  match hm : waiting.missingQueryIdVersions with
  | [] => simp [hm] at hlookup
  | [m] =>
    have hid : m.1 = id := hall m (hm ▸ mem_cons_self)
    exact h ⟨m.1, m.2, hm, hid ▸ hsub⟩
  | m :: m' :: rest =>
    rw [hm] at hall hnodup
    have heq : m.1 = m'.1 := (hall m (by simp)).trans (hall m' (by simp)).symm
    simp [heq] at hnodup

/-- An awaited result never comes; or there is only one, and nothing that concerns it comes before. -/
def Undisturbed (st : MergeState) (d : Digest) (missing : List (Bytes × Nat)) (es : List WaitEvent) : Prop :=
  (∃ m ∈ missing, ∀ q, .result m.1 q ∈ es → q.retryVersion ≠ m.2) ∨
    ∃ id q, missing = [(id, q.retryVersion)] ∧ st.subscribedQuery id = some d ∧
      es.find? (WaitEvent.concerns id) = some (.result id q)

theorem undisturbed_single {version : Nat} (hsub : st.subscribedQuery id = some d) :
    st.Undisturbed d [(id, version)] es ↔ (∀ q, .result id q ∈ es → q.retryVersion ≠ version) ∨
      ∃ q, q.retryVersion = version ∧ es.find? (WaitEvent.concerns id) = some (.result id q) := by
  refine or_congr (by simp) ⟨?_, ?_⟩
  · rintro ⟨id, q, hm, -, hfind⟩
    cases hm
    exact ⟨q, rfl, hfind⟩
  · rintro ⟨q, rfl, hfind⟩
    exact ⟨id, q, rfl, hsub, hfind⟩

theorem resumed_single_iff {version : Nat}
    (hwait : st.txnMissingQueries d = some ⟨[(id, version)], call⟩) (hsub : st.subscribedQuery id = some d) :
    st.resumed p d es = due [(id, version)] call es ↔ st.Undisturbed d [(id, version)] es := by
  induction es generalizing st with
  | nil => exact iff_of_true rfl (.inl ⟨_, mem_singleton_self _, nofun⟩)
  | cons e es ih =>
    -- An event that is not the awaited result loses the transaction, so the result must not come any more.
    have hloses (hc : e.concerns id = true) (hne : ∀ q, e = .result id q → q.retryVersion ≠ version)
        (hlost : (st.handle p d e).1.Lost d) (call' : MergeCall) :
        none :: (st.handle p d e).1.resumed p d es = none :: due [(id, version)] call' es ↔
          st.Undisturbed d [(id, version)] (e :: es) := by
      rw [hlost.resumed, cons_inj_right, eq_comm, due_eq_none_iff, undisturbed_single hsub, List.find?_cons_of_pos hc]
      simp only [cons_ne_nil, false_or, mem_cons, not_mem_nil, or_false, exists_eq_left, Option.some.injEq]
      constructor
      · exact fun h => .inl fun q hq => hq.elim (fun heq => hne q heq.symm) (h q)
      · rintro (h | ⟨q, hv, heq⟩)
        · exact fun q hq => h q (.inr hq)
        · exact absurd hv (hne q heq)
    cases e with
    | commit txn proof => exact hloses rfl nofun (.of_none (txnMissingQueries_commit txn proof)) _
    | result id' q =>
      have hlookup {id' : Bytes} {v : Nat} (h : [(id, version)].lookup id' = some v) : id' = id ∧ v = version := by
        rw [lookup_cons] at h
        split at h
        · exact ⟨beq_iff_eq.mp ‹_›, (Option.some.inj h).symm⟩
        · cases h
      by_cases hw : id' = id ∧ q.retryVersion = version
      · obtain ⟨rfl, rfl⟩ := hw
        obtain ⟨hnone, hout⟩ := handle_of_wakes (p := p) (q := q) ⟨hsub, hwait, by simp⟩
        refine iff_of_true ?_ (.inr ⟨id', q, rfl, hsub, List.find?_cons_of_pos (by simp [WaitEvent.concerns])⟩)
        rw [resumed, hout, (Lost.of_none hnone).resumed, due]
        simp [due_eq_none_iff.mpr]
      · have hrest : [(id, version)].filter (· ≠ (id', q.retryVersion)) = [(id, version)] := by
          rw [filter_eq_self]
          intro m hm
          rw [mem_singleton.mp hm]
          exact decide_eq_true fun heq => hw ⟨(congrArg Prod.fst heq).symm, (congrArg Prod.snd heq).symm⟩
        have hnot : ∀ waiting, ¬ st.Wakes d id' q.retryVersion waiting := by
          rintro waiting ⟨-, hm, hl⟩
          cases hwait.symm.trans hm
          exact hw (hlookup hl)
        obtain ⟨hsame, hout⟩ := handle_of_not_wakes (p := p) hnot
        rw [resumed, hout, due, hrest, if_neg fun h => cons_ne_nil _ _ h.2]
        by_cases hid : id' = id
        · subst hid
          refine hloses (by simp [WaitEvent.concerns]) (fun q' heq hv => ?_) ?_ call
          · cases heq
            exact hw ⟨rfl, hv⟩
          rintro id version' waiting ⟨hsub', hm, hl⟩
          rw [hsame] at hm
          cases hwait.symm.trans hm
          obtain ⟨rfl, -⟩ := hlookup hl
          rw [handle, subscribedQuery_cacheResult, update_self] at hsub'
          cases hsub'
        · have hsub' : (st.handle p d (.result id' q)).1.subscribedQuery id = some d := by
            rw [handle, subscribedQuery_cacheResult, update_of_ne (Ne.symm hid), hsub]
          rw [cons_inj_right, ih (hsame.trans hwait) hsub', undisturbed_single hsub', undisturbed_single hsub,
            List.find?_cons_of_neg (by simpa [WaitEvent.concerns] using hid)]
          simp [Ne.symm hid]

/-- A waiting transaction is resumed as it should be exactly if a result never comes, or if it waits for one only, which
comes before results in other versions and before a commit. -/
theorem resumed_iff (p : CCParams) (es : List WaitEvent) (hwait : st.txnMissingQueries d = some waiting)
    (hnodup : (waiting.missingQueryIdVersions.map Prod.fst).Nodup) (hne : waiting.missingQueryIdVersions ≠ []) :
    st.resumed p d es = due waiting.missingQueryIdVersions waiting.call es ↔
      st.Undisturbed d waiting.missingQueryIdVersions es := by
  by_cases hsingle : ∃ id version, waiting.missingQueryIdVersions = [(id, version)] ∧ st.subscribedQuery id = some d
  · obtain ⟨id, version, hm, hsub⟩ := hsingle
    rw [hm]
    exact resumed_single_iff (by rw [hwait, ← hm]) hsub
  · rw [((lost_or_single hwait hnodup).resolve_right hsingle).resumed, eq_comm, due_eq_none_iff, or_iff_right hne]
    refine (or_iff_left ?_).symm
    rintro ⟨id, q, hm, hsub, -⟩
    exact hsingle ⟨id, _, hm, hsub⟩

theorem resumed_iff_oneMissing : ∃ st txn' waiting,
    (firstCached []).mergeTxReadSets cachingParams [] twoQueries (.prepare 0 false) = some (.wait, st, txn') ∧
    st.txnMissingQueries [] = some waiting ∧
    st.resumed cachingParams [] [.result [3] (cachedQuery []), .result [2] (cachedQuery [])] =
      due waiting.missingQueryIdVersions waiting.call [.result [3] (cachedQuery []), .result [2] (cachedQuery [])] := by
  refine ⟨_, _, _, rfl, rfl, (resumed_iff cachingParams _ rfl (by decide) (by decide)).mpr (.inr ?_)⟩
  exact ⟨[2], cachedQuery [], rfl, rfl, rfl⟩

/-- With two results missing, after an older result, or with a commit, it is not resumed. -/
theorem waiting_forgotten : ∃ st txn' st' txn'',
    ({} : MergeState).mergeTxReadSets cachingParams [] twoQueries (.prepare 0 false) = some (.wait, st, txn') ∧
    st.resumed cachingParams [] [.result [1] (cachedQuery []), .result [2] (cachedQuery [])] = [none, none] ∧
    (firstCached []).mergeTxReadSets cachingParams [] twoQueries (.prepare 0 false) = some (.wait, st', txn'') ∧
    st'.resumed cachingParams [] [.result [2] { cachedQuery [] with retryVersion := 1 }, .result [2] (cachedQuery [])] =
      [none, none] ∧
    ∀ proof, st'.resumed cachingParams [] [.commit twoQueries proof, .result [2] (cachedQuery [])] = [none, none] :=
  ⟨_, _, _, _, rfl, rfl, rfl, rfl, fun _ => rfl⟩

end MergeState

end Pequin
