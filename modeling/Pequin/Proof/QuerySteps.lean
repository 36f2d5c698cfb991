import Pequin.Model.QueryServer

/-!
# What the parts of a step touch
-/

namespace Pequin.QueryServer.Server

open Function

variable {a : Server × List Action} {md : QueryMetaData}

variable {s s' : Server} {r : RetryId} {d : Digest} {t : Nat} {l : Locked} {x : Txn} {q : QueryId}

theorem setQueryMetaData_self (md : QueryMetaData) : (s.setQueryMetaData q md).queryMetaData q = some md :=
  update_self ..

theorem setQueryMetaData_of_ne {q' : QueryId} (h : q' ≠ q) (md : QueryMetaData) :
    (s.setQueryMetaData q md).queryMetaData q' = s.queryMetaData q' :=
  update_of_ne h ..

theorem registerForceMaterialization_fst (t : TxnState) (d : Digest) :
    ∃ p1, (t.registerForceMaterialization d).1 = { t with p1MetaData := p1 } := by
  unfold TxnState.registerForceMaterialization
  simp only
  split <;> exact ⟨_, rfl⟩

theorem registerForceMaterialization_spec (s : Server) (d : Digest) (x : Txn) :
    ∃ p1 new, s.registerForceMaterialization d x =
        { s with txns := { s.txns with p1MetaData := p1 }, threads := s.threads ++ new } ∧
      ∀ as ∈ new, as = [.applyTableWrites d x] := by
  obtain ⟨p1, hp1⟩ := registerForceMaterialization_fst s.txns d
  simp only [registerForceMaterialization, hp1]
  split
  · exact ⟨p1, [[.applyTableWrites d x]], rfl, by simp⟩
  · exact ⟨p1, [], by rw [List.append_nil], by simp⟩

/-- A query and its missing transactions after `CheckPresence`. -/
structure Checks (d : Digest) (l l' : Locked) (ready : Bool) : Prop where
  queryMetaData : l'.server.queryMetaData = l.server.queryMetaData
  queryMissingTxns : l'.server.queryMissingTxns = l.server.queryMissingTxns
  executions : l'.server.executions = l.server.executions
  alreadyDeleted : l'.server.alreadyDeleted = l.server.alreadyDeleted
  txns : ∃ p1, l'.server.txns = { l.server.txns with p1MetaData := p1 }
  threads : ∃ new, l'.server.threads = l.server.threads ++ new ∧
    ∀ as ∈ new, ∃ x, l.server.txns.ongoing d = some x ∧ as = [.applyTableWrites d x]
  md : l'.md = { l.md with mergedTxns := l'.md.mergedTxns }
  mergedTxns : ∀ d' ∈ l.md.mergedTxns, d' ∈ l'.md.mergedTxns ∨ d' ∈ l.server.txns.aborted
  missing : if ready then l'.missing = l.missing ∧ d ∈ l.server.txns.materialized
    else l'.missing = { l.missing with missingTxns := d :: l.missing.missingTxns }

theorem mem_erase_aborted {txns : List Digest} {b : Bool} {aborted : List Digest} (hb : b = true → d ∈ aborted) :
    ∀ d' ∈ txns, d' ∈ (if b then txns.filter (· ≠ d) else txns) ∨ d' ∈ aborted := by
  intro d' hd'
  cases b with
  | false => exact .inl hd'
  | true =>
    by_cases heq : d' = d
    · exact .inr (heq ▸ hb rfl)
    · exact .inl (List.mem_filter.mpr ⟨hd', by simpa using heq⟩)

/-- `CheckPresence` changes the locked query, the waiting lists and the metadata of phase 1. -/
theorem checkPresence_checks (r : RetryId) (d : Digest) (l : Locked) :
    Checks d l (checkPresence r d l).1 (checkPresence r d l).2 := by
  obtain ⟨s, md, m⟩ := l
  have hmd : ∀ b : Bool, (if b = true then { md with mergedTxns := md.mergedTxns.filter (· ≠ d) } else md) =
      { md with mergedTxns := if b then md.mergedTxns.filter (· ≠ d) else md.mergedTxns } := by
    intro b
    cases b <;> rfl
  have hkeep : ∀ d' ∈ md.mergedTxns,
      d' ∈ (if decide (d ∉ s.txns.committed) && decide (d ∈ s.txns.aborted) then md.mergedTxns.filter (· ≠ d)
        else md.mergedTxns) ∨ d' ∈ s.txns.aborted :=
    mem_erase_aborted fun h => of_decide_eq_true (Bool.and_eq_true_iff.mp h).2
  unfold checkPresence
  simp only [hmd]
  split
  · rename_i hmat
    exact ⟨rfl, rfl, rfl, rfl, ⟨_, rfl⟩, ⟨[], by simp, by simp⟩, rfl, hkeep, rfl, hmat⟩
  split
  · rename_i x hx
    split
    · exact ⟨rfl, rfl, rfl, rfl, ⟨_, rfl⟩, ⟨[], by simp, by simp⟩, rfl, hkeep, rfl⟩
    · obtain ⟨p1, new, heq, hnew⟩ := registerForceMaterialization_spec
        { s with waitingQueries := update s.waitingQueries d (r :: s.waitingQueries d) } d x
      simp only [heq]
      exact ⟨rfl, rfl, rfl, rfl, ⟨p1, rfl⟩, ⟨new, rfl, fun as has => ⟨x, hx, hnew as has⟩⟩, rfl, hkeep, rfl⟩
  · exact ⟨rfl, rfl, rfl, rfl, ⟨_, rfl⟩, ⟨[], by simp, by simp⟩, rfl, hkeep, rfl⟩

/-- Queries of a list may be deleted, with what they miss. -/
structure Deletes (qs : List QueryId) (s s' : Server) : Prop where
  txns : s'.txns = s.txns
  threads : s'.threads = s.threads
  executions : s'.executions = s.executions
  queryMetaData (q : QueryId) : s'.queryMetaData q = s.queryMetaData q ∨ q ∈ qs ∧ s'.queryMetaData q = none
  queryMissingTxns (q : QueryId) (md : QueryMetaData) (h : s'.queryMetaData q = some md) :
    ∀ v, s'.queryMissingTxns (q, v) = s.queryMissingTxns (q, v)

theorem Deletes.refl (qs : List QueryId) (s : Server) : Deletes qs s s :=
  ⟨rfl, rfl, rfl, fun _ => .inl rfl, fun _ _ _ _ => rfl⟩

theorem Deletes.trans {qs : List QueryId} {s'' : Server} (h : Deletes qs s s') (h' : Deletes qs s' s'') :
    Deletes qs s s'' where
  txns := h'.txns.trans h.txns
  threads := h'.threads.trans h.threads
  executions := h'.executions.trans h.executions
  queryMetaData q := by
    rcases h'.queryMetaData q with heq | hdel
    · rw [heq]
      exact h.queryMetaData q
    · exact .inr hdel
  queryMissingTxns q md hmd v := by
    rcases h'.queryMetaData q with heq | ⟨-, hnone⟩
    · exact (h'.queryMissingTxns q md hmd v).trans (h.queryMissingTxns q md (heq ▸ hmd) v)
    · rw [hnone] at hmd
      cases hmd

theorem Deletes.mono {qs qs' : List QueryId} (h : Deletes qs s s') (hsub : qs ⊆ qs') : Deletes qs' s s' :=
  { h with queryMetaData := fun q => (h.queryMetaData q).imp_right fun hdel => ⟨hsub hdel.1, hdel.2⟩ }

theorem deletes_cleanQuery (h : s.cleanQuery q = some s') : Deletes [q] s s' := by
  unfold cleanQuery at h
  split at h
  · cases h
    exact .refl _ s
  split at h
  · cases h
  cases h
  refine ⟨rfl, rfl, rfl, fun q' => ?_, fun q' md' hmd' v => ?_⟩
  · by_cases hq : q' = q
    · exact .inr ⟨List.mem_singleton.mpr hq, hq ▸ update_self ..⟩
    · exact .inl (update_of_ne hq ..)
  · refine update_of_ne (fun heq => ?_) _ _
    obtain rfl : q' = q := congrArg Prod.fst heq
    have hnone : update s.queryMetaData q' none q' = none := update_self ..
    cases hnone.symm.trans hmd'

/-- `CleanQueries` deletes queries that the transaction names, and nothing else. -/
theorem deletes_cleanQueries (h : s.cleanQueries x = some s') : Deletes x.querySet s s' := by
  unfold cleanQueries at h
  split at h
  · cases h
    exact .refl _ s
  have hloop : ∀ (qs : List QueryId) {s₁ s₂ : Server}, qs.foldlM cleanQuery s₁ = some s₂ → Deletes qs s₁ s₂ := by
    intro qs
    induction qs with
    | nil =>
      intro s₁ s₂ h
      cases h
      exact .refl _ _
    | cons q qs ih =>
      intro s₁ s₂ h
      obtain ⟨s₃, h₁, h₂⟩ := Option.bind_eq_some_iff.mp h
      exact ((deletes_cleanQuery h₁).mono (by simp)).trans ((ih h₂).mono (List.subset_cons_self q qs))
  obtain ⟨htxns, hthreads, hex, hmd, hmissing⟩ := hloop x.querySet h
  exact ⟨htxns, hthreads, hex, hmd, hmissing⟩

structure Updates (a : Server × List Action) (s : Server) : Prop where
  txns : a.1.txns = s.txns
  threads : a.1.threads = s.threads
  executions : a.1.executions = s.executions
  queryMetaData : a.1.queryMetaData = s.queryMetaData

theorem Updates.setMissing (h : Updates a s) (r : RetryId) (m : Option MissingTxns)
    (as : List Action) : Updates (a.1.setMissing r m, as) s :=
  ⟨h.txns, h.threads, h.executions, h.queryMetaData⟩

theorem updates_updateWaiting (h : Updates a s) (d : Digest) (isAbort : Bool) (r : RetryId) :
    Updates (updateWaiting d isAbort a r) s := by
  unfold updateWaiting
  split
  · exact h
  · simp only
    split
    · exact h.setMissing r _ _
    · split <;> exact h.setMissing r _ _

theorem updates_updateWaitingTS (h : Updates a s) (t : Nat) (d : Digest) (isAbort : Bool)
    (r : RetryId) : Updates (updateWaitingTS t d isAbort a r) s := by
  unfold updateWaitingTS
  split
  · exact h
  · simp only
    split <;> exact h.setMissing r _ _

theorem Updates.foldl {f : Server × List Action → RetryId → Server × List Action}
    (hf : ∀ a r, Updates a s → Updates (f a r) s) (rs : List RetryId) (h : Updates a s) : Updates (rs.foldl f a) s := by
  induction rs generalizing a with
  | nil => exact h
  | cons r rs ih => exact ih (hf a r h)

/-- Waking queries changes what is missing only. -/
theorem updates_updateWaitingQueries (s : Server) (d : Digest) (isAbort : Bool) :
    Updates ((s.waitingQueries d).foldl (updateWaiting d isAbort)
      ({ s with waitingQueries := update s.waitingQueries d [] }, [])) s :=
  .foldl (fun _ r h => updates_updateWaiting h d isAbort r) _ ⟨rfl, rfl, rfl, rfl⟩

theorem updates_updateWaitingQueriesTS (s : Server) (t : Nat) (d : Digest) (isAbort : Bool) :
    Updates ((s.waitingQueriesTS t).foldl (updateWaitingTS t d isAbort)
      ({ s with waitingQueriesTS := update s.waitingQueriesTS t [] }, [])) s :=
  .foldl (fun _ r h => updates_updateWaitingTS h t d isAbort r) _ ⟨rfl, rfl, rfl, rfl⟩

theorem processNext_cases (h : s.processNext q = some s') :
    ∃ md m ds ts, s.queryMetaData q = some md ∧ s.queryMissingTxns (q, md.retryVersion) = some m ∧
      md.unchecked = some (ds, ts) ∧ ((∃ d rest, ds = d :: rest ∧
        s' = (checkPresence (q, md.retryVersion) d ⟨s, { md with unchecked := some (rest, ts) }, m⟩).1.store q) ∨
      (∃ t rest, ds = [] ∧ ts = t :: rest ∧
        s' = (checkPresenceTS (q, md.retryVersion) t ⟨s, { md with unchecked := some ([], rest) }, m⟩).1.store q) ∨
      (ds = [] ∧ ts = [] ∧ m.isEmpty = true ∧
        s' = (s.setMissing (q, md.retryVersion) none).handleSyncCallback q { md with unchecked := none }) ∨
      (ds = [] ∧ ts = [] ∧ m.isEmpty = false ∧ s' = s.setQueryMetaData q { md with unchecked := none })) := by
  unfold processNext at h
  split at h
  · cases h
  rename_i md hmd
  simp only at h
  split at h
  · rename_i m d ds ts hm hun
    cases h
    exact ⟨md, m, d :: ds, ts, hmd, hm, hun, .inl ⟨d, ds, rfl, rfl⟩⟩
  · rename_i m t ts hm hun
    cases h
    exact ⟨md, m, [], t :: ts, hmd, hm, hun, .inr (.inl ⟨t, ts, rfl, rfl, rfl⟩)⟩
  · rename_i m hm hun
    split at h
    · rename_i hempty
      cases h
      exact ⟨md, m, [], [], hmd, hm, hun, .inr (.inr (.inl ⟨rfl, rfl, hempty, rfl⟩))⟩
    · rename_i hempty
      cases h
      exact ⟨md, m, [], [], hmd, hm, hun, .inr (.inr (.inr ⟨rfl, rfl, by simpa using hempty, rfl⟩))⟩
  · cases h

theorem waitingQuery_eq_some :
    s.waitingQuery r = some md ↔ s.queryMetaData r.1 = some md ∧ md.isWaiting = true ∧ md.retryVersion = r.2 := by
  simp [waitingQuery, Option.filter_eq_some_iff]

/-- What `ProcessSync` has set stays. -/
structure SameSync (md md' : QueryMetaData) : Prop where
  retryVersion : md'.retryVersion = md.retryVersion
  mergedSsMsg : md'.mergedSsMsg = md.mergedSsMsg
  mergedTxns : md'.mergedTxns = md.mergedTxns
  isWaiting : md'.isWaiting = md.isWaiting
  unchecked : md'.unchecked = md.unchecked
  waitingSync : md'.waitingSync = md.waitingSync
  hasQuery : md.hasQuery = true → md'.hasQuery = true

theorem SameSync.refl (md : QueryMetaData) : SameSync md md := ⟨rfl, rfl, rfl, rfl, rfl, rfl, id⟩

theorem SameSync.trans {md' md'' : QueryMetaData} (h : SameSync md md') (h' : SameSync md' md'') : SameSync md md'' :=
  ⟨h'.retryVersion.trans h.retryVersion, h'.mergedSsMsg.trans h.mergedSsMsg, h'.mergedTxns.trans h.mergedTxns,
    h'.isWaiting.trans h.isWaiting, h'.unchecked.trans h.unchecked, h'.waitingSync.trans h.waitingSync,
    fun hq => h'.hasQuery (h.hasQuery hq)⟩

/-- `ProcessSync` starts to look at the ids of a snapshot. -/
def startSync (ss : MergedSnapshot) (md : QueryMetaData) : QueryMetaData :=
  { md with
    mergedSsMsg := some ss, mergedTxns := ss.mergedTxns, isWaiting := true
    unchecked := some (if md.useOptimisticTxId then ([], ss.mergedTs) else (ss.mergedTxns, [])) }

theorem processSync_eq {ss : MergedSnapshot} (h : s.processSync q ss md = some s') :
    s.queryMissingTxns (q, md.retryVersion) = none ∧
      s' = (s.setMissing (q, md.retryVersion) (some {})).setQueryMetaData q (startSync ss md) := by
  unfold processSync at h
  simp only at h
  split at h
  · cases h
  · rename_i hnone
    cases h
    exact ⟨by simpa using hnone, rfl⟩

/-- A newer retry version clears the metadata; others leave it. -/
inductive Restarts (q : QueryId) (v : Nat) (s : Server) (md : QueryMetaData) : Server → QueryMetaData → Prop
  | keep {md' : QueryMetaData} (hv : v ≤ md.retryVersion) (hsame : SameSync md md') : Restarts q v s md s md'
  | reset {md' : QueryMetaData} (hv : md.retryVersion < v)
      (hsame : SameSync { md.clearMetaData with retryVersion := v } md') :
      Restarts q v s md (s.setMissing (q, md.retryVersion) none) md'

theorem Restarts.of_sameSync {s₁ : Server} {v : Nat} {md₁ md₂ : QueryMetaData} (h : Restarts q v s md s₁ md₁)
    (hsame : SameSync md₁ md₂) : Restarts q v s md s₁ md₂ := by
  cases h with
  | keep hv h => exact .keep hv (h.trans hsame)
  | reset hv h => exact .reset hv (h.trans hsame)

theorem restarts_updateRetryVersion {md₀ : QueryMetaData} (v : Nat) (hsame : SameSync md₀ md) :
    Restarts q v s md₀ (s.updateRetryVersion q v md).1 (s.updateRetryVersion q v md).2 := by
  unfold updateRetryVersion
  rw [hsame.retryVersion]
  split
  · rename_i hv
    exact .reset hv ⟨rfl, rfl, rfl, rfl, hsame.unchecked, rfl, hsame.hasQuery⟩
  · rename_i hv
    exact .keep (not_lt.mp hv) hsame

theorem executeQuery_cases {m : QueryRequest} (h : s.executeQuery q m md = some s') : ∃ md₁, SameSync md md₁ ∧
    (s' = s.setQueryMetaData q md₁ ∨ (∃ ss, md.mergedSsMsg = some ss ∧ s.processSync q ss md₁ = some s') ∨
      ∃ e : Execution, e.queryId = q ∧ e.snapshot = none ∧
        s' = { s.setQueryMetaData q md₁ with executions := s.executions ++ [e] }) := by
  unfold executeQuery at h
  simp only at h
  split at h
  · split at h
    · rename_i ss hss
      refine ⟨_, ?_, .inr (.inl ⟨ss, hss, h⟩)⟩
      exact ⟨rfl, rfl, rfl, rfl, rfl, rfl, id⟩
    · cases h
  · split at h
    · cases h
      refine ⟨_, ?_, .inr (.inr ⟨_, rfl, rfl, rfl⟩)⟩
      exact ⟨rfl, rfl, rfl, rfl, rfl, rfl, id⟩
    · cases h
      refine ⟨_, ?_, .inl rfl⟩
      exact ⟨rfl, rfl, rfl, rfl, rfl, rfl, id⟩

theorem acceptQuery_cases {m : QueryRequest} (h : s.acceptQuery q m md = some s') :
    ∃ s₁ md₁, Restarts q m.query.retryVersion s md s₁ md₁ ∧ (s' = s₁.setQueryMetaData q md₁ ∨
        (∃ ss, md₁.mergedSsMsg = some ss ∧ md₁.hasQuery = true ∧ s₁.processSync q ss md₁ = some s') ∨
        ∃ e : Execution, e.queryId = q ∧ e.snapshot = none ∧
          s' = { s₁.setQueryMetaData q md₁ with executions := s₁.executions ++ [e] }) := by
  unfold acceptQuery at h
  simp only at h
  have hsame : SameSync md (if m.query.queryCmd.isEmpty then md else md.setQuery m.query) := by
    split
    · exact .refl md
    · exact ⟨rfl, rfl, rfl, rfl, rfl, rfl, fun _ => rfl⟩
  generalize (if m.query.queryCmd.isEmpty then md else md.setQuery m.query) = md₀ at h hsame
  have hrestart := restarts_updateRetryVersion (s := s) (q := q) m.query.retryVersion hsame
  split at h
  · cases h
    exact ⟨_, _, hrestart, .inl rfl⟩
  rename_i hq
  obtain ⟨md₁, hsame₁, hcases⟩ := executeQuery_cases h
  refine ⟨_, md₁, hrestart.of_sameSync hsame₁, hcases.imp_right (Or.imp_left ?_)⟩
  rintro ⟨ss, hss, hsync⟩
  exact ⟨ss, hsame₁.mergedSsMsg.trans hss, hsame₁.hasQuery (by simpa using hq), hsync⟩

theorem acceptSync_cases {m : SyncClientProposal} (h : s.acceptSync m md = some s') :
    ∃ s₁ md₁, Restarts m.mergedSs.queryDigest m.mergedSs.retryVersion s md s₁ md₁ ∧
      (md₁.hasQuery = true ∧ s₁.processSync m.mergedSs.queryDigest m.mergedSs md₁ = some s' ∨ md₁.hasQuery = false ∧
          s' = s₁.setQueryMetaData m.mergedSs.queryDigest (md₁.registerWaitingSync m.mergedSs)) := by
  unfold acceptSync at h
  simp only at h
  have hrestart := restarts_updateRetryVersion (s := s) (q := m.mergedSs.queryDigest) m.mergedSs.retryVersion
    (SameSync.refl md)
  split at h
  · rename_i hq
    refine ⟨_, _, ?_, .inl ⟨?_, h⟩⟩
    · exact hrestart.of_sameSync ⟨rfl, rfl, rfl, rfl, rfl, rfl, id⟩
    · exact hq
  · rename_i hq
    cases h
    refine ⟨_, _, ?_, .inr ⟨?_, rfl⟩⟩
    · exact hrestart.of_sameSync ⟨rfl, rfl, rfl, rfl, rfl, rfl, id⟩
    · simpa using hq

end Pequin.QueryServer.Server
