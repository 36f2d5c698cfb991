import Pequin.Framework.Run
import Pequin.Proof.QuerySteps

/-!
# Queries and their clients

The metadata of a query is found by the id of the query. `HandleQuery` compares the client that signs with the
timestamp, which is part of a hashed id. `HandleSync` takes the id that the message names, whoever signs it, and
`CleanQueries` takes the ids that a transaction names.
-/

namespace Pequin.QueryServer

open Option QueryServer.Server

variable {v : Nat} {d : Digest} {x : Txn} {p : Params} {s s' : Server} {q : QueryId}

def OwnedBy (p : Params) (client : Nat) (q : QueryId) : Prop :=
  ∃ query : Query, query.clientId = client ∧ query.timestamp.id = client ∧ queryDigest p.hashDigest query = q

theorem OwnedBy.client_eq {b c : Nat} (h : OwnedBy p b q) (h' : OwnedBy p c q) : b = c := by
  obtain ⟨query, hb, -, hq⟩ := h
  obtain ⟨query', hc, -, hq'⟩ := h'
  rw [← hq', queryDigest, queryDigest] at hq
  rw [← hb, ← hc]
  split at hq
  · exact (QueryId.hash.inj hq).1
  · exact (QueryId.plain.inj hq).1

namespace Server

variable {q' : QueryId} {md md' : QueryMetaData} {r : RetryId} {s₁ s₀ : Server} {m : QueryRequest}

def snapshotOf (s : Server) (q : QueryId) : Option MergedSnapshot :=
  (s.queryMetaData q).bind QueryMetaData.mergedSsMsg

def executionsOf (s : Server) (q : QueryId) : List Execution := s.executions.filter fun x => x.queryId = q

/-- Query `q` is left alone. -/
structure SameAt (q : QueryId) (s s' : Server) : Prop where
  queryMetaData : s'.queryMetaData q = s.queryMetaData q
  executionsOf : s'.executionsOf q = s.executionsOf q

theorem SameAt.refl (q : QueryId) (s : Server) : SameAt q s s := ⟨rfl, rfl⟩

theorem SameAt.trans {s'' : Server} (h : SameAt q s s') (h' : SameAt q s' s'') : SameAt q s s'' :=
  ⟨h'.queryMetaData.trans h.queryMetaData, h'.executionsOf.trans h.executionsOf⟩

theorem SameAt.of_eq (hmd : s'.queryMetaData = s.queryMetaData) (hex : s'.executions = s.executions) : SameAt q s s' :=
  ⟨by rw [hmd], by rw [Server.executionsOf, Server.executionsOf, hex]⟩

theorem SameAt.setQueryMetaData (h : q' ≠ q) : SameAt q s (s.setQueryMetaData q' md) :=
  ⟨Function.update_of_ne h.symm _ _, rfl⟩

theorem SameAt.setMissing (m : Option MissingTxns) : SameAt q s (s.setMissing r m) := ⟨rfl, rfl⟩

theorem SameAt.snapshotOf (h : SameAt q s s') : s'.snapshotOf q = s.snapshotOf q := by
  rw [Server.snapshotOf, h.queryMetaData]
  rfl

theorem snapshotOf_setQueryMetaData : (s.setQueryMetaData q md).snapshotOf q = md.mergedSsMsg := by
  rw [snapshotOf, setQueryMetaData_self]
  rfl

def SyncedAt (s : Server) (q : QueryId) : Prop :=
  ∀ md, s.queryMetaData q = some md → md.isWaiting = true ∨ md.unchecked.isSome = true → md.mergedSsMsg.isSome = true

theorem SameAt.syncedAt (h : SameAt q s s') (hs : s.SyncedAt q) : s'.SyncedAt q := by
  intro md hmd
  rw [h.queryMetaData] at hmd
  exact hs md hmd

theorem syncedAt_setQueryMetaData
    (h : md.isWaiting = true ∨ md.unchecked.isSome = true → md.mergedSsMsg.isSome = true) :
    (s.setQueryMetaData q md).SyncedAt q := by
  intro md' hmd'
  rw [setQueryMetaData_self, Option.some.injEq] at hmd'
  exact hmd' ▸ h

/-- Query `q` has a snapshot and keeps it. -/
structure Advances (q : QueryId) (s s' : Server) : Prop where
  isSome : (s.snapshotOf q).isSome = true
  snapshotOf : s'.snapshotOf q = s.snapshotOf q

theorem Advances.syncedAt (h : Advances q s s') : s'.SyncedAt q := by
  intro md hmd _
  have hsome := h.isSome
  rw [← h.snapshotOf, Server.snapshotOf, hmd] at hsome
  exact hsome

/-- A message for a query replaces its metadata. The snapshot is the old one, or that of the message. -/
structure Replaces (q : QueryId) (new : Option MergedSnapshot) (s s' : Server) : Prop where
  syncedAt : s'.SyncedAt q
  snapshotOf : ∀ ss, s'.snapshotOf q = some ss → s.snapshotOf q = some ss ∨ new = some ss

/-! ## Client messages -/

theorem Restarts.sameAt (h : Restarts q' v s md s₁ md') : SameAt q s s₁ := by
  cases h with
  | keep => exact .refl q s
  | reset => exact .setMissing none

theorem Restarts.mergedSsMsg (h : Restarts q v s md s₁ md') :
    md'.mergedSsMsg = md.mergedSsMsg ∨ md'.mergedSsMsg = none := by
  cases h with
  | keep _ hsame => exact .inl hsame.mergedSsMsg
  | reset _ hsame => exact .inr hsame.mergedSsMsg

theorem Restarts.synced (h : Restarts q v s md s₁ md') (hun : md.unchecked = none)
    (hmd : md.isWaiting = true ∨ md.unchecked.isSome = true → md.mergedSsMsg.isSome = true) :
    md'.isWaiting = true ∨ md'.unchecked.isSome = true → md'.mergedSsMsg.isSome = true := by
  cases h with
  | keep _ hsame =>
    rw [hsame.isWaiting, hsame.unchecked, hsame.mergedSsMsg]
    exact hmd
  | reset _ hsame =>
    rw [hsame.isWaiting, hsame.unchecked, show ({ md.clearMetaData with retryVersion := v } : QueryMetaData).unchecked =
      none from hun]
    exact fun h => (by simp [QueryMetaData.clearMetaData] at h)

theorem sameAt_processSync {ss : MergedSnapshot} (hq : q' ≠ q) (h : s.processSync q' ss md = some s') :
    SameAt q s s' := by
  obtain ⟨-, rfl⟩ := processSync_eq h
  exact (SameAt.setMissing _).trans (.setQueryMetaData hq)

theorem processSync_spec {ss : MergedSnapshot} (h : s.processSync q ss md = some s') :
    s'.SyncedAt q ∧ s'.snapshotOf q = some ss := by
  obtain ⟨-, rfl⟩ := processSync_eq h
  exact ⟨syncedAt_setQueryMetaData fun _ => rfl, snapshotOf_setQueryMetaData⟩

theorem sameAt_acceptQuery (hq : q' ≠ q) (h : s.acceptQuery q' m md = some s') : SameAt q s s' := by
  obtain ⟨s₁, md₁, hrestart, rfl | ⟨ss, -, -, hsync⟩ | ⟨e, he, -, rfl⟩⟩ := acceptQuery_cases h
  · exact hrestart.sameAt.trans (.setQueryMetaData hq)
  · exact hrestart.sameAt.trans (sameAt_processSync hq hsync)
  · refine hrestart.sameAt.trans ⟨Function.update_of_ne hq.symm _ _, ?_⟩
    simp [executionsOf, he, hq]

theorem acceptQuery_replaces (hun : md.unchecked = none)
    (hmd : md.isWaiting = true ∨ md.unchecked.isSome = true → md.mergedSsMsg.isSome = true)
    (hss : ∀ ss, md.mergedSsMsg = some ss → s.snapshotOf q = some ss) (h : s.acceptQuery q m md = some s') :
    Replaces q none s s' := by
  obtain ⟨s₁, md₁, hrestart, hcases⟩ := acceptQuery_cases h
  have hold : ∀ ss, md₁.mergedSsMsg = some ss → s.snapshotOf q = some ss ∨
      (none : Option MergedSnapshot) = some ss := by
    intro ss hss₁
    rcases hrestart.mergedSsMsg with heq | hnone
    · exact .inl (hss ss (heq ▸ hss₁))
    · rw [hnone] at hss₁
      cases hss₁
  rcases hcases with rfl | ⟨ss, hss₁, -, hsync⟩ | ⟨e, -, -, rfl⟩
  · refine ⟨syncedAt_setQueryMetaData (hrestart.synced hun hmd), fun ss h => hold ss ?_⟩
    rwa [snapshotOf_setQueryMetaData] at h
  · obtain ⟨hsynced, hsnap⟩ := processSync_spec hsync
    refine ⟨hsynced, fun ss' h => hold ss' ?_⟩
    rw [hsnap] at h
    rw [hss₁, h]
  · refine ⟨syncedAt_setQueryMetaData (hrestart.synced hun hmd), fun ss h => hold ss ?_⟩
    have hset : (s₁.setQueryMetaData q md₁).snapshotOf q = md₁.mergedSsMsg := snapshotOf_setQueryMetaData
    exact hset ▸ h

theorem acceptSync_replaces {m : SyncClientProposal} (h : s.acceptSync m md = some s') :
    Replaces m.mergedSs.queryDigest (some m.mergedSs) s s' := by
  obtain ⟨s₁, md₁, -, ⟨-, hsync⟩ | ⟨-, rfl⟩⟩ := acceptSync_cases h
  · obtain ⟨hsynced, hsnap⟩ := processSync_spec hsync
    exact ⟨hsynced, fun ss h => .inr (hsnap.symm.trans h)⟩
  · refine ⟨syncedAt_setQueryMetaData fun _ => rfl, fun ss h => .inr ?_⟩
    rwa [snapshotOf_setQueryMetaData] at h

theorem sameAt_acceptSync {m : SyncClientProposal} (hq : m.mergedSs.queryDigest ≠ q)
    (h : s.acceptSync m md = some s') : SameAt q s s' := by
  obtain ⟨s₁, md₁, hrestart, ⟨-, hsync⟩ | ⟨-, rfl⟩⟩ := acceptSync_cases h
  · exact hrestart.sameAt.trans (sameAt_processSync hq hsync)
  · exact hrestart.sameAt.trans (.setQueryMetaData hq)

theorem handleQuery_spec (hs : s.SyncedAt q) (h : s.handleQuery p m = some s') :
    SameAt q s s' ∨ queryDigest p.hashDigest m.query = q ∧ verifyClientQuery m = true ∧ Replaces q none s s' := by
  unfold handleQuery at h
  simp only at h
  split_ifs at h with hwm hlock hold hver hpoint
  · cases h
    exact .inl (.refl q s)
  · cases h
    exact .inl (.refl q s)
  · cases h
    exact .inl (.refl q s)
  · cases h
    exact .inl (.refl q s)
  · by_cases hq : queryDigest p.hashDigest m.query = q
    · subst hq
      refine .inr ⟨rfl, by simpa using hver, ?_⟩
      cases hmd : s.queryMetaData (queryDigest p.hashDigest m.query) with
      | none =>
        rw [hmd] at h
        exact acceptQuery_replaces rfl (fun h => by simp at h) (fun ss h => by cases h) h
      | some md =>
        rw [hmd] at h
        have hun : md.unchecked = none := by simpa [locked, hmd] using hlock
        exact acceptQuery_replaces hun (hs md hmd) (fun ss hss => by rw [snapshotOf, hmd]; exact hss) h
    · exact .inl (sameAt_acceptQuery hq h)

theorem handleSync_spec {m : SyncClientProposal} (h : s.handleSync m = some s') : SameAt q s s' ∨
    m.mergedSs.queryDigest = q ∧ m.verifies = true ∧ Replaces q (some m.mergedSs) s s' := by
  unfold handleSync at h
  simp only at h
  split_ifs at h with hwm hlock hold hver
  · cases h
    exact .inl (.refl q s)
  · cases h
    exact .inl (.refl q s)
  · by_cases hq : m.mergedSs.queryDigest = q
    · subst hq
      exact .inr ⟨rfl, by simpa using hver, acceptSync_replaces h⟩
    · exact .inl (sameAt_acceptSync hq h)

/-! ## Steps of the replica -/

theorem sameAt_handleSyncCallback (hq : q' ≠ q) : SameAt q s (s.handleSyncCallback q' md) := by
  refine ⟨setQueryMetaData_of_ne hq.symm _, ?_⟩
  simp [executionsOf, handleSyncCallback, setQueryMetaData, hq]

theorem snapshotOf_handleSyncCallback : (s.handleSyncCallback q md).snapshotOf q = md.mergedSsMsg :=
  @snapshotOf_setQueryMetaData s q { md with isWaiting := false, hasResult := true }

theorem sameAt_store {l : Locked} (hq : q' ≠ q) (hmd : l.server.queryMetaData = s.queryMetaData)
    (hex : l.server.executions = s.executions) : SameAt q s (l.store q') :=
  (SameAt.of_eq hmd hex).trans ((SameAt.setMissing _).trans (.setQueryMetaData hq))

theorem checkPresenceTS_frame (t : Nat) (l : Locked) :
    (checkPresenceTS r t l).1.server.queryMetaData = l.server.queryMetaData ∧
      (checkPresenceTS r t l).1.server.executions = l.server.executions ∧
      (checkPresenceTS r t l).1.md.mergedSsMsg = l.md.mergedSsMsg := by
  unfold checkPresenceTS
  split
  · rename_i d _
    have hc := checkPresence_checks r d
      { l with md := if d ∈ l.server.txns.aborted then l.md else { l.md with mergedTxns := d :: l.md.mergedTxns } }
    refine ⟨hc.queryMetaData, hc.executions, ?_⟩
    rw [hc.md]
    simp only
    split <;> rfl
  · exact ⟨rfl, rfl, rfl⟩

theorem processNext_spec (hs : s.SyncedAt q) (h : s.processNext q' = some s') : SameAt q s s' ∨ Advances q s s' := by
  obtain ⟨md, m, ds, ts, hmd, -, hun, hcases⟩ := processNext_cases h
  by_cases hq : q' = q
  · subst hq
    have hsome : md.mergedSsMsg.isSome = true := hs md hmd (.inr (by rw [hun]; rfl))
    have hsnap : s.snapshotOf q' = md.mergedSsMsg := by
      rw [snapshotOf, hmd]
      rfl
    refine .inr ⟨hsnap ▸ hsome, hsnap ▸ ?_⟩
    rcases hcases with ⟨d, rest, -, rfl⟩ | ⟨t, rest, -, -, rfl⟩ | ⟨-, -, -, rfl⟩ | ⟨-, -, -, rfl⟩
    · have hc := checkPresence_checks (q', md.retryVersion) d ⟨s, { md with unchecked := some (rest, ts) }, m⟩
      rw [Locked.store, snapshotOf_setQueryMetaData, hc.md]
    · rw [Locked.store, snapshotOf_setQueryMetaData, (checkPresenceTS_frame _ _).2.2]
    · rw [snapshotOf_handleSyncCallback]
    · rw [snapshotOf_setQueryMetaData]
  · refine .inl ?_
    rcases hcases with ⟨d, rest, -, rfl⟩ | ⟨t, rest, -, -, rfl⟩ | ⟨-, -, -, rfl⟩ | ⟨-, -, -, rfl⟩
    · have hc := checkPresence_checks (q', md.retryVersion) d ⟨s, { md with unchecked := some (rest, ts) }, m⟩
      exact sameAt_store hq hc.queryMetaData hc.executions
    · obtain ⟨hmd', hex, -⟩ := checkPresenceTS_frame t
        ⟨s, { md with unchecked := some ([], rest) }, m⟩
      exact sameAt_store hq hmd' hex
    · exact (SameAt.setMissing none).trans (sameAt_handleSyncCallback hq)
    · exact .setQueryMetaData hq

theorem Deletes.spec {qs : List QueryId} {s₂ : Server} (h : Deletes qs s₁ s₂) (h₁ : SameAt q s s₁)
    (h₂ : SameAt q s₂ s') : SameAt q s s' ∨ q ∈ qs ∧ Replaces q none s s' := by
  rcases h.queryMetaData q with heq | ⟨hmem, hnone⟩
  · have hsame : SameAt q s₁ s₂ := ⟨heq, by rw [executionsOf, executionsOf, h.executions]⟩
    exact .inl ((h₁.trans hsame).trans h₂)
  refine .inr ⟨hmem, fun md hmd => ?_, fun ss hss => ?_⟩
  · rw [h₂.queryMetaData, hnone] at hmd
    cases hmd
  · rw [snapshotOf, h₂.queryMetaData, hnone] at hss
    cases hss

theorem commit_spec (h₀ : SameAt q s s₀) (h : s₀.commit d x = some s') :
    SameAt q s s' ∨ q ∈ x.querySet ∧ Replaces q none s s' := by
  unfold commit at h
  split at h
  · cases h
    exact .inl h₀
  · exact (deletes_cleanQueries h).spec (h₀.trans (.of_eq rfl rfl)) (.refl q s')

theorem abort_spec (h₀ : SameAt q s s₀) (h : s₀.abort p d x = some s') :
    SameAt q s s' ∨ q ∈ x.querySet ∧ Replaces q none s s' := by
  obtain ⟨s₁, hclean, h⟩ := bind_eq_some_iff.mp h
  obtain ⟨actions, -, rfl⟩ := map_eq_some_iff.mp h
  exact (deletes_cleanQueries hclean).spec (h₀.trans (.of_eq rfl rfl)) (.of_eq rfl rfl)

theorem handleWriteback_spec {decision : CommitDecision}
    (h : s.handleWriteback p d x decision = some s') : SameAt q s s' ∨ q ∈ x.querySet ∧ Replaces q none s s' := by
  unfold handleWriteback at h
  split at h
  · cases h
    exact .inl (.of_eq rfl rfl)
  obtain ⟨t, -, h⟩ := bind_eq_some_iff.mp h
  have h₀ : SameAt q s { s with txns := t } := .of_eq rfl rfl
  cases decision with
  | commit => exact commit_spec h₀ h
  | abort => exact abort_spec h₀ h

theorem sameAt_registerForceMaterialization (h₀ : SameAt q s s₀) :
    SameAt q s (s₀.registerForceMaterialization d x) := by
  obtain ⟨p1, new, heq, -⟩ := registerForceMaterialization_spec s₀ d x
  rw [heq]
  exact h₀.trans (.of_eq rfl rfl)

theorem sameAt_handlePhase1CB {r : Result} {force : Bool} (h : s.handlePhase1CB d r force = some s') :
    SameAt q s s' := by
  unfold handlePhase1CB at h
  split at h
  · cases h
    exact .refl q s
  split at h
  · cases h
    exact ⟨rfl, rfl⟩
  · cases h
    split_ifs <;> exact ⟨rfl, rfl⟩

theorem sameAt_processSuppliedTxn {info : TxnInfo} (h : s.processSuppliedTxn p d info = some s') : SameAt q s s' := by
  unfold processSuppliedTxn at h
  split at h
  · cases h
    exact .refl q s
  simp only at h
  have h₀ : SameAt q s { s with txns := { s.txns with suppliedSync := s.txns.suppliedSync ++ [d] } } := .of_eq rfl rfl
  split at h
  · cases h
    exact h₀
  split at h
  · split at h
    · obtain ⟨t, -, rfl⟩ := map_eq_some_iff.mp h
      exact ⟨rfl, rfl⟩
    · split at h
      · cases h
        exact ⟨rfl, rfl⟩
      · cases h
  · split at h
    · cases h
    split at h
    · split at h
      · obtain ⟨x, -, rfl⟩ := map_eq_some_iff.mp h
        exact sameAt_registerForceMaterialization h₀
      · cases h
        exact sameAt_registerForceMaterialization h₀
    · split at h
      · obtain ⟨t, -, rfl⟩ := map_eq_some_iff.mp h
        exact ⟨rfl, rfl⟩
      · cases h

theorem advances_of_waiting (hs : s.SyncedAt q) (hmd : s.queryMetaData q = some md) (hwait : md.isWaiting = true)
    (hsnap : s'.snapshotOf q = md.mergedSsMsg) : Advances q s s' := by
  have heq : s.snapshotOf q = md.mergedSsMsg := by
    rw [snapshotOf, hmd]
    rfl
  exact ⟨heq ▸ hs md hmd (.inl hwait), hsnap.trans heq.symm⟩

theorem translateTS_spec {isAbort : Bool} (hs : s.SyncedAt q) :
    SameAt q s (s.translateTS d isAbort r) ∨ Advances q s (s.translateTS d isAbort r) := by
  unfold translateTS
  split
  · exact .inl (.refl q s)
  rename_i md hmd
  obtain ⟨hmd, hwait, -⟩ := waitingQuery_eq_some.mp hmd
  simp only
  by_cases hq : r.1 = q
  · subst hq
    right
    split
    · exact advances_of_waiting hs hmd hwait snapshotOf_setQueryMetaData
    rename_i m _
    have hc := checkPresence_checks r d ⟨s, resolveTxn d isAbort md, m⟩
    split
    · exact advances_of_waiting hs hmd hwait (snapshotOf_handleSyncCallback.trans (by rw [hc.md]; rfl))
    · exact advances_of_waiting hs hmd hwait (snapshotOf_setQueryMetaData.trans (by rw [hc.md]; rfl))
  · left
    split
    · exact .setQueryMetaData hq
    rename_i m _
    have hc := checkPresence_checks r d ⟨s, resolveTxn d isAbort md, m⟩
    split
    · exact (SameAt.of_eq hc.queryMetaData hc.executions).trans
        ((SameAt.setMissing _).trans (sameAt_handleSyncCallback hq))
    · exact sameAt_store hq hc.queryMetaData hc.executions

theorem runAction_spec {a : Action} {res : Server × List Action} (hs : s.SyncedAt q) (h : s.runAction p a = some res) :
    SameAt q s res.1 ∨ Advances q s res.1 ∨
      ∃ d x, a = .commitWithProof d x ∧ q ∈ x.querySet ∧ Replaces q none s res.1 := by
  cases a with
  | applyTableWrites d x =>
    obtain ⟨t, -, h⟩ := bind_eq_some_iff.mp h
    obtain ⟨actions, -, rfl⟩ := map_eq_some_iff.mp h
    exact .inl (.of_eq rfl rfl)
  | commitWithProof d x =>
    obtain ⟨s₁, hcommit, rfl⟩ := map_eq_some_iff.mp h
    exact (commit_spec (.refl q s) hcommit).imp_right fun hrep => .inr ⟨d, x, rfl, hrep⟩
  | updateWaitingQueries d isAbort =>
    simp only [runAction] at h
    split at h
    · cases h
    · cases h
      have hupd := updates_updateWaitingQueries s d isAbort
      exact .inl (.of_eq hupd.queryMetaData hupd.executions)
  | updateWaitingQueriesTS t d isAbort =>
    simp only [runAction] at h
    split at h
    · cases h
    · cases h
      have hupd := updates_updateWaitingQueriesTS s t d isAbort
      exact .inl (.of_eq hupd.queryMetaData hupd.executions)
  | removeTxn d r =>
    simp only [runAction] at h
    split at h
    · cases h
    split at h
    · cases h
      exact .inl (.refl q s)
    rename_i md hmd
    obtain ⟨hmd, hwait, -⟩ := waitingQuery_eq_some.mp hmd
    cases h
    by_cases hq : r.1 = q
    · subst hq
      exact .inr (.inl (advances_of_waiting hs hmd hwait snapshotOf_setQueryMetaData))
    · exact .inl (.setQueryMetaData hq)
  | wakeQuery d isAbort r =>
    simp only [runAction] at h
    split at h
    · cases h
    split at h
    · cases h
      exact .inl (.refl q s)
    rename_i md hmd
    obtain ⟨hmd, hwait, -⟩ := waitingQuery_eq_some.mp hmd
    cases h
    by_cases hq : r.1 = q
    · subst hq
      refine .inr (.inl (advances_of_waiting hs hmd hwait (snapshotOf_handleSyncCallback.trans ?_)))
      split <;> rfl
    · exact .inl (sameAt_handleSyncCallback hq)
  | translateTS t d isAbort r =>
    simp only [runAction] at h
    split at h
    · cases h
    · cases h
      exact (translateTS_spec hs).imp_right .inl

/-- The events that replace the metadata of a query. -/
inductive Concerns (p : Params) (q : QueryId) (s : Server) : Event → Prop
  | query {m : QueryRequest} (hq : queryDigest p.hashDigest m.query = q) (hver : verifyClientQuery m = true) :
      Concerns p q s (.query m)
  | sync {m : SyncClientProposal} (hq : m.mergedSs.queryDigest = q) (hver : m.verifies = true) :
    Concerns p q s (.sync m)
  | writeback {x : Txn} {decision : CommitDecision} (hq : q ∈ x.querySet) : Concerns p q s (.writeback x decision)
  | thread {i : Nat} {d : Digest} {x : Txn} {rest : List Action}
      (hi : s.threads[i]? = some (.commitWithProof d x :: rest)) (hq : q ∈ x.querySet) : Concerns p q s (.thread i)

def newSnapshot : Event → Option MergedSnapshot
  | .sync m => some m.mergedSs
  | _ => none

/-- The events that no message brings about directly. -/
def Internal : Event → Prop
  | .process _ => True
  | .thread _ => True
  | _ => False

theorem step_spec {e : Event} (hs : s.SyncedAt q) (h : s.step p e = some s') :
    SameAt q s s' ∨ Internal e ∧ Advances q s s' ∨ Concerns p q s e ∧ Replaces q (newSnapshot e) s s' := by
  cases e with
  | query m => exact (handleQuery_spec hs h).imp_right fun ⟨hq, hver, hrep⟩ => .inr ⟨.query hq hver, hrep⟩
  | sync m => exact (handleSync_spec h).imp_right fun ⟨hq, hver, hrep⟩ => .inr ⟨.sync hq hver, hrep⟩
  | process q' => exact (processNext_spec hs h).imp_right fun hadv => .inl ⟨trivial, hadv⟩
  | phase1 x =>
    obtain ⟨t, -, rfl⟩ := map_eq_some_iff.mp h
    exact .inl (.of_eq rfl rfl)
  | phase1CB d r force => exact .inl (sameAt_handlePhase1CB h)
  | writeback x decision => exact (handleWriteback_spec h).imp_right fun ⟨hq, hrep⟩ => .inr ⟨.writeback hq, hrep⟩
  | supply d info => exact .inl (sameAt_processSuppliedTxn h)
  | thread i =>
    simp only [step, runThread] at h
    split at h
    · rename_i a rest hi
      obtain ⟨res, hrun, rfl⟩ := map_eq_some_iff.mp h
      rcases runAction_spec hs hrun with hsame | hadv | ⟨d, x, rfl, hq, hrep⟩
      · exact .inl (hsame.trans (.of_eq rfl rfl))
      · exact .inr (.inl ⟨trivial, hadv.isSome, hadv.snapshotOf⟩)
      · exact .inr (.inr ⟨.thread hi hq, ⟨hrep.syncedAt, hrep.snapshotOf⟩⟩)
    · cases h

end Server

def Event.SignedBy (c : Nat) (s : Server) : Event → Prop
  | .query m => m.processId = c ∧ m.verifies = true
  | .sync m => m.processId = c ∧ m.verifies = true
  | .writeback x _ => x.timestamp.id = c
  | .thread i => ∃ d x rest, s.threads[i]? = some (.commitWithProof d x :: rest) ∧ x.timestamp.id = c
  | _ => False

/-- Clients name queries of their own only. A hashed id does so for a `Query` message. -/
def OwnQueries (p : Params) (s : Server) : Event → Prop
  | .query m => p.hashDigest = false → m.query.clientId = m.processId
  | .sync m => OwnedBy p m.processId m.mergedSs.queryDigest
  | .writeback x _ => ∀ q ∈ x.querySet, OwnedBy p x.timestamp.id q
  | .thread i => ∀ d x rest, s.threads[i]? = some (.commitWithProof d x :: rest) →
      ∀ q ∈ x.querySet, OwnedBy p x.timestamp.id q
  | _ => True

variable {c : Nat} {e : Event}

theorem signedBy_of_concerns (hq : OwnedBy p c q) (hown : OwnQueries p s e) (h : Concerns p q s e) :
    e.SignedBy c s := by
  cases h with
  | @query m hdig hver =>
    rw [verifyClientQuery, Bool.and_eq_true, beq_iff_eq] at hver
    refine ⟨?_, hver.2⟩
    obtain ⟨query, hc, hts, rfl⟩ := hq
    cases hhash : p.hashDigest with
    | true =>
      simp only [queryDigest, hhash, if_true, QueryId.hash.injEq] at hdig
      rw [← hver.1, hdig.2.2.2.1, hts]
    | false =>
      simp only [queryDigest, hhash, Bool.false_eq_true, if_false, QueryId.plain.injEq] at hdig
      rw [← hown hhash, hdig.1, hc]
  | @sync m hdig hver => exact ⟨OwnedBy.client_eq hown (hdig ▸ hq), hver⟩
  | writeback hmem => exact (hown q hmem).client_eq hq
  | thread hi hmem => exact ⟨_, _, _, hi, (hown _ _ _ hi q hmem).client_eq hq⟩

/-- The snapshot of a query comes from its client. -/
structure FromClient (c : Nat) (q : QueryId) (past : List Event) (s : Server) : Prop where
  syncedAt : s.SyncedAt q
  snapshotOf : ∀ ss, s.snapshotOf q = some ss →
    ∃ m, .sync m ∈ past ∧ m.processId = c ∧ m.verifies = true ∧ m.mergedSs = ss

theorem FromClient.step {past : List Event} (hq : OwnedBy p c q) (hown : OwnQueries p s e)
    (h : FromClient c q past s) (hstep : s.step p e = some s') : FromClient c q (past ++ [e]) s' := by
  have hold : ∀ ss, s.snapshotOf q = some ss →
      ∃ m, .sync m ∈ past ++ [e] ∧ m.processId = c ∧ m.verifies = true ∧ m.mergedSs = ss := by
    intro ss hss
    obtain ⟨m, hmem, hm⟩ := h.snapshotOf ss hss
    exact ⟨m, List.mem_append_left _ hmem, hm⟩
  rcases step_spec h.syncedAt hstep with hsame | ⟨-, hadv⟩ | ⟨hcon, hrep⟩
  · exact ⟨hsame.syncedAt h.syncedAt, fun ss hss => hold ss (hsame.snapshotOf ▸ hss)⟩
  · exact ⟨hadv.syncedAt, fun ss hss => hold ss (hadv.snapshotOf ▸ hss)⟩
  · refine ⟨hrep.syncedAt, fun ss hss => ?_⟩
    rcases hrep.snapshotOf ss hss with hss | hnew
    · exact hold ss hss
    have hsigned := signedBy_of_concerns hq hown hcon
    cases e with
    | sync m =>
      cases hnew
      exact ⟨m, List.mem_append_right _ (List.mem_singleton_self _), hsigned.1, hsigned.2, rfl⟩
    | _ => cases hnew

def signedParams : Params where
  optimisticTxID := false
  signClientProposals := true
  hashDigest := true
  transactionDigest := fun x => [UInt8.ofNat x.clientId, UInt8.ofNat x.clientSeqNum]

def ownQuery : Query := { clientId := 1, querySeqNum := 1, queryCmd := [7], timestamp := ⟨4096, 1⟩ }

def ownQueryId : QueryId := queryDigest true ownQuery

def syncFrom (client : Nat) : SyncClientProposal :=
  { mergedSs := { queryDigest := ownQueryId, clientId := client, querySeqNum := 1 }
    processId := client
    verifies := true }

def claimingTxn : Txn :=
  { clientId := 2, clientSeqNum := 1, timestamp := ⟨8192, 2⟩, lastQuerySeq := some 1, querySet := [ownQueryId] }

end Pequin.QueryServer
