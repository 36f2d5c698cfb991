import Pequin.Proof.Materialization

/-!
# The ids of a snapshot

Every id of the snapshot of a query that waits is accounted for (`Accounted`): `ProcessSync` still has to look at it,
it is missing, it is being translated from a timestamp, or it is materialized. `Inv` says so of every query of a
replica, for the actions that its threads have yet to do, and says that the snapshots which queries were executed on
are materialized.
-/

namespace Pequin.QueryServer

open Function List Option QueryMetaData QueryServer.Server

variable {p : Params} {t t' : TxnState} {pend pend' : Action → Prop} {r : RetryId} {ss : MergedSnapshot}
  {md md' : QueryMetaData} {m m' : MissingTxns} {d : Digest} {s₁ : Server}

/-- A transaction is aborted, or in the snapshot executed on with its table writes applied. -/
def Denotes (p : Params) (t : TxnState) (txns : List Digest) (d : Digest) : Prop :=
  d ∈ t.aborted ∨ d ∈ txns ∧ t.Applied p d

theorem Denotes.mono {txns : List Digest} (h : Denotes p t txns d) (hg : t.Grows t') : Denotes p t' txns d := by
  rcases h with hab | ⟨hmem, happ⟩
  · exact .inl (hg.aborted d hab)
  · exact (hg.aborted_or_applied (.inr happ)).imp_right fun happ => ⟨hmem, happ⟩

def Execution.Materialized (p : Params) (t : TxnState) (x : Execution) : Prop :=
  ∀ ss txns, x.snapshot = some (ss, txns) → (∀ d ∈ ss.mergedTxns, Denotes p t txns d) ∧
      ∀ ts ∈ ss.mergedTs, ∃ d, t.tsToTx ts = some d ∧ Denotes p t txns d

theorem Execution.Materialized.mono {x : Execution} (h : x.Materialized p t) (hg : t.Grows t') :
    x.Materialized p t' := by
  intro ss txns hx
  obtain ⟨htxns, hts⟩ := h ss txns hx
  refine ⟨fun d hd => (htxns d hd).mono hg, fun ts hmem => ?_⟩
  obtain ⟨d, hd, hden⟩ := hts ts hmem
  exact ⟨d, hg.tsToTx ts d hd, hden.mono hg⟩

def QueryMetaData.uncheckedTxns (md : QueryMetaData) : List Digest := (md.unchecked.getD ([], [])).1

def QueryMetaData.uncheckedTs (md : QueryMetaData) : List Nat := (md.unchecked.getD ([], [])).2

/-- The snapshot has ids of the kind that `ProcessSync` looks at for the query. -/
def Fits (ss : MergedSnapshot) (md : QueryMetaData) : Prop :=
  if md.useOptimisticTxId then ss.mergedTxns = [] else ss.mergedTs = []
  deriving Decidable

/-- A transaction is missing or materialized, and it is in the snapshot unless it is aborted. -/
structure Tracked (t : TxnState) (txns : List Digest) (m : MissingTxns) (d : Digest) : Prop where
  found : d ∈ m.missingTxns ∨ d ∈ t.materialized
  kept : d ∈ txns ∨ d ∈ t.aborted

/-- The ids of the snapshot of a query that waits. -/
structure Accounted (t : TxnState) (pend : Action → Prop) (r : RetryId) (ss : MergedSnapshot) (md : QueryMetaData)
    (m : MissingTxns) : Prop where
  kept : ∀ d ∈ ss.mergedTxns, d ∈ md.mergedTxns ∨ d ∈ t.aborted
  mergedTxns : (md.unchecked.isSome = true ∧ md.useOptimisticTxId = true) ∨
    ∀ d ∈ ss.mergedTxns, d ∈ md.uncheckedTxns ∨ d ∈ m.missingTxns ∨ d ∈ t.materialized
  mergedTs : (md.unchecked.isSome = true ∧ md.useOptimisticTxId = false) ∨
    ∀ ts ∈ ss.mergedTs, ts ∈ md.uncheckedTs ∨ ts ∈ m.missingTs ∨ (∃ d b, pend (.translateTS ts d b r)) ∨
      ∃ d, t.tsToTx ts = some d ∧ Tracked t md.mergedTxns m d

/-- No id gets lost. -/
structure Moves (t t' : TxnState) (pend pend' : Action → Prop) (r : RetryId) (md md' : QueryMetaData)
    (m m' : MissingTxns) : Prop where
  grows : t.Grows t'
  mergedTxns : ∀ d ∈ md.mergedTxns, d ∈ md'.mergedTxns ∨ d ∈ t'.aborted
  missingTxns : ∀ d ∈ m.missingTxns, d ∈ m'.missingTxns ∨ d ∈ t'.materialized
  missingTs : ∀ ts ∈ m.missingTs, ts ∈ m'.missingTs ∨ ∃ d b, pend' (.translateTS ts d b r)
  translateTS : ∀ ts d b, pend (.translateTS ts d b r) →
    pend' (.translateTS ts d b r) ∨ t'.tsToTx ts = some d ∧ Tracked t' md'.mergedTxns m' d
  uncheckedTxns : ∀ d ∈ md.uncheckedTxns, d ∈ md'.uncheckedTxns ∨ d ∈ m'.missingTxns ∨ d ∈ t'.materialized
  uncheckedTs : ∀ ts ∈ md.uncheckedTs, ts ∈ md'.uncheckedTs ∨ ts ∈ m'.missingTs ∨
    ∃ d, t'.tsToTx ts = some d ∧ Tracked t' md'.mergedTxns m' d

section

variable (h : Moves t t' pend pend' r md md' m m') {d : Digest}
include h

theorem Moves.kept (hd : d ∈ md.mergedTxns ∨ d ∈ t.aborted) : d ∈ md'.mergedTxns ∨ d ∈ t'.aborted :=
  hd.elim (h.mergedTxns d) fun hab => .inr (h.grows.aborted d hab)

theorem Moves.found (hd : d ∈ m.missingTxns ∨ d ∈ t.materialized) : d ∈ m'.missingTxns ∨ d ∈ t'.materialized :=
  hd.elim (h.missingTxns d) fun hmat => .inr (h.grows.materialized d hmat)

theorem Moves.txn (hd : d ∈ md.uncheckedTxns ∨ d ∈ m.missingTxns ∨ d ∈ t.materialized) :
    d ∈ md'.uncheckedTxns ∨ d ∈ m'.missingTxns ∨ d ∈ t'.materialized :=
  hd.elim (h.uncheckedTxns d) fun hd => .inr (h.found hd)

theorem Moves.timestamp {ts : Nat}
    (hts : ts ∈ md.uncheckedTs ∨ ts ∈ m.missingTs ∨ (∃ d b, pend (.translateTS ts d b r)) ∨
      ∃ d, t.tsToTx ts = some d ∧ Tracked t md.mergedTxns m d) :
    ts ∈ md'.uncheckedTs ∨ ts ∈ m'.missingTs ∨ (∃ d b, pend' (.translateTS ts d b r)) ∨
      ∃ d, t'.tsToTx ts = some d ∧ Tracked t' md'.mergedTxns m' d := by
  rcases hts with hun | hmiss | ⟨d, b, hpend⟩ | ⟨d, hd, htr⟩
  · rcases h.uncheckedTs ts hun with hun | hmiss | hfound
    · exact .inl hun
    · exact .inr (.inl hmiss)
    · exact .inr (.inr (.inr hfound))
  · exact .inr ((h.missingTs ts hmiss).imp_right .inl)
  · rcases h.translateTS ts d b hpend with hpend | hfound
    · exact .inr (.inr (.inl ⟨d, b, hpend⟩))
    · exact .inr (.inr (.inr ⟨d, hfound⟩))
  · exact .inr (.inr (.inr ⟨d, h.grows.tsToTx ts d hd, h.found htr.found, h.kept htr.kept⟩))

theorem Moves.mono {pend'' : Action → Prop} (hp : ∀ a, pend' a → pend'' a) : Moves t t' pend pend'' r md md' m m' :=
  { h with
    missingTs := fun ts hts => (h.missingTs ts hts).imp_right fun ⟨d, b, hd⟩ => ⟨d, b, hp _ hd⟩
    translateTS := fun ts d b hd => (h.translateTS ts d b hd).imp_left (hp _) }

end

theorem Accounted.moves (h : Accounted t pend r ss md m) (hm : Moves t t' pend pend' r md md' m m')
    (hfit : (md.unchecked.isSome = true → md'.unchecked.isSome = true ∧ md'.useOptimisticTxId = md.useOptimisticTxId) ∨
      Fits ss md) : Accounted t' pend' r ss md' m' where
  kept d hd := hm.kept (h.kept d hd)
  mergedTxns := by
    rcases h.mergedTxns with ⟨hun, hopt⟩ | hall
    · rcases hfit with hfit | hfit
      · exact .inl ⟨(hfit hun).1, (hfit hun).2.trans hopt⟩
      · rw [Fits, if_pos hopt] at hfit
        exact .inr (by simp [hfit])
    · exact .inr fun d hd => hm.txn (hall d hd)
  mergedTs := by
    rcases h.mergedTs with ⟨hun, hopt⟩ | hall
    · rcases hfit with hfit | hfit
      · exact .inl ⟨(hfit hun).1, (hfit hun).2.trans hopt⟩
      · rw [Fits, if_neg (by simp [hopt])] at hfit
        exact .inr (by simp [hfit])
    · exact .inr fun ts hts => hm.timestamp (hall ts hts)

theorem MissingTxns.isEmpty_iff : m.isEmpty = true ↔ m.missingTxns = [] ∧ m.missingTs = [] := by
  simp [MissingTxns.isEmpty]

theorem Accounted.materialized (h : Accounted t pend r ss md m) (hs : t.Settled p) (hun : md.unchecked = none)
    (hm : m.isEmpty = true) (hpend : ∀ ts d b, ¬ pend (.translateTS ts d b r)) :
    (∀ d ∈ ss.mergedTxns, Denotes p t md.mergedTxns d) ∧
      ∀ ts ∈ ss.mergedTs, ∃ d, t.tsToTx ts = some d ∧ Denotes p t md.mergedTxns d := by
  obtain ⟨hmt, hms⟩ := MissingTxns.isEmpty_iff.mp hm
  have hden : ∀ d, (d ∈ md.mergedTxns ∨ d ∈ t.aborted) → d ∈ t.materialized → Denotes p t md.mergedTxns d := by
    intro d hkept hmat
    rcases hkept with hmem | hab
    · exact (hs.materialized d hmat).imp_right fun happ => ⟨hmem, happ⟩
    · exact .inl hab
  constructor
  · intro d hd
    have hmat := h.mergedTxns.resolve_left (by simp [hun]) d hd
    rw [uncheckedTxns, hun, hmt] at hmat
    exact hden d (h.kept d hd) (by simpa using hmat)
  · intro ts hmem
    rcases h.mergedTs.resolve_left (by simp [hun]) ts hmem with hts | hmiss | ⟨d, b, hp⟩ | ⟨d, hd, htr⟩
    · simp [uncheckedTs, hun] at hts
    · simp [hms] at hmiss
    · exact absurd hp (hpend ts d b)
    · have hmat := htr.found
      rw [hmt] at hmat
      exact ⟨d, hd, hden d htr.kept (by simpa using hmat)⟩

/-- The metadata of a query, what it misses in its retry version, and the actions that are to wake it. -/
structure Present (t : TxnState) (missing : Nat → Option MissingTxns) (pend : Action → Prop) (q : QueryId)
    (md : QueryMetaData) : Prop where
  versions : ∀ v m, missing v = some m → v = md.retryVersion
  unchecked : md.unchecked.isSome = true → md.isWaiting = true
  hasQuery : md.isWaiting = true → md.hasQuery = true
  accounted : md.isWaiting = true → ∃ ss m, md.mergedSsMsg = some ss ∧ missing md.retryVersion = some m ∧
    Accounted t pend (q, md.retryVersion) ss md m
  woken : ∀ a v, pend a → a.woken = some (q, v) → v < md.retryVersion ∨
    v = md.retryVersion ∧ (missing v).isSome = true ∧ md.unchecked = none
  empty : ∀ d b m, pend (.wakeQuery d b (q, md.retryVersion)) → missing md.retryVersion = some m → m.isEmpty = true

variable {q : QueryId} {missing missing' : Nat → Option MissingTxns}

section

variable (h : Present t missing pend q md)
include h

theorem Present.frame (hg : t.Grows t')
    (hpend : ∀ a v, a.woken = some (q, v) → (pend' a ↔ pend a)) : Present t' missing pend' q md where
  versions := h.versions
  unchecked := h.unchecked
  hasQuery := h.hasQuery
  accounted hw := by
    obtain ⟨ss, m, hss, hm, hacc⟩ := h.accounted hw
    refine ⟨ss, m, hss, hm, hacc.moves ⟨hg, fun _ h => .inl h, fun _ h => .inl h, fun _ h => .inl h,
      fun ts d b hp => .inl ((hpend _ _ rfl).mpr hp), fun _ h => .inl h, fun _ h => .inl h⟩
        (.inl fun hun => ⟨hun, rfl⟩)⟩
  woken a v hp ha := h.woken a v ((hpend a v ha).mp hp) ha
  empty d b m hp := h.empty d b m ((hpend _ _ rfl).mp hp)

theorem Present.idle (hv : md'.retryVersion = md.retryVersion)
    (hun : md'.unchecked = none) (hw : md'.isWaiting = false) : Present t missing pend q md' where
  versions v m hm := (h.versions v m hm).trans hv.symm
  unchecked := by simp [hun]
  hasQuery := by simp [hw]
  accounted := by simp [hw]
  woken a v hp ha := by
    rw [hv]
    exact (h.woken a v hp ha).imp_right fun ⟨hv, hsome, _⟩ => ⟨hv, hsome, hun⟩
  empty := by
    rw [hv]
    exact h.empty

theorem Present.sameSync (hun : md.unchecked = none) (hsame : SameSync md md') : Present t missing pend q md' := by
  cases hw : md'.isWaiting with
  | false => exact h.idle hsame.retryVersion (hsame.unchecked.trans hun) hw
  | true =>
    have hwait : md.isWaiting = true := hsame.isWaiting.symm.trans hw
    obtain ⟨ss, m, hss, hm, hacc⟩ := h.accounted hwait
    have hmoves : Moves t t pend pend (q, md.retryVersion) md md' m m :=
      { grows := .refl t
        mergedTxns := fun d hd => .inl (hsame.mergedTxns ▸ hd)
        missingTxns := fun _ h => .inl h
        missingTs := fun _ h => .inl h
        translateTS := fun _ _ _ h => .inl h
        uncheckedTxns := by simp [uncheckedTxns, hun]
        uncheckedTs := by simp [uncheckedTs, hun] }
    refine ⟨fun v m hm => (h.versions v m hm).trans hsame.retryVersion.symm, fun _ => hw,
      fun _ => hsame.hasQuery (h.hasQuery hwait), fun _ => ⟨ss, m, ?_, ?_, ?_⟩, ?_, ?_⟩
    · exact hsame.mergedSsMsg.trans hss
    · exact hsame.retryVersion ▸ hm
    · exact hsame.retryVersion ▸ hacc.moves hmoves (.inl (by simp [hun]))
    · rw [hsame.retryVersion, hsame.unchecked]
      exact h.woken
    · rw [hsame.retryVersion]
      exact h.empty

theorem Present.restart (hv : md.retryVersion < md'.retryVersion)
    (hmissing : ∀ v m, missing' v = some m → missing v = some m ∧ v ≠ md.retryVersion) (hun : md'.unchecked = none)
    (hw : md'.isWaiting = false) : Present t missing' pend q md' where
  versions v m hm := by
    obtain ⟨hm, hne⟩ := hmissing v m hm
    exact absurd (h.versions v m hm) hne
  unchecked := by simp [hun]
  hasQuery := by simp [hw]
  accounted := by simp [hw]
  woken a v hp ha := by
    left
    rcases h.woken a v hp ha with hlt | ⟨heq, -⟩ <;> omega
  empty d b m _ hm := by
    obtain ⟨hm, -⟩ := hmissing _ m hm
    have := h.versions _ m hm
    omega

end

theorem Present.restarts {s : Server} {v : Nat} (h : Present s.txns (fun v => s.queryMissingTxns (q, v)) pend q md)
    (hun : md.unchecked = none) (hr : Restarts q v s md s₁ md') :
    s₁.txns = s.txns ∧ Present s₁.txns (fun v => s₁.queryMissingTxns (q, v)) pend q md' := by
  cases hr with
  | keep _ hsame => exact ⟨rfl, h.sameSync hun hsame⟩
  | reset hv hsame =>
    refine ⟨rfl, h.restart ?_ (fun v' m hm => ?_) ?_ ?_⟩
    · rw [hsame.retryVersion]
      exact hv
    · by_cases hv' : v' = md.retryVersion
      · subst hv'
        simp [Server.setMissing] at hm
      · have hne : (q, v') ≠ (q, md.retryVersion) := fun heq => hv' (congrArg Prod.snd heq)
        exact ⟨(update_of_ne hne ..).symm.trans hm, hv'⟩
    · exact hsame.unchecked.trans hun
    · exact hsame.isWaiting

theorem Present.startSync (h : Present t missing pend q md) (hnone : missing md.retryVersion = none)
    (hself : missing' md.retryVersion = some {}) (hother : ∀ v, v ≠ md.retryVersion → missing' v = missing v)
    (hq : md.hasQuery = true) : Present t missing' pend q (Server.startSync ss md) where
  versions v m hm := by
    by_contra hv
    exact hv (h.versions v m ((hother v hv).symm.trans hm))
  unchecked _ := rfl
  hasQuery _ := hq
  accounted _ := by
    refine ⟨ss, {}, rfl, hself, fun d hd => .inl hd, ?_, ?_⟩
    · cases hopt : md.useOptimisticTxId with
      | true => exact .inl ⟨rfl, hopt⟩
      | false => exact .inr fun d hd => .inl (by simpa [uncheckedTxns, Server.startSync, hopt] using hd)
    · cases hopt : md.useOptimisticTxId with
      | true => exact .inr fun d hd => .inl (by simpa [uncheckedTs, Server.startSync, hopt] using hd)
      | false => exact .inl ⟨rfl, hopt⟩
  woken a v hp ha := by
    rcases h.woken a v hp ha with hlt | ⟨rfl, hsome, -⟩
    · exact .inl hlt
    · simp [hnone] at hsome
  empty d b m _ hm := by
    cases hself.symm.trans hm
    rfl

/-! ## The replica -/

variable {s s' : Server}

/-- The invariant of one query. -/
structure QueryInv (s : Server) (pend : Action → Prop) (q : QueryId) : Prop where
  present : ∀ md, s.queryMetaData q = some md →
    q ∉ s.alreadyDeleted ∧ Present s.txns (fun v => s.queryMissingTxns (q, v)) pend q md
  absent : s.queryMetaData q = none →
    (∀ v, s.queryMissingTxns (q, v) = none) ∧ ∀ a v, pend a → a.woken = some (q, v) → q ∈ s.alreadyDeleted

theorem QueryInv.frame (h : QueryInv s pend q) (hg : s.txns.Grows s'.txns)
    (hmd : s'.queryMetaData q = s.queryMetaData q)
    (hmissing : ∀ v, s'.queryMissingTxns (q, v) = s.queryMissingTxns (q, v))
    (hdel : q ∈ s'.alreadyDeleted ↔ q ∈ s.alreadyDeleted)
    (hpend : ∀ a v, a.woken = some (q, v) → (pend' a ↔ pend a)) : QueryInv s' pend' q where
  present md hmd' := by
    obtain ⟨hnot, hpres⟩ := h.present md (hmd.symm.trans hmd')
    rw [funext hmissing, hdel]
    exact ⟨hnot, hpres.frame hg hpend⟩
  absent hmd' := by
    obtain ⟨hnone, hwoken⟩ := h.absent (hmd.symm.trans hmd')
    refine ⟨fun v => (hmissing v).trans (hnone v), fun a v hp ha => ?_⟩
    exact hdel.mpr (hwoken a v ((hpend a v ha).mp hp) ha)

theorem QueryInv.of_present (hmd : s.queryMetaData q = some md) (hdel : q ∉ s.alreadyDeleted)
    (h : Present s.txns (fun v => s.queryMissingTxns (q, v)) pend q md) : QueryInv s pend q where
  present md' hmd' := by
    cases hmd.symm.trans hmd'
    exact ⟨hdel, h⟩
  absent hnone := by
    cases hmd.symm.trans hnone

theorem QueryInv.getD (h : QueryInv s pend q) (hdel : q ∉ s.alreadyDeleted) (hun : md.unchecked = none)
    (hw : md.isWaiting = false) :
    Present s.txns (fun v => s.queryMissingTxns (q, v)) pend q ((s.queryMetaData q).getD md) := by
  cases hmd : s.queryMetaData q with
  | some md' => exact (h.present md' hmd).2
  | none =>
    obtain ⟨hnone, hwoken⟩ := h.absent hmd
    have hpend : ∀ a v, pend a → a.woken ≠ some (q, v) := fun a v hp ha => hdel (hwoken a v hp ha)
    refine ⟨fun v m hm => ?_, ?_, ?_, ?_, fun a v hp ha => absurd ha (hpend a v hp), fun d b m hp => ?_⟩
    · cases (hnone v).symm.trans hm
    · simp [hun]
    · simp [hw]
    · simp [hw]
    · exact absurd rfl (hpend _ _ hp)

structure Inv (p : Params) (s : Server) (pend : Action → Prop) : Prop where
  settled : s.txns.Settled p
  sound : ∀ a, pend a → a.Sound p s.txns
  queries : ∀ q, QueryInv s pend q
  executions : ∀ x ∈ s.executions, x.Materialized p s.txns

section

variable (h : Inv p s pend) (hg : s.txns.Grows s'.txns) (hs : s'.txns.Settled p)
include h hg hs

theorem Inv.of_grows (hsound : ∀ a, pend' a → pend a ∨ a.Sound p s'.txns) (hq : ∀ q, QueryInv s' pend' q)
    (hex : ∀ x ∈ s'.executions, x ∈ s.executions ∨ x.Materialized p s'.txns) : Inv p s' pend' where
  settled := hs
  sound a hp := (hsound a hp).elim (fun hp => (h.sound a hp).mono hg) id
  queries := hq
  executions x hx := (hex x hx).elim (fun hx => (h.executions x hx).mono hg) id

theorem Inv.txns (hmd : s'.queryMetaData = s.queryMetaData) (hmissing : s'.queryMissingTxns = s.queryMissingTxns)
    (hdel : s'.alreadyDeleted = s.alreadyDeleted) (hex : s'.executions = s.executions)
    (hnew : ∀ a, pend' a → pend a ∨ a.Sound p s'.txns ∧ a.woken = none)
    (hkeep : ∀ a, pend a → pend' a ∨ a.woken = none) : Inv p s' pend' := by
  refine h.of_grows hg hs (fun a hp => (hnew a hp).imp_right And.left) (fun q => ?_) fun x hx => .inl (hex ▸ hx)
  refine (h.queries q).frame hg (by rw [hmd]) (by simp [hmissing]) (by rw [hdel]) fun a v ha =>
    ⟨fun hp => ?_, fun hp => ?_⟩
  · exact (hnew a hp).resolve_right fun hnone => by simp [ha] at hnone
  · exact (hkeep a hp).resolve_right fun hnone => by simp [ha] at hnone

theorem Inv.query (hmd : ∀ q', q' ≠ q → s'.queryMetaData q' = s.queryMetaData q')
    (hmissing : ∀ q' v, q' ≠ q → s'.queryMissingTxns (q', v) = s.queryMissingTxns (q', v))
    (hdel : ∀ q', q' ≠ q → (q' ∈ s'.alreadyDeleted ↔ q' ∈ s.alreadyDeleted)) (hq : QueryInv s' pend' q)
    (hex : ∀ x ∈ s'.executions, x ∈ s.executions ∨ x.Materialized p s'.txns)
    (hsound : ∀ a, pend' a → pend a ∨ a.Sound p s'.txns)
    (hpend : ∀ a r, a.woken = some r → r.1 ≠ q → (pend' a ↔ pend a)) : Inv p s' pend' := by
  refine h.of_grows hg hs hsound (fun q' => ?_) hex
  by_cases hq' : q' = q
  · exact hq' ▸ hq
  · exact (h.queries q').frame hg (hmd q' hq') (fun v => hmissing q' v hq') (hdel q' hq')
      fun a v ha => hpend a (q', v) ha hq'

end

/-! ## Client messages -/

theorem Inv.setQueryMetaData (h : Inv p s pend) (htxns : s₁.txns = s.txns) (hmd : s₁.queryMetaData = s.queryMetaData)
    (hmissing : ∀ q' v, q' ≠ q → s₁.queryMissingTxns (q', v) = s.queryMissingTxns (q', v))
    (hdel : s₁.alreadyDeleted = s.alreadyDeleted) (hex : ∀ x ∈ s₁.executions, x ∈ s.executions ∨ x.snapshot = none)
    (hnot : q ∉ s.alreadyDeleted) (hpres : Present s₁.txns (fun v => s₁.queryMissingTxns (q, v)) pend q md) :
    Inv p (s₁.setQueryMetaData q md) pend := by
  refine h.query (q := q) (htxns ▸ .refl _) (htxns ▸ h.settled) (fun q' hq' => ?_) hmissing
    (fun q' _ => by rw [← hdel]; rfl)
    (.of_present (setQueryMetaData_self md) (by rw [← hdel] at hnot; exact hnot) hpres) (fun x hx => ?_)
    (fun a hp => .inl hp) fun _ _ _ _ => Iff.rfl
  · rw [setQueryMetaData_of_ne hq', hmd]
  · refine (hex x hx).imp_right fun hnone ss txns hx => ?_
    cases hnone.symm.trans hx

/-- What a message restarts is not touched otherwise. -/
structure Untouched (q : QueryId) (s s₁ : Server) : Prop where
  txns : s₁.txns = s.txns
  queryMetaData : s₁.queryMetaData = s.queryMetaData
  queryMissingTxns : ∀ q' v, q' ≠ q → s₁.queryMissingTxns (q', v) = s.queryMissingTxns (q', v)
  alreadyDeleted : s₁.alreadyDeleted = s.alreadyDeleted
  executions : s₁.executions = s.executions
  threads : s₁.threads = s.threads

theorem Server.Restarts.untouched {v : Nat} (h : Restarts q v s md s₁ md') : Untouched q s s₁ := by
  cases h with
  | keep => exact ⟨rfl, rfl, fun _ _ _ => rfl, rfl, rfl, rfl⟩
  | reset =>
    refine ⟨rfl, rfl, fun q' v' hq' => ?_, rfl, rfl, rfl⟩
    exact update_of_ne (fun heq => hq' (congrArg Prod.fst heq)) ..

theorem Inv.processSync (h : Inv p s pend) (hun : Untouched q s s₁) (hnot : q ∉ s.alreadyDeleted)
    (hpres : Present s₁.txns (fun v => s₁.queryMissingTxns (q, v)) pend q md) (hq : md.hasQuery = true)
    (hsync : s₁.processSync q ss md = some s') : s'.threads = s.threads ∧ Inv p s' pend := by
  obtain ⟨hnone, rfl⟩ := processSync_eq hsync
  refine ⟨hun.threads, h.setQueryMetaData hun.txns hun.queryMetaData (fun q' v hq' => ?_) hun.alreadyDeleted
    (fun x hx => .inl (hun.executions ▸ hx)) hnot (hpres.startSync hnone ?_ (fun v hv => ?_) hq)⟩
  · rw [← hun.queryMissingTxns q' v hq']
    exact update_of_ne (fun heq => hq' (congrArg Prod.fst heq)) ..
  · exact update_self ..
  · exact update_of_ne (fun heq => hv (congrArg Prod.snd heq)) ..

theorem Inv.acceptQuery {msg : QueryRequest} (h : Inv p s pend) (hnot : q ∉ s.alreadyDeleted)
    (hpres : Present s.txns (fun v => s.queryMissingTxns (q, v)) pend q md) (hun : md.unchecked = none)
    (hstep : s.acceptQuery q msg md = some s') : s'.threads = s.threads ∧ Inv p s' pend := by
  obtain ⟨s₁, md₁, hr, hcases⟩ := acceptQuery_cases hstep
  have htouch := hr.untouched
  obtain ⟨-, hpres₁⟩ := hpres.restarts hun hr
  rcases hcases with rfl | ⟨ss, -, hq, hsync⟩ | ⟨e, -, hnone, rfl⟩
  · exact ⟨htouch.threads, h.setQueryMetaData htouch.txns htouch.queryMetaData htouch.queryMissingTxns
      htouch.alreadyDeleted (fun x hx => .inl (htouch.executions ▸ hx)) hnot hpres₁⟩
  · exact h.processSync htouch hnot hpres₁ hq hsync
  · have hex : ∀ x ∈ s₁.executions ++ [e], x ∈ s.executions ∨ x.snapshot = none := by
      intro x hx
      rcases mem_append.mp hx with hx | hx
      · exact .inl (htouch.executions ▸ hx)
      · cases mem_singleton.mp hx
        exact .inr hnone
    have hinv : Inv p (Server.setQueryMetaData { s₁ with executions := s₁.executions ++ [e] } q md₁) pend :=
      h.setQueryMetaData htouch.txns htouch.queryMetaData htouch.queryMissingTxns htouch.alreadyDeleted hex hnot hpres₁
    exact ⟨htouch.threads, hinv⟩

theorem Inv.acceptSync {msg : SyncClientProposal} (h : Inv p s pend)
    (hnot : msg.mergedSs.queryDigest ∉ s.alreadyDeleted)
    (hpres : Present s.txns (fun v => s.queryMissingTxns (msg.mergedSs.queryDigest, v)) pend
      msg.mergedSs.queryDigest md)
    (hun : md.unchecked = none) (hstep : s.acceptSync msg md = some s') : s'.threads = s.threads ∧ Inv p s' pend := by
  obtain ⟨s₁, md₁, hr, hcases⟩ := acceptSync_cases hstep
  have htouch := hr.untouched
  obtain ⟨-, hpres₁⟩ := hpres.restarts hun hr
  rcases hcases with ⟨hq, hsync⟩ | ⟨hq, rfl⟩
  · exact h.processSync htouch hnot hpres₁ hq hsync
  have hw : md₁.isWaiting = false := by
    by_contra hw
    have := hpres₁.hasQuery (by simpa using hw)
    simp [hq] at this
  have hun₁ : md₁.unchecked = none := by
    by_contra hsome
    have := hpres₁.unchecked (isSome_iff_ne_none.mpr hsome)
    simp [hw] at this
  exact ⟨htouch.threads, h.setQueryMetaData htouch.txns htouch.queryMetaData htouch.queryMissingTxns
    htouch.alreadyDeleted (fun x hx => .inl (htouch.executions ▸ hx)) hnot (hpres₁.idle rfl hun₁ hw)⟩

/-! ## Looking at ids -/

namespace Server

variable {d : Digest} {l l' : Locked} {ready : Bool}

section

variable (h : Checks d l l' ready)
include h

theorem Checks.missing_cases : l'.missing = l.missing ∧ d ∈ l.server.txns.materialized ∨
    l'.missing = { l.missing with missingTxns := d :: l.missing.missingTxns } := by
  have hm := h.missing
  cases ready with
  | true => exact .inl hm
  | false => exact .inr hm

theorem Checks.found {d' : Digest} (hd' : d' ∈ d :: l.missing.missingTxns) :
    d' ∈ l'.missing.missingTxns ∨ d' ∈ l.server.txns.materialized := by
  rcases h.missing_cases with ⟨hm, hmat⟩ | hm
  · rw [hm]
    rcases mem_cons.mp hd' with rfl | hd'
    · exact .inr hmat
    · exact .inl hd'
  · rw [hm]
    exact .inl hd'

theorem Checks.missingTs : l'.missing.missingTs = l.missing.missingTs := by
  rcases h.missing_cases with ⟨hm, -⟩ | hm <;> rw [hm]

theorem Checks.grows : l.server.txns.Grows l'.server.txns := by
  obtain ⟨p1, hp1⟩ := h.txns
  rw [hp1]
  exact TxnState.grows_p1MetaData p1

theorem Checks.settled (hs : l.server.txns.Settled p) : l'.server.txns.Settled p := by
  obtain ⟨p1, hp1⟩ := h.txns
  rw [hp1]
  exact TxnState.settled_p1MetaData p1 hs

theorem Checks.moves : Moves l.server.txns l'.server.txns pend pend r l.md l'.md
    { l.missing with missingTxns := d :: l.missing.missingTxns } l'.missing := by
  obtain ⟨p1, hp1⟩ := h.txns
  have hun : l'.md.unchecked = l.md.unchecked := by rw [h.md]
  refine ⟨h.grows, fun d' hd' => ?_, fun d' hd' => ?_, fun ts hts => .inl ?_, fun _ _ _ hp => .inl hp,
    fun d' hd' => .inl ?_, fun ts hts => .inl ?_⟩
  · rw [hp1]
    exact h.mergedTxns d' hd'
  · rw [hp1]
    exact h.found hd'
  · exact h.missingTs ▸ hts
  · rwa [uncheckedTxns, hun]
  · rwa [uncheckedTs, hun]

theorem Checks.newThreads (hs : l.server.txns.Settled p) : ∃ new, l'.server.threads = l.server.threads ++ new ∧
    ∀ a ∈ new.flatten, a.Sound p l'.server.txns ∧ a.woken = none := by
  obtain ⟨new, hthreads, hnew⟩ := h.threads
  refine ⟨new, hthreads, fun a ha => ?_⟩
  obtain ⟨as, has, ha⟩ := mem_flatten.mp ha
  obtain ⟨x, hx, rfl⟩ := hnew as has
  cases mem_singleton.mp ha
  exact ⟨hs.ongoing d x hx, rfl⟩

end

end Server

theorem Present.next (h : Present t missing pend q md) (hv : md'.retryVersion = md.retryVersion)
    (hother : ∀ v, v ≠ md.retryVersion → missing' v = missing v)
    (hun : md'.unchecked.isSome = true → md'.isWaiting = true) (hquery : md'.isWaiting = true → md'.hasQuery = true)
    (hacc : md'.isWaiting = true → ∃ ss m, md'.mergedSsMsg = some ss ∧ missing' md.retryVersion = some m ∧
      Accounted t' pend' (q, md.retryVersion) ss md' m)
    (hold : ∀ a v, a.woken = some (q, v) → v ≠ md.retryVersion → pend' a → pend a)
    (hwoken : ∀ a, pend' a → a.woken = some (q, md.retryVersion) →
      (missing' md.retryVersion).isSome = true ∧ md'.unchecked = none)
    (hempty : ∀ d b m, pend' (.wakeQuery d b (q, md.retryVersion)) → missing' md.retryVersion = some m →
      m.isEmpty = true) : Present t' missing' pend' q md' where
  versions v m hm := by
    by_contra hne
    rw [hv] at hne
    exact hne (h.versions v m ((hother v hne).symm.trans hm))
  unchecked := hun
  hasQuery := hquery
  accounted hw := by
    rw [hv]
    exact hacc hw
  woken a v hp ha := by
    rw [hv]
    by_cases hne : v = md.retryVersion
    · subst hne
      exact .inr ⟨rfl, hwoken a hp ha⟩
    · exact .inl ((h.woken a v (hold a v ha hne hp) ha).resolve_right fun heq => hne heq.1)
  empty := by
    rw [hv]
    exact hempty

theorem Present.not_woken (h : Present t missing pend q md) (hun : md.unchecked.isSome = true) {a : Action}
    (hp : pend a) : a.woken ≠ some (q, md.retryVersion) := by
  intro ha
  rcases h.woken a _ hp ha with hlt | ⟨-, -, hnone⟩
  · omega
  · simp [hnone] at hun

/-- The tables of queries are as before. -/
structure Frames (p : Params) (s s₁ : Server) : Prop where
  queryMetaData : s₁.queryMetaData = s.queryMetaData
  queryMissingTxns : s₁.queryMissingTxns = s.queryMissingTxns
  alreadyDeleted : s₁.alreadyDeleted = s.alreadyDeleted
  executions : s₁.executions = s.executions
  grows : s.txns.Grows s₁.txns
  settled : s₁.txns.Settled p

theorem Server.Checks.frames {l l' : Locked} {ready : Bool} (h : Checks d l l' ready)
    (hs : l.server.txns.Settled p) : Frames p l.server l'.server :=
  ⟨h.queryMetaData, h.queryMissingTxns, h.alreadyDeleted, h.executions, h.grows, h.settled hs⟩

/-- A step starts threads and keeps the invariant. -/
def Spawns (p : Params) (s s' : Server) (pend : Action → Prop) : Prop :=
  ∃ new, s'.threads = s.threads ++ new ∧ Inv p s' fun a => pend a ∨ a ∈ new.flatten

theorem Inv.spawns (h : Inv p s' pend) (hthreads : s'.threads = s.threads) : Spawns p s s' pend :=
  ⟨[], hthreads.trans (append_nil _).symm, by simpa using h⟩

theorem Inv.store {l : Locked} (h : Inv p s pend) (hmd : s.queryMetaData q = some md)
    (hss : md.mergedSsMsg = some ss) (hw : md.isWaiting = true) (hframe : Frames p s l.server)
    (hl : l.md = { md with mergedTxns := l.md.mergedTxns, unchecked := l.md.unchecked })
    (hacc : Accounted l.server.txns pend' (q, md.retryVersion) ss l.md l.missing)
    (hsound : ∀ a, pend' a → pend a ∨ a.Sound p l.server.txns)
    (hpend : ∀ a r, a.woken = some r → r ≠ (q, md.retryVersion) → (pend' a ↔ pend a))
    (hwoken : ∀ a, pend' a → a.woken ≠ some (q, md.retryVersion)) : Inv p (l.store q) pend' := by
  obtain ⟨hnot, hpres⟩ := (h.queries q).present md hmd
  have hv : l.md.retryVersion = md.retryVersion := by rw [hl]
  have hself : (l.store q).queryMissingTxns (q, md.retryVersion) = some l.missing := by
    rw [← hv]
    exact update_self ..
  refine h.query (q := q) hframe.grows hframe.settled (fun q' hq' => ?_) (fun q' v hq' => ?_) (fun q' _ => ?_)
    (.of_present (setQueryMetaData_self _) (fun hmem => hnot (hframe.alreadyDeleted ▸ hmem)) ?_)
    (fun x hx => .inl (hframe.executions ▸ hx)) hsound fun a r ha hr => hpend a r ha fun heq => hr (heq ▸ rfl)
  · exact (setQueryMetaData_of_ne hq' _).trans (congrFun hframe.queryMetaData q')
  · exact (update_of_ne (fun heq => hq' (congrArg Prod.fst heq)) ..).trans (congrFun hframe.queryMissingTxns _)
  · exact iff_of_eq (congrArg (q' ∈ ·) hframe.alreadyDeleted)
  · refine hpres.next hv (fun v hne => ?_) (fun _ => by rw [hl]; exact hw)
      (fun _ => by rw [hl]; exact hpres.hasQuery hw) (fun _ => ⟨ss, l.missing, by rw [hl]; exact hss, hself, hacc⟩)
      (fun a v ha hne => (hpend a (q, v) ha fun heq => hne (congrArg Prod.snd heq)).mp)
      (fun a hp ha => absurd ha (hwoken a hp)) fun d b m' hp => absurd rfl (hwoken _ hp)
    rw [← hv] at hne
    exact (update_of_ne (fun heq => hne (congrArg Prod.snd heq)) ..).trans
      (congrFun hframe.queryMissingTxns (q, v))

theorem Inv.execute (h : Inv p s pend) (hmd : s.queryMetaData q = some md)
    (hframe : Frames p s { s₁ with queryMissingTxns := s.queryMissingTxns })
    (hother : ∀ r, r ≠ (q, md.retryVersion) → s₁.queryMissingTxns r = s.queryMissingTxns r)
    (hv : md'.retryVersion = md.retryVersion) (hun : md'.unchecked = none) (hss : md'.mergedSsMsg = some ss)
    (hmat : (∀ d ∈ ss.mergedTxns, Denotes p s₁.txns md'.mergedTxns d) ∧
      ∀ ts ∈ ss.mergedTs, ∃ d, s₁.txns.tsToTx ts = some d ∧ Denotes p s₁.txns md'.mergedTxns d)
    (hsound : ∀ a, pend' a → pend a ∨ a.Sound p s₁.txns)
    (hpend : ∀ a r, a.woken = some r → r ≠ (q, md.retryVersion) → (pend' a ↔ pend a))
    (hwoken : ∀ a, pend' a → a.woken ≠ some (q, md.retryVersion)) : Inv p (s₁.handleSyncCallback q md') pend' := by
  obtain ⟨hnot, hpres⟩ := (h.queries q).present md hmd
  refine h.query (q := q) hframe.grows hframe.settled (fun q' hq' => ?_)
    (fun q' v hq' => hother _ fun heq => hq' (congrArg Prod.fst heq))
    (fun q' _ => iff_of_eq (congrArg (q' ∈ ·) hframe.alreadyDeleted))
    (.of_present (setQueryMetaData_self _) (fun hmem => hnot (hframe.alreadyDeleted ▸ hmem)) ?_) (fun x hx => ?_)
    hsound fun a r ha hr => hpend a r ha fun heq => hr (heq ▸ rfl)
  · exact (setQueryMetaData_of_ne hq' _).trans (congrFun hframe.queryMetaData q')
  · refine hpres.next hv (fun v hne => hother _ fun heq => hne (congrArg Prod.snd heq)) (by simp [hun]) (by simp)
      (by simp) (fun a v ha hne => (hpend a (q, v) ha fun heq => hne (congrArg Prod.snd heq)).mp)
      (fun a hp ha => absurd ha (hwoken a hp)) fun d b m' hp => absurd rfl (hwoken _ hp)
  · rcases mem_append.mp hx with hx | hx
    · exact .inl (hframe.executions ▸ hx)
    right
    cases mem_singleton.mp hx
    intro ss' txns heq
    simp only [hss, map_some, some.injEq, Prod.mk.injEq] at heq
    obtain ⟨rfl, rfl⟩ := heq
    exact hmat

/-! ## `ProcessSync` -/

theorem or_new_iff {new : List (List Action)} (hnew : ∀ a ∈ new.flatten, a.woken = none) {a : Action}
    (ha : a.woken = some r) : (pend a ∨ a ∈ new.flatten) ↔ pend a :=
  or_iff_left fun hmem => by simp [hnew a hmem] at ha

theorem tracked_translated :
    Tracked t (if d ∈ t.aborted then md else { md with mergedTxns := d :: md.mergedTxns }).mergedTxns
      { m with missingTxns := d :: m.missingTxns } d := by
  refine ⟨.inl mem_cons_self, ?_⟩
  split
  · rename_i hab
    exact .inr hab
  · exact .inl mem_cons_self

theorem Server.setMissing_of_eq (hm : s.queryMissingTxns r = some m) : s.setMissing r (some m) = s := by
  rw [Server.setMissing, update_eq_self_iff.mpr hm.symm]

theorem Inv.process (h : Inv p s pend) (hfits : ∀ md ∈ s.queryMetaData q, ∀ ss ∈ md.mergedSsMsg, Fits ss md)
    (hstep : s.processNext q = some s') : Spawns p s s' pend := by
  obtain ⟨md, m, ds, ts, hmd, hm, hun, hcases⟩ := processNext_cases hstep
  obtain ⟨-, hpres⟩ := (h.queries q).present md hmd
  have hw : md.isWaiting = true := hpres.unchecked (by simp [hun])
  obtain ⟨ss, m', hss, hm', hacc⟩ := hpres.accounted hw
  cases hm.symm.trans hm'
  have hfit : Fits ss md := hfits md hmd ss hss
  have hnot : ∀ a, pend a → a.woken ≠ some (q, md.retryVersion) := fun a => hpres.not_woken (by simp [hun])
  -- `CheckPresence` with the rest of the ids.
  have hcheck : ∀ (d : Digest) (l l' : Locked) (ready : Bool), l.server = s → l.missing = m →
      l.md = { md with mergedTxns := l.md.mergedTxns, unchecked := l.md.unchecked } →
      Moves s.txns s.txns pend pend (q, md.retryVersion) md l.md m { m with missingTxns := d :: m.missingTxns } →
      Checks d l l' ready → Spawns p s (l'.store q) pend := by
    rintro d l l' ready rfl rfl hl hmoves hc
    obtain ⟨new, hthreads, hnew⟩ := hc.newThreads h.settled
    have hnew' : ∀ a ∈ new.flatten, a.woken = none := fun a ha => (hnew a ha).2
    have hacc' := (hacc.moves hmoves (.inr hfit)).moves
      (hc.moves.mono fun a hp => (Or.inl hp : pend a ∨ a ∈ new.flatten)) (.inr (by rw [hl]; exact hfit))
    refine ⟨new, hthreads, h.store hmd hss hw (hc.frames h.settled) ?_ hacc' ?_ ?_ ?_⟩
    · rw [hc.md, hl]
    · exact fun a => Or.imp_right fun ha => (hnew a ha).1
    · exact fun a r ha _ => or_new_iff hnew' ha
    · exact fun a hp ha => hp.elim (fun hp => hnot a hp ha) fun hmem => by simp [hnew' a hmem] at ha
  have hdone : ds = [] → ts = [] → Accounted s.txns pend (q, md.retryVersion) ss { md with unchecked := none } m := by
    rintro rfl rfl
    refine hacc.moves ⟨.refl _, fun _ h => .inl h, fun _ h => .inl h, fun _ h => .inl h, fun _ _ _ h => .inl h,
      fun d' hd' => ?_, fun ts' hts' => ?_⟩ (.inr hfit)
    · simp [uncheckedTxns, hun] at hd'
    · simp [uncheckedTs, hun] at hts'
  rcases hcases with ⟨d, rest, rfl, rfl⟩ | ⟨ts₀, rest, rfl, rfl, rfl⟩ | ⟨rfl, rfl, hempty, rfl⟩ |
    ⟨rfl, rfl, hempty, rfl⟩
  · refine hcheck d _ _ _ rfl rfl rfl ?_ (checkPresence_checks ..)
    refine ⟨.refl _, fun _ h => .inl h, fun d' hd' => .inl (mem_cons_of_mem d hd'), fun _ h => .inl h,
      fun _ _ _ h => .inl h, fun d' hd' => ?_, fun ts' hts' => .inl ?_⟩
    · rw [uncheckedTxns, hun] at hd'
      rcases mem_cons.mp hd' with rfl | hd'
      · exact .inr (.inl mem_cons_self)
      · exact .inl hd'
    · rw [uncheckedTs, hun] at hts'
      exact hts'
  · unfold checkPresenceTS
    cases htx : s.txns.tsToTx ts₀ with
    | some d =>
      refine hcheck d _ _ _ rfl rfl (by split <;> rfl) ?_ (checkPresence_checks ..)
      refine ⟨.refl _, fun d' hd' => .inl ?_, fun d' hd' => .inl (mem_cons_of_mem d hd'), fun _ h => .inl h,
        fun _ _ _ h => .inl h, fun d' hd' => ?_, fun ts' hts' => ?_⟩
      · split
        · exact hd'
        · exact mem_cons_of_mem d hd'
      · simp [uncheckedTxns, hun] at hd'
      · rw [uncheckedTs, hun] at hts'
        rcases mem_cons.mp hts' with rfl | hts'
        · exact .inr (.inr ⟨d, htx, tracked_translated⟩)
        · left
          split <;> exact hts'
    | none =>
      have hmoves : Moves s.txns s.txns pend pend (q, md.retryVersion) md { md with unchecked := some ([], rest) } m
          { m with missingTs := ts₀ :: m.missingTs } := by
        refine ⟨.refl _, fun _ h => .inl h, fun _ h => .inl h, fun ts hts => .inl (mem_cons_of_mem ts₀ hts),
          fun _ _ _ h => .inl h, fun d' hd' => ?_, fun ts' hts' => ?_⟩
        · simp [uncheckedTxns, hun] at hd'
        · rw [uncheckedTs, hun] at hts'
          rcases mem_cons.mp hts' with rfl | hts'
          · exact .inr (.inl mem_cons_self)
          · exact .inl hts'
      refine Inv.spawns (h.store hmd hss hw ⟨rfl, rfl, rfl, rfl, .refl _, h.settled⟩ rfl ?_ ?_ ?_ hnot) rfl
      exacts [hacc.moves hmoves (.inr hfit), fun _ => .inl, fun _ _ _ _ => Iff.rfl]
  · have hmat := (hdone rfl rfl).materialized h.settled rfl hempty fun ts d b hp => hnot _ hp rfl
    exact Inv.spawns (h.execute hmd ⟨rfl, rfl, rfl, rfl, .refl _, h.settled⟩ (fun r hr => update_of_ne hr ..) rfl rfl
      hss hmat (fun _ => .inl) (fun _ _ _ _ => Iff.rfl) hnot) rfl
  · have hstore : s.setQueryMetaData q { md with unchecked := none } =
        (⟨s, { md with unchecked := none }, m⟩ : Locked).store q := by
      rw [Locked.store, setMissing_of_eq hm]
    rw [hstore]
    exact Inv.spawns (h.store hmd hss hw ⟨rfl, rfl, rfl, rfl, .refl _, h.settled⟩ rfl (hdone rfl rfl) (fun _ => .inl)
      (fun _ _ _ _ => Iff.rfl) hnot) rfl

end Pequin.QueryServer
