import Pequin.Proof.Phantoms
import Pequin.Proof.QueryResults

/-!
# Table versions of eager queries

Replicas that execute a query eagerly may report different table versions with the same reads. The shard client keeps
the least version of each predicate, and on the reply that completes the quorum sets the versions that go into the
transaction. It assigns the id twice: first the id, then the timestamp of the least version. The timestamp remains that
of the last reply.
-/

namespace Pequin

open Function Option PendingQuery QueryClient Watermarks

variable {p : QueryParams} {r : QueryResult} {q q' : PendingQuery} {m : SignedBytes} {s s' : QueryClient}
  {es : List QueryEvent}

/-! ## The least version -/

section Least

variable {α : Type} [LinearOrder α] {l : List α} {o : Option α} {v : α}

/-- `o` is the least element of the list, if there is one. -/
def LeastOf (l : List α) (o : Option α) : Prop := o.elim (l = []) (IsLeast { v | v ∈ l })

def lower (o : Option α) (v : α) : α := o.elim v fun m => if v < m then v else m

theorem LeastOf.lower (h : LeastOf l o) : IsLeast { w | w ∈ l ++ [v] } (Pequin.lower o v) := by
  cases o with
  | none =>
    rw [show l = [] from h]
    simp [Pequin.lower]
  | some m =>
    obtain ⟨hm, hle⟩ : IsLeast { w | w ∈ l } m := h
    have hmin : ∀ w, w ∈ l ++ [v] → (if v < m then v else m) ≤ w := by
      intro w hw
      rcases List.mem_append.mp hw with hw | hw
      · split
        · rename_i hlt
          exact hlt.le.trans (hle hw)
        · exact hle hw
      · rw [List.mem_singleton.mp hw]
        split
        · exact le_refl v
        · rename_i hlt
          exact not_lt.mp hlt
    refine ⟨?_, hmin⟩
    show (if v < m then v else m) ∈ l ++ [v]
    split
    · simp
    · exact List.mem_append_left _ hm

end Least

namespace ResultMgr

variable {mgr : ResultMgr}

theorem noteVersion_minTableVersions (idx i : Nat) (v : Timestamp) : (mgr.noteVersion idx v).minTableVersions i =
    if i = idx then some (lower (mgr.minTableVersions idx) v) else mgr.minTableVersions i := by
  unfold noteVersion
  by_cases hi : i = idx
  · subst hi
    simp only [update_self, if_true, lower]
    cases mgr.minTableVersions i <;> rfl
  · simp only [update_of_ne hi, if_neg hi]

theorem noteVersions_minTableVersions (mgr : ResultMgr) (preds : List ReadPredicate) (c : Bool) (idx i : Nat) :
    (mgr.noteVersions c idx preds).1.minTableVersions (idx + i) = (preds[i]?).elim (mgr.minTableVersions (idx + i))
        fun pred => some (lower (mgr.minTableVersions (idx + i)) pred.tableVersion) := by
  induction preds generalizing idx i mgr with
  | nil => rfl
  | cons pred preds ih =>
    cases i with
    | zero =>
      -- later predicates have other indices
      have hlater : ∀ (l : List ReadPredicate) (mgr : ResultMgr) (j : Nat), idx < j →
          (mgr.noteVersions c j l).1.minTableVersions idx = mgr.minTableVersions idx := by
        intro l
        induction l with
        | nil => exact fun _ _ _ => rfl
        | cons pred' l ih' =>
          intro mgr j hj
          show ((mgr.noteVersion j pred'.tableVersion).noteVersions c (j + 1) l).1.minTableVersions idx = _
          rw [ih' _ _ (by omega), noteVersion_minTableVersions, if_neg (by omega)]
      show ((mgr.noteVersion idx pred.tableVersion).noteVersions c (idx + 1) preds).1.minTableVersions idx = _
      rw [hlater _ _ _ (by omega), noteVersion_minTableVersions, if_pos rfl]
      rfl
    | succ i =>
      show ((mgr.noteVersion idx pred.tableVersion).noteVersions c (idx + 1) preds).1.minTableVersions
        (idx + (i + 1)) = _
      rw [show idx + (i + 1) = idx + 1 + i by omega, ih, noteVersion_minTableVersions, if_neg (by omega),
        List.getElem?_cons_succ]

theorem noteVersions_predicates (mgr : ResultMgr) (preds : List ReadPredicate) (idx i : Nat) :
    (mgr.noteVersions true idx preds).2[i]? = (preds[i]?).map fun pred => { pred with
      tableVersion := setVersion (lower (mgr.minTableVersions (idx + i)) pred.tableVersion) pred.tableVersion } := by
  induction preds generalizing idx i mgr with
  | nil => rfl
  | cons pred preds ih =>
    rw [noteVersions]
    cases i with
    | zero =>
      simp only [noteVersion_minTableVersions, if_true, List.getElem?_cons_zero, map_some, Nat.add_zero]
    | succ i =>
      simp only [List.getElem?_cons_succ]
      rw [ih, noteVersion_minTableVersions, if_neg (by omega), show idx + 1 + i = idx + (i + 1) by omega]

theorem count_minTableVersions (hc : p.cacheReadSet = false) (i : Nat) : (mgr.count p true r).1.minTableVersions i =
    (r.sortedReadSet.readPredicates[i]?).elim (mgr.minTableVersions i)
      fun pred => some (lower (mgr.minTableVersions i) pred.tableVersion) := by
  have hnoted (c : Bool) := noteVersions_minTableVersions { mgr with freq := mgr.freq + 1 }
    r.sortedReadSet.readPredicates c 0 i
  simp only [Nat.zero_add] at hnoted
  unfold count
  simp only [hc, Bool.false_eq_true, ↓reduceIte]
  split <;> exact hnoted _

theorem count_predicates (hc : p.cacheReadSet = false) (hq : (mgr.count p true r).1.freq = p.resultQuorum) (i : Nat) :
    ∃ rs, (mgr.count p true r).2 = some rs ∧
      rs.readPredicates[i]? = (r.sortedReadSet.readPredicates[i]?).map fun pred => { pred with
        tableVersion := setVersion (lower (mgr.minTableVersions i) pred.tableVersion) pred.tableVersion } := by
  rw [count_freq] at hq
  have hcomplete : (mgr.freq + 1 == p.resultQuorum) = true := beq_iff_eq.mpr hq
  have hnoted := noteVersions_predicates { mgr with freq := mgr.freq + 1 } r.sortedReadSet.readPredicates 0 i
  simp only [Nat.zero_add] at hnoted
  unfold count
  simp only [hc, Bool.false_eq_true, ↓reduceIte, hcomplete]
  exact ⟨_, rfl, hnoted⟩

end ResultMgr

/-! ## What an eager query has counted -/

/-- Who was heard, and the replies that were counted. -/
structure HeardFrom where
  verified : List Nat := []
  counted : List SignedBytes := []

def HeardFrom.hear (p : QueryParams) (id : Nat) (h : HeardFrom) : QueryEvent → HeardFrom
  | .resultReply reply _ =>
    match reply.signedResult with
    | none => h
    | some m =>
      match m.openResult p with
      | none => h
      | some r =>
        if reply.reqId = id ∧ isReplicaInGroup p.config r.replicaId p.group = true ∧ r.replicaId ∉ h.verified then
          ⟨r.replicaId :: h.verified, h.counted ++ [m]⟩
        else h
  | .failReply reply =>
    match reply.signedFail.bind fun m => m.openFail p with
    | none => h
    | some replicaId =>
      if reply.reqId = id ∧ isReplicaInGroup p.config replicaId p.group = true ∧ replicaId ∉ h.verified then
        { h with verified := replicaId :: h.verified }
      else h
  | _ => h

def heardFrom (p : QueryParams) (id : Nat) (es : List QueryEvent) : HeardFrom := es.foldl (HeardFrom.hear p id) {}

theorem heardFrom_snoc (id : Nat) (e : QueryEvent) : heardFrom p id (es ++ [e]) = (heardFrom p id es).hear p id e := by
  rw [heardFrom, List.foldl_append]
  rfl

def reportedBy (p : QueryParams) (k : Bytes × Bytes) (i : Nat) (m : SignedBytes) : Option Timestamp :=
  (m.openResult p).bind fun r =>
    if r.key p = k then (r.sortedReadSet.readPredicates[i]?).map ReadPredicate.tableVersion else none

def reported (p : QueryParams) (k : Bytes × Bytes) (i : Nat) (l : List SignedBytes) : List Timestamp :=
  l.filterMap (reportedBy p k i)

namespace PendingQuery

variable {h : HeardFrom}

/-- The table versions are the least of those reported. -/
structure Reported (p : QueryParams) (h : HeardFrom) (q : PendingQuery) : Prop where
  verified : q.resultsVerified = h.verified
  least : p.cacheReadSet = false → ∀ k i, LeastOf (reported p k i h.counted) ((q.mgr k).minTableVersions i)

theorem reported_snoc (hopen : m.openResult p = some r) (k : Bytes × Bytes) (i : Nat) (l : List SignedBytes) :
    reported p k i (l ++ [m]) = reported p k i l ++
      if r.key p = k then ((r.sortedReadSet.readPredicates[i]?).map ReadPredicate.tableVersion).toList else [] := by
  rw [reported, List.filterMap_append, List.filterMap_cons, List.filterMap_nil, reportedBy, hopen, bind_some]
  congr 1
  by_cases hk : r.key p = k
  · simp only [if_pos hk]
    cases (r.sortedReadSet.readPredicates[i]?).map ReadPredicate.tableVersion <;> rfl
  · simp only [if_neg hk]

theorem Reported.of_eq (hr : Reported p h q) (hv : q'.resultsVerified = q.resultsVerified)
    (hf : q'.resultFreq = q.resultFreq) : Reported p h q' where
  verified := hv.trans hr.verified
  least hc k i := by
    rw [mgr, hf]
    exact hr.least hc k i

theorem Reported.counted (hr : Reported p h q) (he : q.eagerMode = true) (hopen : m.openResult p = some r) :
    Reported p ⟨r.replicaId :: h.verified, h.counted ++ [m]⟩ (q.counted p r) where
  verified := congrArg (r.replicaId :: ·) hr.verified
  least hc k i := by
    rw [reported_snoc hopen, mgr_counted]
    by_cases hk : k = r.key p
    · rw [if_pos hk, if_pos hk.symm, he, ResultMgr.count_minTableVersions hc, ← hk]
      cases hv : r.sortedReadSet.readPredicates[i]? with
      | none => simpa using hr.least hc k i
      | some pred => exact (hr.least hc k i).lower
    · rw [if_neg hk, if_neg (Ne.symm hk), List.append_nil]
      exact hr.least hc k i

end PendingQuery

namespace QueryClient

variable {id : Nat} {past : List QueryEvent} {e : QueryEvent}

/-- The query with the request `id` has counted what was heard, as long as it is active and in eager
mode. -/
def ReportedAt (p : QueryParams) (id : Nat) (past : List QueryEvent) (s : QueryClient) : Prop :=
  id < s.lastReqId ∧ ∀ q, s.active id = some q → q.eagerMode = true → q.Reported p (heardFrom p id past)

theorem ReportedAt.skip (h : ReportedAt p id past s) (he : heardFrom p id (past ++ [e]) = heardFrom p id past)
    (hid : s.lastReqId ≤ s'.lastReqId) (hact : ∀ q, s'.active id = some q → s.active id = some q) :
    ReportedAt p id (past ++ [e]) s' :=
  ⟨h.1.trans_le hid, fun q hq heager => he ▸ h.2 q (hact q hq) heager⟩

theorem ReportedAt.other {reqId : Nat} {x : PendingQuery × Option QueryUpcall} (h : ReportedAt p id past s)
    (hne : id ≠ reqId) (he : heardFrom p id (past ++ [e]) = heardFrom p id past) :
    ReportedAt p id (past ++ [e]) (s.update reqId x) :=
  h.skip he (le_refl _) fun q hq => by rwa [active_update, if_neg hne] at hq

theorem heardFrom_other (h : e.reqId ≠ some id) : heardFrom p id (past ++ [e]) = heardFrom p id past := by
  rw [heardFrom_snoc]
  cases e with
  | resultReply reply merged =>
    have hid : reply.reqId ≠ id := fun he => h (congrArg some he)
    simp only [HeardFrom.hear, hid, false_and, if_false]
    split <;> [rfl; split <;> rfl]
  | failReply reply =>
    have hid : reply.reqId ≠ id := fun he => h (congrArg some he)
    simp only [HeardFrom.hear, hid, false_and, if_false]
    split <;> rfl
  | _ => rfl

theorem heardFrom_resultReply {reply : QueryResultReply} {merged : Bool}
    (hv : q.resultsVerified = (heardFrom p id past).verified) (heager : q.eagerMode = true)
    (hid : reply.reqId = id) (hm : reply.signedResult = some m) (hopen : m.openResult p = some r) :
    heardFrom p id (past ++ [.resultReply reply merged]) =
      if q.counts p r = true then ⟨r.replicaId :: (heardFrom p id past).verified, (heardFrom p id past).counted ++ [m]⟩
      else heardFrom p id past := by
  rw [heardFrom_snoc, HeardFrom.hear]
  simp only [hm, hopen, hid, true_and, counts, heager, hv]
  congr 1
  simp

theorem heardFrom_failReply {reply : FailQuery} (hm : reply.signedFail = some m) :
    heardFrom p id (past ++ [.failReply reply]) = (m.openFail p).elim (heardFrom p id past) fun replicaId =>
        if reply.reqId = id ∧ isReplicaInGroup p.config replicaId p.group = true ∧
            replicaId ∉ (heardFrom p id past).verified then
          { heardFrom p id past with verified := replicaId :: (heardFrom p id past).verified }
        else heardFrom p id past := by
  rw [heardFrom_snoc, HeardFrom.hear]
  simp only [hm, bind_some]
  cases m.openFail p <;> rfl

theorem ReportedAt.step (h : ReportedAt p id past s) (hs : step p s e = some s') :
    ReportedAt p id (past ++ [e]) s' := by
  rcases step_cases hs with ⟨hnone, -, hle, hkeep⟩ | ⟨reqId, hreq, hcase⟩
  · refine h.skip (heardFrom_other (by rw [hnone]; nofun)) hle fun q hq => ?_
    obtain ⟨hq, hdone⟩ := filter_eq_some_iff.mp hq
    exact filter_eq_some_iff.mpr ⟨(hkeep id q hq).resolve_right fun hnew => h.1.ne hnew.1, hdone⟩
  by_cases hid : reqId = id
  · subst hid
    refine ⟨?_, fun q₁ hq₁ heager => ?_⟩
    · rcases hcase with ⟨-, rfl⟩ | ⟨q, x, -, -, rfl⟩
      · exact h.1
      · exact h.1
    rcases hcase with ⟨hinactive, rfl⟩ | ⟨q, x, hq, hx, rfl⟩
    · rw [hinactive] at hq₁
      cases hq₁
    rw [active_update, if_pos rfl] at hq₁
    obtain ⟨hq₁, hdone⟩ := filter_eq_some_iff.mp hq₁
    cases e with
    | resultReply reply merged =>
      obtain ⟨q', up⟩ := x
      obtain ⟨m, hm, hhandle⟩ := hx
      have hrid : reply.reqId = reqId := some.inj hreq
      obtain rfl : q' = q₁ := some.inj hq₁
      rcases handleQueryResult_cases hhandle with ⟨rfl, -, hnot⟩ | ⟨r, hopen, hc, hcase⟩
      · have hrep := h.2 _ hq heager
        cases hopen : m.openResult p with
        | none =>
          rw [heardFrom_snoc, HeardFrom.hear]
          simpa only [hm, hopen] using hrep
        | some r =>
          rw [heardFrom_resultReply hrep.verified heager hrid hm hopen, hnot r hopen, if_neg Bool.false_ne_true]
          exact hrep
      · rcases hcase with ⟨rfl, -, -⟩ | ⟨hmoves, -⟩
        · cases hdone
        rcases hmoves.kept with ⟨hv, hf, he⟩ | ⟨-, -, he⟩
        · have hold : q.eagerMode = true := he.symm.trans heager
          have hrep := h.2 q hq hold
          rw [heardFrom_resultReply hrep.verified hold hrid hm hopen, if_pos hc]
          exact (hrep.counted hold hopen).of_eq hv hf
        · rw [he] at heager
          cases heager
    | failReply reply =>
      obtain ⟨m, hm, rfl⟩ := hx
      have hrid : reply.reqId = reqId := some.inj hreq
      obtain rfl : (q.handleFailQuery p reply.reqId m).1 = q₁ := some.inj hq₁
      rw [heardFrom_failReply hm]
      rcases handleFailQuery_cases p q reply.reqId m with ⟨he, hnot⟩ | ⟨replicaId, ho, hg, hnew, he⟩
      · rw [he] at heager ⊢
        have hrep := h.2 q hq heager
        cases ho : m.openFail p with
        | none => exact hrep
        | some replicaId =>
          rw [elim_some, if_neg fun hc => hc.2.2 (hrep.verified ▸ hnot replicaId ho hc.2.1)]
          exact hrep
      · rw [he] at heager ⊢
        have hrep := h.2 q hq heager
        rw [ho, elim_some, if_pos ⟨hrid, hg, hrep.verified ▸ hnew⟩]
        exact ⟨congrArg (replicaId :: ·) hrep.verified, hrep.least⟩
    | syncReply _ merged =>
      cases hx
      obtain rfl : q.checkSyncStart p merged = q₁ := some.inj hq₁
      rcases (moves_checkSyncStart (p := p) q).kept with ⟨hv, hf, he⟩ | ⟨-, -, he⟩
      · have hrep := h.2 q hq (he.symm.trans heager)
        rw [heardFrom_snoc]
        exact hrep.of_eq hv hf
      · rw [he] at heager
        cases heager
    | _ => exact hx.elim
  · have hsame : heardFrom p id (past ++ [e]) = heardFrom p id past :=
      heardFrom_other fun he => hid (some.inj (hreq.symm.trans he))
    rcases hcase with ⟨-, rfl⟩ | ⟨q, x, -, -, rfl⟩
    · exact h.skip hsame le_rfl fun q hq => hq
    · exact h.other (Ne.symm hid) hsame

theorem reportedAt_of_query {querySeqNum : Nat} (hrun : Run.exec (step p) s (.query querySeqNum :: es) = some s') :
    ReportedAt p s.lastReqId es s' := by
  obtain ⟨s₁, hquery, hrest⟩ := Run.exec_cons hrun
  cases hquery
  rw [← List.nil_append es]
  refine Run.exec_history_of_meets (fun h _ hs => ReportedAt.step h hs) ?_ (Run.meets_true _ es) hrest
  refine ⟨Nat.lt_succ_self _, fun q hq _ => ?_⟩
  obtain ⟨hq, -⟩ := active_eq_some hq
  simp only [update_self, some.injEq] at hq
  rw [← hq]
  exact ⟨rfl, fun _ _ _ => rfl⟩

end QueryClient

/-! ## The handed version -/

/-- The predicates that go into the transaction. With `cacheReadSet` the client keeps the hash only. -/
def QueryUpcall.predicates (p : QueryParams) (u : QueryUpcall) : List ReadPredicate :=
  if p.cacheReadSet then [] else u.readSet.elim [] fun rs => rs.readPredicates

section Handed

variable {s₁ s₂ : QueryClient} {querySeqNum i : Nat} {reply : QueryResultReply} {merged : Bool} {u : QueryUpcall}
  {pred : ReadPredicate}

theorem handed_version_eq (hrun : Run.exec (step p) s (.query querySeqNum :: es) = some s₁)
    (hq : s₁.active s.lastReqId = some q) (heager : q.eagerMode = true) (hid : reply.reqId = s.lastReqId)
    (hsigned : reply.signedResult = some m) (hopen : m.openResult p = some r)
    (hs : step p s₁ (.resultReply reply merged) = some s₂)
    (hup : s₂.upcalls = s₁.upcalls ++ [u]) (hok : u.success = true) (hpred : (u.predicates p)[i]? = some pred) :
    ∃ last least, r.sortedReadSet.readPredicates[i]? = some last ∧ IsLeast { v | v ∈ reported p (r.key p) i
        (heardFrom p s.lastReqId (es ++ [.resultReply reply merged])).counted } least ∧
      pred = { last with tableVersion := ⟨last.tableVersion.timestamp, least.timestamp⟩ } := by
  have hrep := (reportedAt_of_query hrun).2 q hq heager
  obtain ⟨reply', merged', q₀, m', q', he, hq₀, hm', hhandle⟩ := step_success hs hup hok
  cases he
  rw [hid, hq, some.injEq] at hq₀
  rw [hsigned, some.injEq] at hm'
  subst hq₀ hm'
  rcases handleQueryResult_cases hhandle with ⟨-, hnone, -⟩ | ⟨r', hopen', hc, hcase⟩
  · cases hnone
  rw [hopen, some.injEq] at hopen'
  subst hopen'
  rcases hcase with ⟨-, hfreq, hu⟩ | ⟨-, hfail⟩
  · cases hu
    cases hcache : p.cacheReadSet with
    | true =>
      rw [QueryUpcall.predicates, hcache] at hpred
      cases hpred
    | false =>
      rw [heager] at hfreq
      obtain ⟨rs, hrs, hrspreds⟩ := ResultMgr.count_predicates hcache hfreq i
      rw [QueryUpcall.predicates, hcache, if_neg Bool.false_ne_true] at hpred
      simp only [heager, hrs, elim_some, hrspreds] at hpred
      obtain ⟨last, hlast, rfl⟩ := map_eq_some_iff.mp hpred
      refine ⟨last, _, hlast, ?_, rfl⟩
      rw [heardFrom_resultReply hrep.verified heager hid hsigned hopen, if_pos hc,
        reported_snoc hopen, if_pos rfl, hlast]
      exact (hrep.least hcache (r.key p) i).lower
  · rw [(hfail u rfl).1] at hok
    cases hok

/-- The least version was reported, so it is handed up exactly if it has the last timestamp for timestamp and id. -/
theorem isLeast_handed_iff {S : Set Timestamp} (last : Timestamp) {least : Timestamp} (hleast : IsLeast S least) :
    IsLeast S ⟨last.timestamp, least.timestamp⟩ ↔ IsLeast S ⟨last.timestamp, last.timestamp⟩ := by
  constructor
  · intro h
    have he := h.unique hleast
    have hts : last.timestamp = least.timestamp := by rw [← he]
    rwa [← hts] at h
  · intro h
    rwa [← congrArg Timestamp.timestamp (h.unique hleast)]

end Handed

/-! ## The check of the predicate -/

/-- A timestamp of the clock: its microseconds are less than a second. -/
def Timestamp.OfClock (ts : Timestamp) : Prop := ts.timestamp % 2 ^ 32 / 2 ^ 12 < 1000000
  deriving Decidable

theorem tsToUS_mono {v ts : Timestamp} (hv : v.OfClock) (h : v < ts) : tsToUS v.timestamp ≤ tsToUS ts.timestamp := by
  have hle : v.timestamp ≤ ts.timestamp := by
    rw [Timestamp.lt_iff] at h
    split at h
    · rename_i heq
      exact heq.le
    · exact h.le
  unfold Timestamp.OfClock at hv
  unfold tsToUS
  omega

theorem olderThan_eq_false {grace : Nat} {v ts : Timestamp} (hv : v.OfClock) (h : v < ts)
    (hg : tsToUS ts.timestamp + grace * 1000 < 2 ^ 64) : olderThan grace v ts = false := by
  have hmono := tsToUS_mono hv h
  rw [olderThan, Nat.mod_eq_of_lt hg, decide_eq_false_iff_not]
  omega

/-- A write newer than the version of the predicate is examined, unless it is the first of the table. -/
theorem mem_examined_of_newer {sp : SemanticParams} {tables : TableWrites} {ts : Timestamp} {pred : ReadPredicate}
    {x : RecordedWrite} (hclock : pred.tableVersion.OfClock) (hgrace : ∀ x ∈ recorded tables pred,
      tsToUS x.1.timestamp + (sp.monotonicityGrace + sp.nonMonotonicityGrace) * 1000 < 2 ^ 64)
    (hx : x ∈ recorded tables pred) (hts : x.1 < ts) (hnew : pred.tableVersion < x.1)
    (hfirst : ∃ y ∈ recorded tables pred, y.1 < x.1) : x ∈ examined sp tables ts pred := by
  have hrecent : ∀ y ∈ recorded tables pred, pred.tableVersion < y.1 → sp.beyond pred.tableVersion y.1 = false :=
    fun y hy hlt => olderThan_eq_false hclock hlt (hgrace y hy)
  have hgrace' : tsToUS x.1.timestamp + sp.monotonicityGrace * 1000 < 2 ^ 64 := by
    have hle : sp.monotonicityGrace * 1000 ≤ (sp.monotonicityGrace + sp.nonMonotonicityGrace) * 1000 :=
      Nat.mul_le_mul_right _ (Nat.le_add_right _ _)
    exact (Nat.add_le_add_left hle _).trans_lt (hgrace x hx)
  have hcounts : olderThan sp.monotonicityGrace pred.tableVersion x.1 = false :=
    olderThan_eq_false hclock hnew hgrace'
  refine mem_examined.mpr ⟨⟨hx, hts, hnew.ne', hrecent x hx hnew, ?_⟩, hfirst, fun y hy hlt _ _ => ?_⟩
  · rw [SemanticParams.ignores, hcounts, Bool.false_and]
  · exact hrecent y hy (hnew.trans hlt)

/-- In an accepted eager result, a predicate has the least version that the matching replies report, and its check
examines every newer write, exactly if that version is `⟨t, t⟩` with `t` of the last reply, and the replica has recorded
a write before each of these. -/
theorem handed_version_iff {p : QueryParams} {s s₁ s₂ : QueryClient} {querySeqNum : Nat} (es : List QueryEvent)
    (reply : QueryResultReply) (merged : Bool) {m : SignedBytes} {r : QueryResult} {q : PendingQuery}
    {u : QueryUpcall} (i : Nat) (pred : ReadPredicate) (sp : SemanticParams) (tables : TableWrites) (ts : Timestamp)
    (hrun : Run.exec (QueryClient.step p) s (.query querySeqNum :: es) = some s₁)
    (hq : s₁.active s.lastReqId = some q) (heager : q.eagerMode = true) (hid : reply.reqId = s.lastReqId)
    (hsigned : reply.signedResult = some m) (hopen : m.openResult p = some r)
    (hs : QueryClient.step p s₁ (.resultReply reply merged) = some s₂)
    (hup : s₂.upcalls = s₁.upcalls ++ [u]) (hok : u.success = true) (hpred : (u.predicates p)[i]? = some pred)
    (hclock : ∀ v ∈ reported p (r.key p) i (heardFrom p s.lastReqId (es ++ [.resultReply reply merged])).counted,
      v.OfClock) (hgrace : ∀ x ∈ recorded tables pred,
      tsToUS x.1.timestamp + (sp.monotonicityGrace + sp.nonMonotonicityGrace) * 1000 < 2 ^ 64) :
    (IsLeast { v | v ∈ reported p (r.key p) i
        (heardFrom p s.lastReqId (es ++ [.resultReply reply merged])).counted } pred.tableVersion ∧
      ∀ x ∈ recorded tables pred, x.1 < ts →
        (∃ v ∈ reported p (r.key p) i (heardFrom p s.lastReqId (es ++ [.resultReply reply merged])).counted, v < x.1) →
        x ∈ examined sp tables ts pred) ↔ (∃ last, r.sortedReadSet.readPredicates[i]? = some last ∧
      IsLeast { v | v ∈ reported p (r.key p) i (heardFrom p s.lastReqId (es ++ [.resultReply reply merged])).counted }
        ⟨last.tableVersion.timestamp, last.tableVersion.timestamp⟩) ∧ ∀ x ∈ recorded tables pred, x.1 < ts →
        (∃ v ∈ reported p (r.key p) i (heardFrom p s.lastReqId (es ++ [.resultReply reply merged])).counted, v < x.1) →
        ∃ y ∈ recorded tables pred, y.1 < x.1 := by
  obtain ⟨last, least, hlast, hleast, rfl⟩ :=
    handed_version_eq hrun hq heager hid hsigned hopen hs hup hok hpred
  have hiff := isLeast_handed_iff last.tableVersion hleast
  constructor
  · rintro ⟨hmin, hall⟩
    refine ⟨⟨last, hlast, hiff.mp hmin⟩, fun x hx hts hnew => ?_⟩
    exact (mem_examined.mp (hall x hx hts hnew)).2.1
  rintro ⟨⟨last', hlast', hmin⟩, hall⟩
  rw [hlast, some.injEq] at hlast'
  subst hlast'
  have hmin' := hiff.mpr hmin
  refine ⟨hmin', fun x hx hts hnew => ?_⟩
  obtain ⟨v, hv, hlt⟩ := hnew
  exact mem_examined_of_newer (hclock _ hmin'.1) hgrace hx hts ((hmin'.2 hv).trans_lt hlt)
    (hall x hx hts ⟨v, hv, hlt⟩)

/-! ## Skewed versions -/

def sampleVersion (v : UInt8) : Timestamp :=
  match v with
  | 0 => ⟨20000, 2⟩
  | 1 => ⟨2 ^ 27, 2⟩
  | 2 => ⟨20000, 30000⟩
  | _ => ⟨20000, 20000⟩

/-- A scan of the table `[1]`, with the table version as the last byte of the result message. -/
def eagerQueries : QueryParams :=
  { sampleQueries with
    parseResult := fun
      | [n, c, r, v] => some
        { querySeqNum := n.toNat
          clientId := c.toNat
          replicaId := r.toNat
          queryResult := [42]
          queryReadSet := some ⟨⟨[], [], [⟨[1], sampleVersion v, [[1]]⟩]⟩, []⟩ }
      | _ => none }

/-- Replica `0` has seen the insertion only, `1` later writes. The version is later than the deletion, which the check
does not reach. -/
theorem skewed_version :
    ∃ s₁ s₂ u pred, Run.exec (QueryClient.step eagerQueries) .init [.query 1, resultVote 0 0 1 0] = some s₁ ∧
      (s₁.active 0).any (fun q => q.eagerMode) = true ∧
      QueryClient.step eagerQueries s₁ (resultVote 0 1 1 1) = some s₂ ∧ s₂.upcalls = s₁.upcalls ++ [u] ∧
      u.success = true ∧ (u.predicates eagerQueries)[0]? = some pred ∧
      ¬ IsLeast { v | v ∈ reported eagerQueries ([], [42]) 0
        (heardFrom eagerQueries 0 [resultVote 0 0 1 0, resultVote 0 1 1 1]).counted } pred.tableVersion ∧
      (⟨20000, 2⟩ : Timestamp) ∈ reported eagerQueries ([], [42]) 0
        (heardFrom eagerQueries 0 [resultVote 0 0 1 0, resultVote 0 1 1 1]).counted ∧
      (⟨25000, 3⟩, rowDeleter, true) ∈ recorded (tableAfter [rowInserter, rowDeleter]) pred ∧
      (⟨25000, 3⟩, rowDeleter, true) ∉ examined scanParams (tableAfter [rowInserter, rowDeleter]) ⟨2 ^ 28, 9⟩ pred := by
  have hreported : reported eagerQueries ([], [42]) 0
      (heardFrom eagerQueries 0 [resultVote 0 0 1 0, resultVote 0 1 1 1]).counted = [⟨20000, 2⟩, ⟨2 ^ 27, 2⟩] := by
    decide +kernel
  refine ⟨_, _, _, ⟨[1], ⟨2 ^ 27, 20000⟩, [[1]]⟩, rfl, rfl, rfl, rfl, rfl, rfl, fun hleast => ?_, ?_, ?_, ?_⟩
  · rw [hreported] at hleast
    exact absurd hleast.1 (by decide)
  · rw [hreported]
    decide
  · decide +kernel
  · decide +kernel

theorem handed_version_iff_same :
    ∃ s₁ s₂ u pred, Run.exec (QueryClient.step eagerQueries) .init [.query 1, resultVote 0 0 1 2] = some s₁ ∧
      QueryClient.step eagerQueries s₁ (resultVote 0 1 1 3) = some s₂ ∧ s₂.upcalls = s₁.upcalls ++ [u] ∧
      u.success = true ∧ (u.predicates eagerQueries)[0]? = some pred ∧
      IsLeast { v | v ∈ reported eagerQueries ([], [42]) 0
        (heardFrom eagerQueries 0 [resultVote 0 0 1 2, resultVote 0 1 1 3]).counted } pred.tableVersion ∧
      (⟨25000, 3⟩, rowDeleter, true) ∈ examined scanParams (tableAfter [rowInserter, rowDeleter]) ⟨2 ^ 28, 9⟩ pred := by
  have hreported : reported eagerQueries ([], [42]) 0
      (heardFrom eagerQueries 0 [resultVote 0 0 1 2, resultVote 0 1 1 3]).counted =
        [⟨20000, 30000⟩, ⟨20000, 20000⟩] := by decide +kernel
  have hrec : recorded (tableAfter [rowInserter, rowDeleter]) ⟨[1], ⟨20000, 20000⟩, [[1]]⟩ =
      [(⟨20000, 2⟩, rowInserter, true), (⟨25000, 3⟩, rowDeleter, true)] := by decide +kernel
  refine ⟨_, _, _, ⟨[1], ⟨20000, 20000⟩, [[1]]⟩, rfl, rfl, rfl, rfl, rfl, ?_⟩
  have hversions : ∀ l : List Timestamp, l = [⟨20000, 30000⟩, ⟨20000, 20000⟩] →
      (∀ v ∈ l, v.OfClock) ∧ IsLeast { v | v ∈ l } ⟨20000, 20000⟩ := by
    rintro _ rfl
    refine ⟨by decide, by simp, ?_⟩
    show ∀ v ∈ (_ : List Timestamp), (⟨20000, 20000⟩ : Timestamp) ≤ v
    decide
  have hwrites : ∀ l : List RecordedWrite, l = [(⟨20000, 2⟩, rowInserter, true), (⟨25000, 3⟩, rowDeleter, true)] →
      (∀ x ∈ l, (⟨20000, 20000⟩ : Timestamp) < x.1 → ∃ y ∈ l, y.1 < x.1) ∧ ∀ x ∈ l,
        tsToUS x.1.timestamp + (scanParams.monotonicityGrace + scanParams.nonMonotonicityGrace) * 1000 < 2 ^ 64 := by
    rintro _ rfl
    decide +kernel
  obtain ⟨hclock, hleast⟩ := hversions _ hreported
  obtain ⟨hfirst, hgrace⟩ := hwrites _ hrec
  have hrun : Run.exec (step eagerQueries) .init (.query 1 :: [resultVote 0 0 1 2]) = some _ := rfl
  obtain ⟨hmin, hexamined⟩ := (handed_version_iff [resultVote 0 0 1 2]
    ⟨0, some ⟨[1, 9, 1, 3], 1, [1]⟩⟩ false 0 ⟨[1], ⟨20000, 20000⟩, [[1]]⟩ scanParams
    (tableAfter [rowInserter, rowDeleter]) ⟨2 ^ 28, 9⟩ hrun rfl rfl rfl rfl rfl rfl rfl rfl rfl hclock hgrace).mpr
    ⟨⟨_, rfl, hleast⟩, fun x hx _ hnew => hfirst x hx (by
      obtain ⟨v, hv, hlt⟩ := hnew
      exact (hleast.2 hv).trans_lt hlt)⟩
  exact ⟨hmin, hexamined _ (by rw [hrec]; simp) (by decide) ⟨_, hleast.1, by decide⟩⟩

/-! ## Missed writes -/

/-- The last microsecond within the grace after `low`. -/
def graceEnd (grace : Nat) (low : Timestamp) : Timestamp :=
  ⟨usToTS (tsToUS low.timestamp + grace * 1000 - 1), low.id⟩

section Refined

variable {grace : Nat} {low : Timestamp}

theorem ofClock_graceEnd : (graceEnd grace low).OfClock := by
  show usToTS _ % 2 ^ 32 / 2 ^ 12 < 1000000
  unfold usToTS
  omega

theorem tsToUS_lt (hclock : low.OfClock) (h64 : low.timestamp < 2 ^ 64) :
    tsToUS low.timestamp < 2 ^ 32 * 1000000 := by
  unfold Timestamp.OfClock at hclock
  unfold tsToUS
  omega

theorem tsToUS_graceEnd :
    tsToUS (graceEnd grace low).timestamp = (tsToUS low.timestamp + grace * 1000 - 1) % (2 ^ 32 * 1000000) := by
  show tsToUS (usToTS _) = _
  generalize tsToUS low.timestamp + grace * 1000 - 1 = us
  unfold tsToUS usToTS
  omega

theorem refinePredicateTableVersion_eq (hclock : low.OfClock) (hus : tsToUS low.timestamp < 2 ^ 32 * 1000000)
    (habove : grace * 1000 < tsToUS low.timestamp) (tv : Timestamp) :
    refinePredicateTableVersion grace low tv = min tv (graceEnd grace low) := by
  have hlow : (tsToUS low.timestamp + grace * 1000 + (2 ^ 64 - 1)) % 2 ^ 64 =
      tsToUS low.timestamp + grace * 1000 - 1 := by
    omega
  have hmax : low.timestamp ≠ 2 ^ 64 - 1 := by
    unfold Timestamp.OfClock at hclock
    omega
  refine (if_neg hmax).trans ?_
  rw [hlow, graceEnd]
  generalize usToTS _ = lowTime
  have hlt : (⟨lowTime, low.id⟩ : Timestamp) < tv ↔ lowTime < tv.timestamp ∨ lowTime = tv.timestamp ∧ low.id < tv.id :=
    Prod.Lex.toLex_lt_toLex
  rw [min_comm, min_def_lt]
  exact if_congr hlt.symm rfl rfl

end Refined

/-- The table version does not increase. A write at `low` is admitted exactly if it is not the table version already, or
there is no grace, and no table version is later by its microseconds only. -/
theorem refined_admits_iff (p : SemanticParams) (low tv : Timestamp) (hclock : low.OfClock)
    (h64 : low.timestamp < 2 ^ 64) (habove : p.monotonicityGrace * 1000 < tsToUS low.timestamp)
    (hsum : tsToUS low.timestamp + (p.monotonicityGrace + p.nonMonotonicityGrace) * 1000 < 2 ^ 64) :
    let refined := refinePredicateTableVersion p.monotonicityGrace low tv
    refined ≤ tv ∧ ((low ≠ refined ∧ p.beyond refined low = false ∧ olderThan p.monotonicityGrace refined low = false) ↔
      (tv = low → p.monotonicityGrace = 0 ∨
        2 ^ 32 * 1000000 < tsToUS low.timestamp + p.monotonicityGrace * 1000) ∧
      (tsToUS low.timestamp + p.monotonicityGrace * 1000 < tsToUS tv.timestamp →
        graceEnd p.monotonicityGrace low < tv)) := by
  have hus := tsToUS_lt hclock h64
  have hend : tsToUS (graceEnd p.monotonicityGrace low).timestamp = _ := tsToUS_graceEnd
  have hne : low ≠ graceEnd p.monotonicityGrace low := by
    intro heq
    rw [← heq] at hend
    omega
  have hold (v : Timestamp) : (p.beyond v low = false ∧ olderThan p.monotonicityGrace v low = false) ↔
      tsToUS v.timestamp ≤ tsToUS low.timestamp + p.monotonicityGrace * 1000 := by
    simp only [SemanticParams.beyond, olderThan, decide_eq_false_iff_not]
    omega
  simp only [refinePredicateTableVersion_eq hclock hus habove, hold]
  rcases lt_or_ge (graceEnd p.monotonicityGrace low) tv with hlt | hge
  · rw [min_eq_right hlt.le]
    refine ⟨hlt.le, iff_of_true ⟨hne, by omega⟩ ⟨?_, fun _ => hlt⟩⟩
    rintro rfl
    have hmono := tsToUS_mono ofClock_graceEnd hlt
    omega
  · rw [min_eq_left hge, imp_iff_not hge.not_gt, not_lt]
    refine ⟨le_rfl, and_congr_left' ⟨fun hnot heq => absurd heq.symm hnot, ?_⟩⟩
    rintro himp rfl
    have hmono := tsToUS_mono hclock (lt_of_le_of_ne hge hne)
    have := himp rfl
    omega

/-- The last write of the table is missed: it stays the table version. -/
theorem missed_write_skipped : let low : Timestamp := ⟨1000 * 2 ^ 32, 1⟩
    low.OfClock ∧ scanParams.monotonicityGrace * 1000 < tsToUS low.timestamp ∧
      low = refinePredicateTableVersion scanParams.monotonicityGrace low low := by
  decide +kernel

theorem refined_admits_iff_later : (⟨1000 * 2 ^ 32, 1⟩ : Timestamp) ≠
    refinePredicateTableVersion scanParams.monotonicityGrace ⟨1000 * 2 ^ 32, 1⟩ ⟨2000 * 2 ^ 32, 1⟩ :=
  ((refined_admits_iff scanParams ⟨1000 * 2 ^ 32, 1⟩ ⟨2000 * 2 ^ 32, 1⟩ (by decide +kernel) (by decide +kernel)
    (by decide +kernel) (by decide +kernel)).2.mpr ⟨by decide +kernel, by decide +kernel⟩).1

/-! ## Monotonic writes -/

/-- A version is read, or a write is checked. -/
inductive MonotonicEvent where
  | read (table : Bytes) (version : Timestamp)
  | write (txn : Transaction)

namespace Watermarks

variable {m m' : Watermarks} {txn : Transaction} {table : Bytes} {high : Timestamp}

def step (p : SemanticParams) (m : Watermarks) : MonotonicEvent → Watermarks
  | .read table version => (m.findTableVersion table version).1
  | .write txn => (m.checkMonotonicTableColVersions p txn (txn.tableWrites.map Prod.fst)).2

/-- The parameters of a check that finds these marks. -/
def params (m : Watermarks) (p : SemanticParams) : SemanticParams :=
  { p with nonMonotonic := fun t => decide (t ∈ m.nonMonotonic) }

/-- No table version is taken back, and no mark. -/
structure Rises (m m' : Watermarks) : Prop where
  high : ∀ table v, m.high table = some v → ∃ v', m'.high table = some v' ∧ v ≤ v'
  marks : ∀ t ∈ m.nonMonotonic, t ∈ m'.nonMonotonic

theorem Rises.refl (m : Watermarks) : m.Rises m := ⟨fun _ v h => ⟨v, h, le_rfl⟩, fun _ h => h⟩

theorem Rises.trans {m'' : Watermarks} (h : m.Rises m') (h' : m'.Rises m'') : m.Rises m'' where
  high table v hv := by
    obtain ⟨v₁, hv₁, hle₁⟩ := h.high table v hv
    obtain ⟨v₂, hv₂, hle₂⟩ := h'.high table v₁ hv₁
    exact ⟨v₂, hv₂, hle₁.trans hle₂⟩
  marks t ht := h'.marks t (h.marks t ht)

theorem rises_findTableVersion (version : Timestamp) : m.Rises (m.findTableVersion table version).1 where
  high t v hv := by
    by_cases ht : t = table
    · subst ht
      refine ⟨_, update_self .., ?_⟩
      rw [hv]
      exact le_max_left v version
    · exact ⟨v, (update_of_ne ht ..).trans hv, le_rfl⟩
  marks _ h := h

theorem rises_insert (txn : Transaction) : m.Rises { m with nonMonotonic := m.nonMonotonic.insert txn } where
  high _ v h := ⟨v, h, le_rfl⟩
  marks _ h := List.mem_insert_of_mem h

variable (p : SemanticParams)

theorem rises_check (txn : Transaction) (tables : List Bytes) :
    m.Rises (m.checkMonotonicTableColVersions p txn tables).2 := by
  fun_induction checkMonotonicTableColVersions p txn tables m with
  | case1 => exact .refl _
  | case2 _ _ _ _ ih => exact ih
  | case3 => exact .refl _
  | case4 _ _ _ _ _ _ _ ih => exact (rises_insert txn).trans ih
  | case5 _ _ _ _ _ _ _ ih => exact ih

theorem rises_foldl (es : List MonotonicEvent) : m.Rises (es.foldl (step p) m) := by
  induction es generalizing m with
  | nil => exact .refl m
  | cons e es ih =>
    cases e with
    | read table version => exact (rises_findTableVersion version).trans ih
    | write txn => exact (rises_check p txn _).trans ih

/-- A write that passes is within the graces of every table, and marked if the first one is over. -/
theorem graces_of_check {tables : List Bytes} (hok : (m.checkMonotonicTableColVersions p txn tables).1 = true)
    (ht : table ∈ tables) (hhigh : m.high table = some high) :
    graceOver (p.monotonicityGrace + p.nonMonotonicityGrace) high txn.timestamp = false ∧
      (graceOver p.monotonicityGrace high txn.timestamp = true →
        txn ∈ (m.checkMonotonicTableColVersions p txn tables).2.nonMonotonic) := by
  fun_induction checkMonotonicTableColVersions p txn tables m with
  | case1 => cases ht
  | case2 t ts m hnone ih =>
    rcases List.mem_cons.mp ht with rfl | ht
    · rw [hnone] at hhigh
      cases hhigh
    · exact ih hok ht hhigh
  | case3 => cases hok
  | case4 t ts m v hv hboth hfirst ih =>
    rcases List.mem_cons.mp ht with rfl | ht
    · cases hv.symm.trans hhigh
      exact ⟨Bool.not_eq_true _ ▸ hboth, fun _ => (rises_check p txn ts).marks txn List.mem_insert_self⟩
    · exact ih hok ht hhigh
  | case5 t ts m v hv hboth hfirst ih =>
    rcases List.mem_cons.mp ht with rfl | ht
    · cases hv.symm.trans hhigh
      exact ⟨Bool.not_eq_true _ ▸ hboth, fun h => absurd h hfirst⟩
    · exact ih hok ht hhigh

end Watermarks

theorem olderThan_of_graceOver {grace : Nat} {v high ts : Timestamp} (hv : v.OfClock) (hle : v ≤ high)
    (h : graceOver grace high ts = false) : olderThan grace v ts = false := by
  have hus : tsToUS v.timestamp ≤ tsToUS high.timestamp := by
    rcases hle.eq_or_lt with rfl | hlt
    · exact le_rfl
    · exact tsToUS_mono hv hlt
  rw [graceOver, decide_eq_false_iff_not] at h
  rw [olderThan, decide_eq_false_iff_not]
  omega

/-- A write that passes the check after a table version was read is in the window of every predicate with that version,
or one before, whatever happens in between and later. -/
theorem later_write_in_window (p : SemanticParams) (m : Watermarks) (es es' : List MonotonicEvent)
    (tables : TableWrites) (pred : ReadPredicate) (version ts : Timestamp) (txn : Transaction) (committed : Bool)
    (hclock : pred.tableVersion.OfClock) (hle : pred.tableVersion ≤ (m.findTableVersion pred.tableName version).2)
    (hok : ((es.foldl (step p) (m.findTableVersion pred.tableName version).1).checkMonotonicTableColVersions p
      txn (txn.tableWrites.map Prod.fst)).1 = true) (hwrites : pred.tableName ∈ txn.tableWrites.map Prod.fst)
    (hrec : (txn.timestamp, txn, committed) ∈ recorded tables pred) (hbefore : txn.timestamp < ts)
    (hother : txn.timestamp ≠ pred.tableVersion) :
    InWindow (((MonotonicEvent.write txn :: es').foldl (step p) (es.foldl (step p)
      (m.findTableVersion pred.tableName version).1)).params p) tables ts pred (txn.timestamp, txn, committed) := by
  have hread : (m.findTableVersion pred.tableName version).1.high pred.tableName =
      some (m.findTableVersion pred.tableName version).2 := update_self ..
  obtain ⟨v, hv, hlev⟩ := (rises_foldl p es).high _ _ hread
  obtain ⟨hboth, hfirst⟩ := graces_of_check p hok hwrites hv
  refine ⟨hrec, hbefore, hother, olderThan_of_graceOver hclock (hle.trans hlev) hboth, ?_⟩
  rw [SemanticParams.ignores, Bool.and_eq_false_iff]
  cases hover : graceOver p.monotonicityGrace v txn.timestamp with
  | false => exact .inl (olderThan_of_graceOver hclock (hle.trans hlev) hover)
  | true =>
    have hmark := (rises_foldl p es').marks txn (hfirst hover)
    exact .inr (Bool.not_eq_false' .. ▸ decide_eq_true hmark)

/-- The table version is `15` ms after the write, which is marked. -/
theorem later_write_in_window_marked :
    let pred : ReadPredicate := ⟨[1], ⟨15000 * 2 ^ 12, 5⟩, [[1]]⟩
    InWindow ((step scanParams (({} : Watermarks).findTableVersion [1] pred.tableVersion).1
      (.write rowInserter)).params scanParams) (tableAfter [rowInserter]) ⟨16000 * 2 ^ 12, 1⟩ pred
      (rowInserter.timestamp, rowInserter, true) :=
  later_write_in_window scanParams {} [] [] _ ⟨[1], ⟨15000 * 2 ^ 12, 5⟩, [[1]]⟩ ⟨15000 * 2 ^ 12, 5⟩ _ rowInserter true
    (by decide +kernel) (by decide +kernel) (by decide +kernel) (by decide +kernel) (by decide +kernel)
    (by decide +kernel) (by decide +kernel)

end Pequin
