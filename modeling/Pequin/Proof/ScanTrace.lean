import Pequin.Model.IndexScan
import Pequin.Proof.RowSelection

/-!
# What an index scan leaves in the read set

A scan that is not an implicit point read records its predicate, under the last predicate of the read set. An
implicit point read records no predicate; its key enters the read set if the index finds nothing, or if the
version it reads passes the predicate. A row that is deleted, that fails the predicate, or of which no version
is readable, leaves nothing.
-/

namespace Pequin.IndexScan

open Function List

variable {t : ScanTxn} {plan : Plan} {table : Table} {e : Executor} {rs : ReadSet} {key : Bytes}
  {chain : List RowVersion}
  {v : RowVersion}

section

variable (t plan table e rs key)

def Plan.Keyed (chain : List RowVersion) : Prop :=
  ∀ v ∈ chain, v.isDeleted = false → plan.encodeTableRow v.values = key

def Depends : Prop :=
  ∃ chain, plan.Keyed key chain ∧
    (execute t plan (update table key chain) e rs).visible ≠ (execute t plan table e rs).visible

/-- The read set has the row with the version selected, or the predicate is an instance of one of the table. -/
def Traced : Prop :=
  (∃ m ∈ rs.readSet, m.key = key ∧ m.readtime = (select t (table key)).elim .genesis RowVersion.timestamp) ∨
    ∃ p ∈ rs.readPredicates, p.tableName = plan.tableName ∧ plan.predicate ∈ p.predInstances

/-- The scan is an implicit point read. -/
def Implicit : Prop :=
  (setPredicate t plan e rs).1.isImplicitPointRead = true

end

/-- The index is asked for one primary key. -/
structure Plan.PointLookup (plan : Plan) : Prop where
  primary : plan.isPrimaryIndex = true
  lookup (table : Table) : plan.lookup table = if table plan.pointKey = [] then [] else [plan.pointKey]

theorem mem_extendPredicate {p : ReadPredicate} (h : rs.readPredicates.getLast? = some p) (predicate : Bytes) :
    { p with predInstances := p.predInstances ++ [predicate] } ∈ (extendPredicate predicate rs).readPredicates := by
  simp [extendPredicate, h]

theorem setPredicate_traces (ht : t.Query) (hnot : ¬ Implicit t plan e rs)
    (h : e.firstExecution = true ∨ rs.readPredicates.getLast?.map ReadPredicate.tableName = some plan.tableName) :
    ∃ p ∈ (setPredicate t plan e rs).2.readPredicates,
      p.tableName = plan.tableName ∧ plan.predicate ∈ p.predInstances := by
  have himplicit : e.isImplicitPointRead = false := by
    by_contra hi
    exact hnot (by simp [Implicit, setPredicate, hi])
  simp only [Implicit, setPredicate, ht.1, ht.2, himplicit, Bool.not_true, Bool.or_self, Bool.false_eq_true,
    ↓reduceIte] at hnot ⊢
  cases hfirst : e.firstExecution with
  | true =>
    simp only [hfirst, ↓reduceIte] at hnot ⊢
    split
    · rename_i hpoint
      simp [hpoint] at hnot
    · have hlast : (addPredicate plan.tableName rs).readPredicates.getLast? = some ⟨plan.tableName, .genesis, []⟩ := by
        simp [addPredicate]
      exact ⟨_, mem_extendPredicate hlast _, rfl, by simp⟩
  | false =>
    obtain ⟨p, hlast, htable⟩ := Option.map_eq_some_iff.mp (h.resolve_left (by simp [hfirst]))
    exact ⟨_, mem_extendPredicate hlast _, htable, by simp⟩

theorem evalRead_readPredicates (s : List (Bytes × RowVersion) × ReadSet) :
    (evalRead t plan key s v).2.readPredicates = s.2.readPredicates := by
  unfold evalRead manageReadSet addToReadSet addToDepSet
  split_ifs <;> rfl

theorem scanRow_readPredicates (s : List (Bytes × RowVersion) × ReadSet) :
    (scanRow t plan table s key).2.readPredicates = s.2.readPredicates := by
  unfold scanRow
  induction (checkRow t (table key) {}).1.evaluated generalizing s with
  | nil => rfl
  | cons v vs ih => exact (ih _).trans (evalRead_readPredicates s)

theorem execute_readPredicates :
    (execute t plan table e rs).readSet.readPredicates = (setPredicate t plan e rs).2.readPredicates := by
  have hfold (keys : List Bytes) (s : List (Bytes × RowVersion) × ReadSet) :
      (keys.foldl (scanRow t plan table) s).2.readPredicates = s.2.readPredicates := by
    induction keys generalizing s with
    | nil => rfl
    | cons key keys ih => exact (ih _).trans (scanRow_readPredicates s)
  unfold execute
  simp only
  split
  · show ReadSet.readPredicates (if _ then _ else _) = _
    split <;> rfl
  · exact hfold _ _

def shown (t : ScanTxn) (plan : Plan) (chain : List RowVersion) : Option RowVersion :=
  (select t chain).filter fun v => !v.isDeleted && plan.evaluate v.values

theorem select_nil : select t [] = none := rfl

theorem scanRow_eq (ht : t.Query) (hrs : t.isDeletion = false) : scanRow t plan table ([], rs) key =
    match shown t plan (table key) with
    | some v => ([(key, v)], manageReadSet t plan v rs)
    | none => ([], rs) := by
  rw [scanRow, evaluated_index ht, shown]
  cases hs : select t (table key) with
  | none => rfl
  | some v =>
    have hp := (mem_of_select ht hs).2
    cases hd : v.isDeleted <;> cases hev : plan.evaluate v.values <;>
      simp [evalRead, hp, hd, hev, hrs, Option.filter]

theorem setPredicate_of_implicit (h : Implicit t plan e rs) : (setPredicate t plan e rs).2 = rs := by
  unfold Implicit at h
  unfold setPredicate at h ⊢
  split_ifs at h ⊢ <;> first | rfl | simp_all

theorem isDeletion_of_query (ht : t.Query) : t.isDeletion = false := by
  by_contra h
  have := t.deletion_writes (by simpa using h)
  rw [ht.1] at this
  cases this

theorem execute_implicit (ht : t.Query) (hi : Implicit t plan e rs) (hp : plan.PointLookup) :
    (execute t plan table e rs).visible = (shown t plan (table plan.pointKey)).toList.map (plan.pointKey, ·) ∧
      (execute t plan table e rs).readSet = if table plan.pointKey = [] then addToReadSet plan.pointKey .genesis rs
        else (shown t plan (table plan.pointKey)).elim rs (manageReadSet t plan · rs) := by
  have hdel := isDeletion_of_query ht
  have hflag : (setPredicate t plan e rs).1.isImplicitPointRead = true := hi
  simp only [execute, hp.lookup table, setPredicate_of_implicit hi]
  by_cases hnil : table plan.pointKey = []
  · simp [hnil, hp.primary, hflag, shown, select_nil]
  · simp only [hnil, ↓reduceIte, isEmpty_cons, Bool.false_eq_true, foldl_cons, foldl_nil, scanRow_eq ht hdel]
    cases shown t plan (table plan.pointKey) <;> simp

theorem Depends.eq_pointKey (h : Depends t plan table e rs key) (ht : t.Query) (hi : Implicit t plan e rs)
    (hp : plan.PointLookup) : key = plan.pointKey := by
  by_contra hne
  obtain ⟨chain, -, hdiff⟩ := h
  rw [(execute_implicit ht hi hp).1, (execute_implicit ht hi hp).1, update_of_ne (Ne.symm hne)] at hdiff
  exact hdiff rfl

theorem shown_eq_none (ht : t.Query) (h : ∀ vals, plan.encodeTableRow vals = key → plan.evaluate vals = false)
    (hk : plan.Keyed key chain) : shown t plan chain = none := by
  rw [shown, Option.filter_eq_none_iff]
  intro v hv hshow
  obtain ⟨hdel, hev⟩ : v.isDeleted = false ∧ plan.evaluate v.values = true := by simpa using hshow
  rw [h v.values (hk v (mem_of_select ht hv).1 hdel)] at hev
  cases hev

theorem shown_loaded (ht : t.Query) {vals : List Bytes} (h : plan.evaluate vals = true) :
    shown t plan [⟨.genesis, [], true, false, false, false, vals⟩] =
      some ⟨.genesis, [], true, false, false, false, vals⟩ := by
  have hsel : select t [⟨.genesis, [], true, false, false, false, vals⟩] =
      some ⟨.genesis, [], true, false, false, false, vals⟩ := by
    rw [select_index ht, select_seq ht]
    simp [unpurged, ScanTxn.stopsAt, ScanTxn.reads, Timestamp.genesis_le, Option.filter]
  simp [shown, hsel, Option.filter, h]

theorem readSet_manageReadSet (ht : t.Query) :
    (manageReadSet t plan v rs).readSet = rs.readSet ++ [⟨plan.encodeTableRow v.values, v.timestamp, false⟩] := by
  simp only [manageReadSet, ht.1, ↓reduceIte, addToReadSet, addToDepSet]
  split_ifs <;> rfl

theorem Traced.execute (h : Traced t plan table rs key) (ht : t.Query) (hi : Implicit t plan e rs)
    (hp : plan.PointLookup) : Traced t plan table (execute t plan table e rs).readSet key := by
  rcases h with ⟨m, hm, hkey⟩ | ⟨p, hpred, hinst⟩
  · refine .inl ⟨m, ?_, hkey⟩
    rw [(execute_implicit ht hi hp).2]
    split
    · exact mem_append_left _ hm
    cases shown t plan (table plan.pointKey) with
    | none => exact hm
    | some v =>
      show m ∈ (manageReadSet t plan v rs).readSet
      rw [readSet_manageReadSet ht]
      exact mem_append_left _ hm
  · refine .inr ⟨p, ?_, hinst⟩
    rw [execute_readPredicates, setPredicate_of_implicit hi]
    exact hpred

/-- A scan that records its predicate traces every row, if it is the first execution or the last predicate is of its
table. An implicit point read traces the rows its output depends on exactly if its row is absent, or its version passes
the predicate, or no row could, or the trace was there before. -/
theorem scan_trace_iff (t : ScanTxn) (ht : t.Query) (plan : Plan) (table : Table) (e : Executor) (rs : ReadSet)
    (hkeyed : ∀ k, plan.Keyed k (table k)) : (¬ Implicit t plan e rs →
      (e.firstExecution = true ∨ rs.readPredicates.getLast?.map ReadPredicate.tableName = some plan.tableName) →
      ∀ key, Traced t plan table (execute t plan table e rs).readSet key) ∧ (Implicit t plan e rs → plan.PointLookup →
      ((∀ key, Depends t plan table e rs key → Traced t plan table (execute t plan table e rs).readSet key) ↔
        table plan.pointKey = [] ∨
        (∃ v, select t (table plan.pointKey) = some v ∧ v.isDeleted = false ∧ plan.evaluate v.values = true) ∨
        (∀ vals, plan.encodeTableRow vals = plan.pointKey → plan.evaluate vals = false) ∨
        Traced t plan table rs plan.pointKey)) := by
  constructor
  · intro hnot hlast key
    obtain ⟨p, hp, hinst⟩ := setPredicate_traces ht hnot hlast
    exact .inr ⟨p, execute_readPredicates ▸ hp, hinst⟩
  intro hi hp
  obtain ⟨hvisible, hreadSet⟩ := execute_implicit ht hi hp
  constructor
  · intro h
    by_contra hno
    push Not at hno
    obtain ⟨hne, hfail, ⟨vals, hkey, heval⟩, huntraced⟩ := hno
    rw [ne_eq, Bool.not_eq_false] at heval
    have hshown : shown t plan (table plan.pointKey) = none := by
      rw [shown, Option.filter_eq_none_iff]
      intro v hv hshow
      obtain ⟨hdel, hev⟩ : v.isDeleted = false ∧ plan.evaluate v.values = true := by simpa using hshow
      exact hfail v hv hdel hev
    -- a loaded row would be returned
    have hdep : Depends t plan table e rs plan.pointKey := by
      refine ⟨[⟨.genesis, [], true, false, false, false, vals⟩], ?_, ?_⟩
      · intro v hv _
        rw [mem_singleton.mp hv]
        exact hkey
      · rw [hvisible, hshown, (execute_implicit ht hi hp).1, update_self, shown_loaded ht heval]
        simp
    have htraced := h _ hdep
    rw [hreadSet, if_neg hne, hshown] at htraced
    exact huntraced htraced
  · intro h key hdep
    obtain rfl := hdep.eq_pointKey ht hi hp
    rcases h with hnil | ⟨v, hsel, hdel, hev⟩ | hnone | htraced
    · refine .inl ⟨⟨plan.pointKey, .genesis, false⟩, ?_, rfl, ?_⟩
      · rw [hreadSet, if_pos hnil]
        exact mem_append_right _ (mem_singleton_self _)
      · rw [hnil]
        rfl
    · have hshown : shown t plan (table plan.pointKey) = some v := by
        simp [shown, hsel, Option.filter, hdel, hev]
      have hmem := (mem_of_select ht hsel).1
      have hne : table plan.pointKey ≠ [] := ne_nil_of_mem hmem
      refine .inl ⟨⟨plan.pointKey, v.timestamp, false⟩, ?_, rfl, ?_⟩
      · rw [hreadSet, if_neg hne, hshown]
        show _ ∈ (manageReadSet t plan v rs).readSet
        rw [readSet_manageReadSet ht, hkeyed _ v hmem hdel]
        exact mem_append_right _ (mem_singleton_self _)
      · rw [hsel]
        rfl
    · -- the output is empty whatever the row is
      obtain ⟨chain, hchain, hdiff⟩ := hdep
      rw [hvisible, (execute_implicit ht hi hp).1, update_self, shown_eq_none ht hnone hchain,
        shown_eq_none ht hnone (hkeyed _)] at hdiff
      exact absurd rfl hdiff
    · exact htraced.execute ht hi hp

def keyPlan (name key : Bytes) (isPrimaryIndex : Bool) : Plan where
  tableName := name
  isPrimaryIndex := isPrimaryIndex
  predicate := key
  evaluate := fun vals => decide (vals.head? = some key)
  isPoint := true
  lookup := fun table => if table key = [] then [] else [key]
  pointKey := key
  encodeTableRow := fun vals => vals.headD []

def emptyReadSet : ReadSet := ⟨[], [], []⟩

def deletedTable : Table := fun k => if k = [49] then [{ committedRow with isDeleted := true }] else []

def loadedRow : RowVersion := ⟨.genesis, [], true, false, false, false, [[49]]⟩

/-- An implicit point read of a deleted row leaves nothing. Of three scans, of tables 66, 67 and 66 again, the third
records its predicate for table 67. -/
theorem untraced_read : (Implicit eagerScan (keyPlan [65] [49] true) {} emptyReadSet ∧
      Depends eagerScan (keyPlan [65] [49] true) deletedTable {} emptyReadSet [49] ∧
      (execute eagerScan (keyPlan [65] [49] true) deletedTable {} emptyReadSet).readSet = emptyReadSet) ∧
    (let first := execute eagerScan (keyPlan [66] [48] false) (fun _ => []) {} emptyReadSet
     let other := execute eagerScan (keyPlan [67] [50] false) (fun _ => []) {} first.readSet
     let again := execute eagerScan (keyPlan [66] [49] false) (fun _ => []) first.executor other.readSet
     Depends eagerScan (keyPlan [66] [49] false) (fun _ => []) first.executor other.readSet [49] ∧
      again.readSet = ⟨[], [], [⟨[66], .genesis, [[48]]⟩, ⟨[67], .genesis, [[50], [49]]⟩]⟩) := by
  have hkeyed (name : Bytes) (primary : Bool) : (keyPlan name [49] primary).Keyed [49] [loadedRow] := by
    intro v hv _
    rw [mem_singleton.mp hv]
    rfl
  exact ⟨⟨rfl, ⟨_, hkeyed _ _, by decide +kernel⟩, by decide +kernel⟩, ⟨_, hkeyed _ _, by decide +kernel⟩,
    by decide +kernel⟩

theorem scan_trace_iff_loaded : Implicit eagerScan (keyPlan [65] [49] true) {} emptyReadSet ∧
    ∀ key, Depends eagerScan (keyPlan [65] [49] true) (update (fun _ => []) [49] [loadedRow]) {} emptyReadSet key →
      Traced eagerScan (keyPlan [65] [49] true) (update (fun _ => []) [49] [loadedRow])
        (execute eagerScan (keyPlan [65] [49] true) (update (fun _ => []) [49] [loadedRow]) {} emptyReadSet).readSet
        key := by
  refine ⟨rfl, ((scan_trace_iff eagerScan ⟨rfl, rfl⟩ (keyPlan [65] [49] true)
    (update (fun _ => []) [49] [loadedRow]) {} emptyReadSet fun k => ?_).2 rfl ⟨rfl, fun _ => rfl⟩).mpr
    (.inr (.inl ⟨loadedRow, ?_⟩))⟩
  · intro v hv _
    by_cases hk : k = [49]
    · rw [hk, update_self] at hv
      rw [mem_singleton.mp hv, hk]
      rfl
    · rw [update_of_ne hk] at hv
      cases hv
  · decide +kernel

end Pequin.IndexScan
