import Pequin.Proof.TableConvergence

/-!
# Versions of other transactions

A write takes the version of its timestamp for its own, whoever wrote it. Nothing that is earlier changes, so reads are
repeatable (`scans_repeatable`).
-/

namespace Pequin

open Chain Function List Option Run

namespace WriteTxn

section

variable (w : WriteTxn) (table : Table) (r : Bytes × Option (List Bytes))

/-- A row is written. Without columns it is deleted. -/
def writeRow : Option Table :=
  match r.2 with
  | some values => TableTxn.insertRow w table (r.1, values)
  | none => some (update table r.1 (w.deleteRow (table r.1)))

/-- A version after the write of a row: one of before, up to its status, or one that the write added. -/
def Origin (columns : Option (List Bytes)) (chain : List RowVersion) (v : RowVersion) : Prop :=
  (∃ u ∈ chain, u.timestamp = v.timestamp ∧ u.txnDig = v.txnDig ∧ u.isDeleted = v.isDeleted ∧ u.values = v.values ∧
    (v.purged = false → u.purged = false)) ∨
  v.timestamp = w.timestamp ∧ v.txnDig = w.txnDig ∧
    (v.purged = false → w.undoDelete = false ∧ (v.isDeleted = true ∨ columns = some v.values))

/-- Only the transaction has versions with its timestamp. -/
def Sole (chain : List RowVersion) : Prop :=
  ∀ v ∈ chain, v.timestamp = w.timestamp → v.txnDig = w.txnDig
  deriving Decidable

/-- The version an insert finds for its timestamp has the columns inserted, unless it is purged. -/
def Agrees : Prop :=
  ∀ values ∈ r.2, ∀ v ∈ latest RowVersion.timestamp (fun _ => true) w.timestamp (table r.1),
    v.timestamp = w.timestamp → (w.undoDelete && !v.commitOrPrepare) = true ∨ v.values = values
  deriving Decidable

/-- The versions of other transactions stay as they are, and seen where they were seen: all of them at the times before
the write, those that are not older at every time. -/
structure Keeps (table' : Table) : Prop where
  contents (k : Bytes) (v : RowVersion) (hv : v.txnDig ≠ w.txnDig) : v ∈ table' k ↔ v ∈ table k
  seen (reads : RowVersion → Bool) (k : Bytes) (t : Timestamp) (v : RowVersion) (hv : v.txnDig ≠ w.txnDig)
    (ht : t < w.timestamp ∨ w.timestamp ≤ v.timestamp) :
    latest RowVersion.timestamp reads t (table' k) = some v ↔ latest RowVersion.timestamp reads t (table k) = some v

end

variable {w : WriteTxn} {values : List Bytes} {v : RowVersion} {chain chain' : List RowVersion} {table table' : Table}
  {r : Bytes × Option (List Bytes)} {columns : Option (List Bytes)}

theorem origin_of_mem (h : v ∈ chain) : w.Origin columns chain v :=
  .inl ⟨v, h, rfl, rfl, rfl, rfl, id⟩

theorem origin_performUpdate {isDeleted : Bool} (hcolumns : isDeleted = true ∨ columns = some values)
    (h : v ∈ w.performUpdate (w.version isDeleted values) chain) : w.Origin columns chain v := by
  rcases mem_link h with rfl | h
  · right
    unfold version
    split
    · exact ⟨rfl, rfl, fun hv => by cases hv⟩
    · rename_i hundo
      exact ⟨rfl, rfl, fun _ => ⟨by simpa using hundo, hcolumns⟩⟩
  · exact origin_of_mem h

theorem origin_replace {pre post : List RowVersion} {u u' : RowVersion} (h : v ∈ pre ++ u' :: post)
    (hu : w.Origin columns [u] u') : w.Origin columns (pre ++ u :: post) v := by
  rcases mem_append.mp h with h | h
  · exact origin_of_mem (mem_append_left _ h)
  rcases mem_cons.mp h with rfl | h
  · refine hu.imp_left ?_
    rintro ⟨x, hx, hrest⟩
    cases mem_singleton.mp hx
    exact ⟨u, by simp, hrest⟩
  · exact origin_of_mem (by simp [h])

theorem origin_insertTuple (hc : w.insertTuple values chain = some chain') (h : v ∈ chain') :
    w.Origin (some values) chain v := by
  obtain ⟨-, heq⟩ | ⟨pre, u, post, rfl, -, -, heq⟩ := w.insertTuple_cases values chain
  · cases heq.symm.trans hc
    exact origin_performUpdate (.inr rfl) h
  rw [heq] at hc
  split at hc
  · cases hc
    split at h
    · rename_i honly
      obtain ⟨rfl, rfl⟩ : pre = [] ∧ post = [] := by simpa using honly
      exact origin_replace h (.inl ⟨u, mem_singleton_self u, rfl, rfl, rfl, rfl, fun hv => by cases hv⟩)
    · have hsub : pre ++ post <+ pre ++ u :: post := (sublist_cons_self u post).append_left pre
      exact origin_of_mem (hsub.subset h)
  · obtain ⟨u', hup, rfl⟩ := map_eq_some_iff.mp hc
    obtain ⟨htime, hpurged, hdeleted, hvalues, -⟩ := upgrade_spec hup
    have howner : u'.txnDig = u.txnDig := by
      unfold upgradeRowVersionCommitStatus at hup
      split at hup
      · cases hup
        split_ifs <;> rfl
      · cases hup
    exact origin_replace h (.inl ⟨u, mem_singleton_self u, htime.symm, howner.symm, hdeleted.symm, hvalues.symm,
      fun hv => hpurged ▸ hv⟩)

theorem origin_deleteRow (h : v ∈ w.deleteRow chain) : w.Origin none chain v := by
  obtain ⟨-, heq⟩ | ⟨pre, u, post, rfl, -, -, -, heq⟩ | heq := w.deleteRow_cases chain
  · exact origin_of_mem (heq ▸ h)
  · rw [heq] at h
    exact origin_replace h (.inl ⟨u, mem_singleton_self u, rfl, rfl, rfl, rfl, id⟩)
  · rw [heq] at h
    exact origin_performUpdate (.inl rfl) h

/-- What the write of a row does to its chain. -/
theorem writeRow_update (h : w.writeRow table r = some table') : ∃ c, table' = update table r.1 c ∧
    (Descending RowVersion.timestamp (table r.1) → w.Touches (table r.1) c) ∧ ∀ v ∈ c, w.Origin r.2 (table r.1) v := by
  obtain ⟨k, _ | values⟩ := r
  · cases h
    exact ⟨_, rfl, touches_deleteRow, fun v hv => origin_deleteRow hv⟩
  · obtain ⟨c, hc, rfl⟩ := map_eq_some_iff.mp h
    exact ⟨c, rfl, fun hdesc => (insertTuple_spec hdesc hc).1, fun v hv => origin_insertTuple hc hv⟩

theorem exists_writeRow (h : w.Agrees table r) : ∃ table', w.writeRow table r = some table' := by
  obtain ⟨k, _ | values⟩ := r
  · exact ⟨_, rfl⟩
  obtain ⟨c, hc⟩ : ∃ c, w.insertTuple values (table k) = some c := by
    obtain ⟨-, heq⟩ | ⟨pre, v, post, hchain, hpre, htime, heq⟩ := w.insertTuple_cases values (table k)
    · exact ⟨_, heq⟩
    have hlatest : latest RowVersion.timestamp (fun _ => true) w.timestamp (table k) = some v :=
      List.find?_eq_some_iff_append.mpr ⟨by simp [htime], pre, post, hchain, by simpa using hpre⟩
    rw [heq]
    split
    · exact ⟨_, rfl⟩
    · rename_i hundo
      have hvalues := (h values rfl v hlatest htime).resolve_left hundo
      exact ⟨_, by rw [upgradeRowVersionCommitStatus, if_pos hvalues]; rfl⟩
  exact ⟨_, map_eq_some_iff.mpr ⟨c, hc, rfl⟩⟩

theorem latest_of_sole {reads : RowVersion → Bool} {t : Timestamp} (hdesc : Descending RowVersion.timestamp chain)
    (hdesc' : Descending RowVersion.timestamp chain')
    (hothers : ∀ s, s ≠ w.timestamp → versionsAt s chain' = versionsAt s chain) (hsole : w.Sole chain)
    (hv : v.txnDig ≠ w.txnDig) (ht : t < w.timestamp ∨ w.timestamp ≤ v.timestamp)
    (h : latest RowVersion.timestamp reads t chain = some v) : latest RowVersion.timestamp reads t chain' = some v := by
  have hne : w.timestamp ≠ v.timestamp := fun heq => hv (hsole v (mem_of_find?_eq_some h) heq.symm)
  exact hdesc.latest_of_groups hdesc' hothers (ht.imp_right fun hle => lt_of_le_of_ne hle hne) h

/-- The write of a row, in which no other transaction has versions with the timestamp. -/
theorem keeps_writeRow (hdesc : ∀ k, Descending RowVersion.timestamp (table k)) (hsole : w.Sole (table r.1))
    (h : w.writeRow table r = some table') : (∀ k, Descending RowVersion.timestamp (table' k)) ∧ w.Keeps table table' ∧
      ∀ k, w.Sole (table k) → w.Sole (table' k) := by
  obtain ⟨c, rfl, htouches, horigin⟩ := writeRow_update h
  obtain ⟨hdesc', hothers⟩ := htouches (hdesc r.1)
  have hsole' : w.Sole c := by
    intro v hv ht
    rcases horigin v hv with ⟨u, hu, htime, howner, -⟩ | ⟨-, howner, -⟩
    · rw [← howner]
      exact hsole u hu (htime.trans ht)
    · exact howner
  have hmem (v : RowVersion) (hv : v.txnDig ≠ w.txnDig) : v ∈ c ↔ v ∈ table r.1 := by
    by_cases ht : v.timestamp = w.timestamp
    · exact iff_of_false (fun h => hv (hsole' v h ht)) fun h => hv (hsole v h ht)
    · have hgroup : v ∈ versionsAt v.timestamp c ↔ v ∈ versionsAt v.timestamp (table r.1) := by rw [hothers _ ht]
      simpa [versionsAt, mem_group] using hgroup
  refine ⟨(forall_update_iff table fun _ => Descending RowVersion.timestamp).mpr ⟨hdesc', fun k _ => hdesc k⟩,
    ⟨(forall_update_iff table fun k c => ∀ v, v.txnDig ≠ w.txnDig → (v ∈ c ↔ v ∈ table k)).mpr
      ⟨hmem, fun _ _ _ _ => Iff.rfl⟩, fun reads k t v hv ht => ?_⟩,
    fun k => (forall_update_iff table fun k c => w.Sole (table k) → w.Sole c).mpr ⟨fun _ => hsole', fun _ _ => id⟩ k⟩
  by_cases hk : k = r.1
  · rw [hk, update_self]
    exact ⟨latest_of_sole hdesc' (hdesc _) (fun s hs => (hothers s hs).symm) hsole' hv ht,
      latest_of_sole (hdesc _) hdesc' hothers hsole hv ht⟩
  · rw [update_of_ne hk]

end WriteTxn

def TableEvent.write : TableEvent → WriteTxn
  | .apply x mode => x.write mode
  | .purge x => x.undo

def TableEvent.rows : TableEvent → List (Bytes × Option (List Bytes))
  | .apply x _ => x.insertedRows.map (fun r => (r.1, some r.2)) ++ x.deletedRows.map fun k => (k, none)
  | .purge x => x.purgedRows.map fun r => (r.1, some r.2)

theorem step_eq_exec (table : Table) (e : TableEvent) : table.step e = exec e.write.writeRow table e.rows := by
  rw [← foldlM_eq_exec]
  cases e with
  | apply x mode =>
    simp only [TableEvent.rows, foldlM_append, foldlM_map, Table.step, TableTxn.applyTableWrite, Option.map_eq_bind]
    refine congrArg _ (funext fun table => ?_)
    exact (foldlM_pure (m := Option) ..).symm
  | purge x =>
    simp only [Table.step, TableTxn.purgeTableWrite, TableEvent.rows, foldlM_map]
    rfl

/-! ## Versions of other transactions -/

/-- The version is a deletion, or a row that one of the transactions with its timestamp inserted. -/
def WrittenIn (es : List TableEvent) (k : Bytes) (v : RowVersion) : Prop :=
  v.isDeleted = true ∨ ∃ e ∈ es, e.txn.timestamp = v.timestamp ∧ (k, v.values) ∈ e.txn.insertedRows

theorem WrittenIn.of_origin {es : List TableEvent} {e : TableEvent} {r : Bytes × Option (List Bytes)} {v : RowVersion}
    {chain : List RowVersion} (he : e ∈ es) (hr : r ∈ e.rows)
    (hchain : ∀ u ∈ chain, u.purged = false → WrittenIn es r.1 u) (h : e.write.Origin r.2 chain v)
    (hv : v.purged = false) : WrittenIn es r.1 v := by
  rcases h with ⟨u, hu, htime, -, hdeleted, hvalues, hpurged⟩ | ⟨htime, -, hadded⟩
  · have hw := hchain u hu (hpurged hv)
    rwa [WrittenIn, hdeleted, htime, hvalues] at hw
  obtain ⟨hundo, hdel | hcolumns⟩ := hadded hv
  · exact .inl hdel
  · refine .inr ⟨e, he, ?_, ?_⟩
    · cases e <;> exact htime.symm
    · obtain ⟨k, _ | values⟩ := r
      · cases hcolumns
      cases hcolumns
      cases e with
      | apply x mode => simpa [TableEvent.rows, TableEvent.txn] using hr
      | purge x => cases hundo

/-- In every run from the empty table. -/
theorem written_of_exec {es : List TableEvent} {table : Table} (h : exec Table.step (fun _ => []) es = some table)
    {k : Bytes} {v : RowVersion} (hv : v ∈ table k) (hpurged : v.purged = false) : WrittenIn es k v := by
  let P (es : List TableEvent) (table : Table) : Prop := ∀ k, ∀ v ∈ table k, v.purged = false → WrittenIn es k v
  have hinit : P [] fun _ => [] := fun _ _ hv => by cases hv
  refine exec_history_of_meets (P := P) ?_ hinit (meets_true _ es) h k v hv hpurged
  intro past s e s' hp _ hstep
  have he : e ∈ past ++ [e] := by simp
  have hpast : P (past ++ [e]) s := by
    intro k v hv hpurged
    refine (hp k v hv hpurged).imp_right ?_
    rintro ⟨e', he', h⟩
    exact ⟨e', mem_append_left _ he', h⟩
  rw [step_eq_exec] at hstep
  refine exec_invariant_of_meets (P := P (past ++ [e])) ?_ hpast ((meets_true s e.rows).and_of_mem fun _ hr => hr) hstep
  intro s r s' hp hr hw k v hv hpurged
  obtain ⟨c, rfl, -, horigin⟩ := WriteTxn.writeRow_update hw
  by_cases hk : k = r.1
  · rw [hk, update_self] at hv
    rw [hk]
    exact .of_origin he hr.2 (hp r.1) (horigin v hv) hpurged
  · rw [update_of_ne hk] at hv
    exact hp k v hv hpurged

/-! ## Repeatable reads -/

/-- The versions that a scan at a time comes to. -/
def upTo (t : Timestamp) (chain : List RowVersion) : List RowVersion := chain.filter fun v => v.timestamp ≤ t

theorem upTo_cons (t : Timestamp) (v : RowVersion) (chain : List RowVersion) :
    upTo t (v :: chain) = if v.timestamp ≤ t then v :: upTo t chain else upTo t chain := by
  simp [upTo, filter_cons]

theorem index_checkRow_upTo (t : ScanTxn) (chain : List RowVersion) (w : Walk) :
    (IndexScan.checkRow t (upTo t.timestamp chain) w).1 = (IndexScan.checkRow t chain w).1 := by
  induction chain generalizing w with
  | nil => rfl
  | cons v chain ih =>
    rw [upTo_cons]
    split
    · rw [IndexScan.checkRow, IndexScan.checkRow]
      split
      · dsimp only
        split
        · rfl
        · exact ih _
      · exact ih w
    · rename_i hv
      rw [ih, IndexScan.checkRow, if_neg (by simp [hv])]

theorem seq_checkRow_upTo (t : ScanTxn) (chain : List RowVersion) (w : Walk) :
    SeqScan.checkRow t (upTo t.timestamp chain) w = SeqScan.checkRow t chain w := by
  induction chain generalizing w with
  | nil => rfl
  | cons v chain ih =>
    rw [upTo_cons]
    split
    · rename_i hv
      rw [SeqScan.checkRow, SeqScan.checkRow, if_pos hv, if_pos hv]
      dsimp only
      split
      · rfl
      · exact ih _
    · rename_i hv
      rw [ih, SeqScan.checkRow, if_neg hv]

section

variable {t : Timestamp} {w : WriteTxn} {v v' : RowVersion} {chain chain' : List RowVersion}

theorem upTo_replace (pre post : List RowVersion) (hv : t < v.timestamp) (hv' : t < v'.timestamp) :
    upTo t (pre ++ v' :: post) = upTo t (pre ++ v :: post) := by
  simp [upTo, not_le.mpr hv, not_le.mpr hv']

variable (h : t < w.timestamp)
include h

theorem upTo_performUpdate (isDeleted : Bool) (values : List Bytes) (chain : List RowVersion) :
    upTo t (w.performUpdate (w.version isDeleted values) chain) = upTo t chain :=
  filter_link (by simpa [WriteTxn.timestamp_version] using h)

theorem upTo_insertTuple {values : List Bytes} (hc : w.insertTuple values chain = some chain') :
    upTo t chain' = upTo t chain := by
  obtain ⟨-, heq⟩ | ⟨pre, v, post, rfl, -, htime, heq⟩ := w.insertTuple_cases values chain
  · cases heq.symm.trans hc
    exact upTo_performUpdate h false values chain
  have hv : t < v.timestamp := htime ▸ h
  rw [heq] at hc
  split at hc
  · cases hc
    split
    · rename_i honly
      obtain ⟨rfl, rfl⟩ : pre = [] ∧ post = [] := by simpa using honly
      exact upTo_replace [] [] hv hv
    · simp [upTo, not_le.mpr hv]
  · obtain ⟨v', hup, rfl⟩ := map_eq_some_iff.mp hc
    exact upTo_replace pre post hv ((WriteTxn.upgrade_spec hup).1 ▸ hv)

theorem upTo_deleteRow (chain : List RowVersion) : upTo t (w.deleteRow chain) = upTo t chain := by
  obtain ⟨-, heq⟩ | ⟨pre, v, post, rfl, -, -, hup, heq⟩ | heq := w.deleteRow_cases chain
  · rw [heq]
  · have hv : t < v.timestamp := (WriteTxn.upgrades_iff.mp hup).2.2.1 ▸ h
    rw [heq]
    exact upTo_replace pre post hv hv
  · rw [heq]
    exact upTo_performUpdate h true [] chain

theorem upTo_writeRow {table table' : Table} {r : Bytes × Option (List Bytes)} (hr : w.writeRow table r = some table')
    (k : Bytes) : upTo t (table' k) = upTo t (table k) := by
  have hkey {c : List RowVersion} (hc : upTo t c = upTo t (table r.1)) :
      upTo t (update table r.1 c k) = upTo t (table k) := by
    by_cases hk : k = r.1
    · rw [hk, update_self, hc]
    · rw [update_of_ne hk]
  obtain ⟨key, _ | values⟩ := r
  · cases hr
    exact hkey (upTo_deleteRow h _)
  · obtain ⟨c, hc, rfl⟩ := map_eq_some_iff.mp hr
    exact hkey (upTo_insertTuple h hc)

end

/-- Whatever later transactions do to the tables, a scan of a row gives the same: its read, snapshot and frontier. -/
theorem scans_repeatable {es : List TableEvent} {table table' : Table} (t : ScanTxn)
    (hlater : ∀ e ∈ es, t.timestamp < e.write.timestamp) (h : Run.exec Table.step table es = some table')
    (k : Bytes) (w : Walk) : (IndexScan.checkRow t (table' k) w).1 = (IndexScan.checkRow t (table k) w).1 ∧
      SeqScan.checkRow t (table' k) w = SeqScan.checkRow t (table k) w := by
  let Same (table' : Table) : Prop := ∀ k, upTo t.timestamp (table' k) = upTo t.timestamp (table k)
  have hsame : Same table' := by
    have hm : Meets Table.step (fun _ e => t.timestamp < e.write.timestamp) table es :=
      ((meets_true table es).and_of_mem hlater).mono fun _ _ hm => hm.2
    refine exec_invariant_of_meets (P := Same) ?_ (fun _ => rfl) hm h
    intro s e s' hs hlt hstep
    rw [step_eq_exec] at hstep
    refine exec_invariant (P := Same) ?_ hs hstep
    intro s r s' hp hw k
    exact (upTo_writeRow hlt hw k).trans (hp k)
  rw [← index_checkRow_upTo t (table' k), ← seq_checkRow_upTo t (table' k), hsame, index_checkRow_upTo,
    seq_checkRow_upTo]
  exact ⟨rfl, rfl⟩

theorem scans_repeatable_insert : ∃ table₁ table₂ : Table,
    Table.step (fun _ => []) (.apply insertingTxn .commit) = some table₁ ∧
    Run.exec Table.step table₁ [.apply deletingTxn .prepare, .purge deletingTxn] = some table₂ ∧
    SeqScan.checkRow insertingTxn.undo.scan (table₂ [7]) {} = SeqScan.checkRow insertingTxn.undo.scan (table₁ [7]) {} :=
  have hlater : ∀ e ∈ [TableEvent.apply deletingTxn .prepare, .purge deletingTxn],
      insertingTxn.undo.scan.timestamp < e.write.timestamp := by decide
  ⟨_, _, rfl, rfl, (scans_repeatable _ hlater rfl [7] {}).2⟩

end Pequin
