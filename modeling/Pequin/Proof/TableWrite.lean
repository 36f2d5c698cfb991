import Pequin.Model.Reads
import Pequin.Proof.Equivocation
import Pequin.Proof.TableOwners

/-!
# Committed rows of point queries

`ValidateTransactionTableWrite` decides whether the committed result of a point query is what the transaction in the
proof has written. It accepts an empty result without looking at the proof, and compares no column of a row. What it
accepts is right if a correct replica could have sent it (`Served`).
-/

namespace Pequin

open List Option

structure TableResult where
  proof : ReadProof
  timestamp : Timestamp
  key : Bytes
  value : Bytes
  table : Bytes

namespace TableResult

variable (p : ReadParams) (rowKey : Bytes → RowUpdates → Bytes) (satisfies : List Bytes → Bool) (r : TableResult)

def verdict : Option Bool := validateTransactionTableWrite p r.proof r.timestamp r.key r.value r.table

def rows : List (List (Option Bytes)) := (resultOf p r.value).rows

def columns : List Bytes := (resultOf p r.value).columnNames

def column (row : RowUpdates) (name : Bytes) : Option Bytes :=
  ((p.colNameIndex r.table).bind fun idx => idx name).bind fun i => row.columnValues[i]?

def ColumnsMatch (fields : List (Option Bytes)) (row : RowUpdates) : Prop :=
  ∀ x ∈ (r.columns p).zipIdx, fields[x.2]? = some (r.column p row x.1)

/-- The rows of the table that the transaction in the proof wrote. The digest covers their columns and so their keys,
but not their indices. -/
def writtenRows : List RowUpdates := (r.proof.txn.tableWrites.lookup r.table).getD []

/-- The proof is a commit certificate, its transaction has the timestamp and wrote the key, and the result is what it
wrote: the columns of the row, or nothing if that is a deletion or fails the query. -/
structure Authentic : Prop where
  proof : validateCommittedProof p.config r.proof.toCommittedProof (p.digestOf r.proof.txn) = true
  timestamp : r.proof.txn.timestamp = r.timestamp
  written : ∃ w ∈ r.proof.txn.writeSet, w.key = r.key
  row : ∃ row ∈ r.writtenRows, rowKey r.table row = r.key ∧ match r.rows p with
    | [] => row.deletion = true ∨ satisfies row.columnValues = false
    | fields :: _ => row.deletion = false ∧ r.ColumnsMatch p fields row

/-- What the table store gets of the transaction. -/
def tableTxn : TableTxn :=
  ⟨r.proof.txn.timestamp, p.digestOf r.proof.txn, r.writtenRows.map fun row => (rowKey r.table row, row)⟩

/-- A correct replica can give the value: after some writes to the table, of which those with the timestamp are of the
transaction in the proof, a point read finds a version with the timestamp and this row. -/
structure Served (es : List TableEvent) (table : Table) (time : Timestamp) (canRead : Digest → Bool) (v : RowVersion)
    (columns : List Bytes) : Prop where
  run : Run.exec Table.step (fun _ => []) es = some table
  owner : ∀ e ∈ es, e.txn.timestamp = r.timestamp → e.txn = r.tableTxn p rowKey
  found : committedVersion time canRead (table r.key) = some v
  timestamp : v.timestamp = r.timestamp
  value : resultOf p r.value = pointResult p r.table columns satisfies v

variable {p} {rowKey} {satisfies} {r} {proof : ReadProof} {key : Bytes}

theorem checkTableWrite_eq_some_true {ts : Timestamp} :
    checkTableWrite p proof ts key = some true ↔ proof.txn.timestamp = ts ∧
      validateCommittedProof p.config proof.toCommittedProof (p.digestOf proof.txn) = true ∧
      (proof.rowIdx key).isSome = true := by
  unfold checkTableWrite
  by_cases hts : proof.txn.timestamp = ts
  · cases hv : validateCommittedProof p.config proof.toCommittedProof (p.digestOf proof.txn) <;> simp [hts]
  · simp [hts]

theorem mem_writeSet_of_rowIdx (h : (proof.rowIdx key).isSome = true) : ∃ w ∈ proof.txn.writeSet, w.key = key := by
  obtain ⟨i, hi⟩ := isSome_iff_exists.mp h
  obtain ⟨j, hj, -⟩ := bind_eq_some_iff.mp hi
  obtain ⟨hlt, hkey, -⟩ := List.findIdx?_eq_some_iff_getElem.mp hj
  exact ⟨_, List.getElem_mem hlt, beq_iff_eq.mp hkey⟩

theorem checkTableWrite_of_verdict (hacc : r.verdict p = some true) (hgen : r.proof.txn.isGenesis = false)
    (hrows : r.rows p ≠ []) : checkTableWrite p r.proof r.timestamp r.key = some true := by
  -- an empty value stands for no row
  have hvalue : r.value.isEmpty = false := by
    by_contra he
    exact hrows (by simp [rows, resultOf, he])
  have hrows' : (resultOf p r.value).rows.isEmpty = false := by
    simpa [rows] using hrows
  unfold verdict validateTransactionTableWrite at hacc
  simp only [hvalue, Bool.false_and, Bool.false_eq_true, ↓reduceIte, hrows', hgen] at hacc
  split at hacc
  · cases hacc
  · split at hacc
    · assumption
    · rename_i hne
      exact absurd hacc hne

theorem evaluated_findRightRowVersion (t : ScanTxn) (v : RowVersion) (w : Walk) :
    (IndexScan.findRightRowVersion t v w).walk.evaluated = w.evaluated := by
  have hread : (IndexScan.readVersion t v w).1.walk.evaluated = w.evaluated := by
    unfold IndexScan.readVersion
    split_ifs <;> rfl
  unfold IndexScan.findRightRowVersion
  split
  · rename_i x hx
    rw [hx] at hread
    exact hread
  · rename_i x hx
    rw [hx] at hread
    rw [← hread]
    unfold Visit.findSnapshot Visit.readOnSnapshot
    split_ifs <;> rfl

theorem mem_of_evaluated {t : ScanTxn} {chain : List RowVersion} {w : Walk} {v : RowVersion}
    (h : v ∈ (IndexScan.checkRow t chain w).1.evaluated) : v ∈ w.evaluated ∨ v ∈ chain ∧ v.purged = false := by
  induction chain generalizing w with
  | nil => exact .inl h
  | cons u chain ih =>
    rw [IndexScan.checkRow] at h
    split at h
    · rename_i hu
      rw [Bool.and_eq_true, Bool.not_eq_true'] at hu
      have hkeeps := evaluated_findRightRowVersion t u w
      have hwalk (x : Visit) (hx : x.walk.evaluated = w.evaluated) {v : RowVersion} {n : Nat}
          (hv : v ∈ ((Walk.evalRead t n u x).skip t u x.done).evaluated) : v ∈ w.evaluated ∨ v = u := by
        unfold Walk.skip Walk.evalRead at hv
        split_ifs at hv <;> simp_all
      have hhere : v ∈ ((Walk.evalRead t (if t.isPointRead then 2 else 1) u
          (IndexScan.findRightRowVersion t u w)).skip t u (IndexScan.findRightRowVersion t u w).done).evaluated →
          v ∈ w.evaluated ∨ v ∈ u :: chain ∧ v.purged = false := by
        intro hv
        refine (hwalk _ hkeeps hv).imp_right ?_
        rintro rfl
        exact ⟨mem_cons_self, hu.1⟩
      dsimp only at h
      split at h
      · exact hhere h
      · rcases ih h with h | h
        · exact hhere h
        · exact .inr ⟨mem_cons_of_mem u h.1, h.2⟩
    · exact (ih h).imp_right fun h => ⟨mem_cons_of_mem u h.1, h.2⟩

theorem Served.row {es : List TableEvent} {table : Table} {time : Timestamp} {canRead : Digest → Bool} {v : RowVersion}
    {columns : List Bytes} (h : r.Served p rowKey satisfies es table time canRead v columns)
    (hdeleted : v.isDeleted = false) :
    ∃ row ∈ r.writtenRows, rowKey r.table row = r.key ∧ row.deletion = false ∧ row.columnValues = v.values := by
  have hread := mem_of_evaluated (mem_of_find?_eq_some h.found)
  obtain ⟨hmem, hpurged⟩ := hread.resolve_left not_mem_nil
  have hwritten := (written_of_exec h.run hmem hpurged).resolve_left (by simp [hdeleted])
  obtain ⟨e, he, htime, hrow⟩ := hwritten
  rw [h.owner e he (htime.trans h.timestamp), tableTxn, TableTxn.insertedRows] at hrow
  obtain ⟨y, hy, hyv⟩ := mem_map.mp hrow
  obtain ⟨hy, hdel⟩ := mem_filter.mp hy
  obtain ⟨row, hrow, rfl⟩ := mem_map.mp hy
  rw [Prod.mk.injEq] at hyv
  exact ⟨row, hrow, hyv.1, by simpa using hdel, hyv.2⟩

end TableResult

def accountTxn : Transaction :=
  { sampleTxn with
    clientSeqNum := 7
    writeSet := [{ key := [1] }]
    tableWrites := [([65], [{ columnValues := [[1], [50]], writeSetIdx := 0 }])] }

def accountProof : ReadProof where
  txn := accountTxn
  sigs := .p1 [(0, (List.range 6).map fun r => .signedBy r (.concurrencyControl .commit [7] 0))]
  rowIdxs := [some 0]

def accountReads : ReadParams where
  config := sixReplicas.config
  group := 0
  readQuorumSize := 3
  readDepSize := 2
  verifyDeps := false
  maxDepDepth := -1
  digestOf := sixReplicas.digestOf
  verify id _ sig := sig == [UInt8.ofNat id]
  parseWrite _ := none
  parseResult b := { columnNames := [[2]], rows := [[some b]] }
  colNameIndex t := if t = [65] then some fun c => [[1], [2]].findIdx? (· == c) else none

def accountResult (proof : ReadProof) (value : Bytes) : TableResult :=
  ⟨proof, accountTxn.timestamp, [1], value, [65]⟩

def accountRow : RowUpdates := { columnValues := [[1], [50]], writeSetIdx := 0 }

/-- The key of an account is its first column. -/
def accountKey (_ : Bytes) (row : RowUpdates) : Bytes := row.columnValues.headD []

end Pequin
