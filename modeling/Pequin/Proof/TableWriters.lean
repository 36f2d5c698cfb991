import Pequin.Proof.Phantoms
import Pequin.Proof.Serializability

/-!
# Readers that a writer conflicts with

`CheckTableWrites` leaves out the rows whose keys a reader has read, but it looks for them in the read set that the
reader was not checked with.
-/

namespace Pequin

open List

section

variable (p : SemanticParams) (cc : CCParams) (merged : Transaction → Option ReadSet) (txn : Transaction)
  (table : Bytes)

def CCParams.checkedReads (reader : Transaction) (merged : Option ReadSet) : List ReadMessage :=
  if !reader.querySet.isEmpty && (cc.cacheReadSet || !cc.mergeActiveAtClient) then
    merged.elim reader.readSet ReadSet.readSet
  else reader.readSet

def Concerns (reader : Transaction) (row : RowUpdates) (k : Bytes) : Prop :=
  row.deletion = false ∧ rowKey txn row = some k ∧ p.isKeyOwned k = true ∧
    p.hits (cc.predSet reader (merged reader)) table txn.timestamp row = true

def ConcernsUnread (reads : Transaction → Option ReadSet → List ReadMessage)
    (preds : List (Timestamp × Transaction × Bool)) (rows : List RowUpdates) : Prop :=
  ∃ reader ∈ readersAbove txn.timestamp preds, ∃ row ∈ rows, ∃ k, Concerns p cc merged txn table reader row k ∧
    ∀ r ∈ reads reader (merged reader), r.key ≠ k

end

variable {p : SemanticParams} {cc : CCParams} {merged : Transaction → Option ReadSet} {txn : Transaction}
  {table : Bytes}

theorem checkTableRows_abstain_iff {l : List (Transaction × RowUpdates)}
    (hkey : ∀ x ∈ l, x.2.deletion = false → rowKey txn x.2 ≠ none) (hqueries : ∀ x ∈ l, x.1.querySet ≠ []) :
    checkTableRows p cc merged txn table l = some .abstain ↔
      ∃ x ∈ l, ∃ k, Concerns p cc merged txn table x.1 x.2 k ∧ ∀ r ∈ otherReads x.1 (merged x.1), r.key ≠ k := by
  induction l with
  | nil => simp [checkTableRows]
  | cons x l ih =>
    obtain ⟨reader, row⟩ := x
    rw [forall_mem_cons] at hkey hqueries
    rw [exists_mem_cons_iff, ← ih hkey.2 hqueries.2, checkTableRows]
    clear ih
    cases hdel : row.deletion with
    | true => simp [Concerns, hdel]
    | false =>
      obtain ⟨k, hk⟩ := Option.ne_none_iff_exists'.mp (hkey.1 hdel)
      have hq : reader.querySet.isEmpty = false := by simpa using hqueries.1
      simp only [Concerns, hdel, hk, hq, Option.some.injEq]
      split_ifs <;> grind

/-- The check abstains where it should, for every part of the readers and rows, iff the keys of the rows that matter are
in both read sets of a reader or in none. -/
theorem table_writes_iff {preds : List (Timestamp × Transaction × Bool)} {rows : List RowUpdates}
    (hkey : ∀ row ∈ rows, row.deletion = false → rowKey txn row ≠ none)
    (hqueries : ∀ reader ∈ readersAbove txn.timestamp preds, reader.querySet ≠ []) :
    (∀ preds' ⊆ preds, ∀ rows' ⊆ rows, (checkTableWrites p cc merged txn table preds' rows' = some .abstain ↔
      ConcernsUnread p cc merged txn table cc.checkedReads preds' rows')) ↔
    ∀ reader ∈ readersAbove txn.timestamp preds, ∀ row ∈ rows, ∀ k, Concerns p cc merged txn table reader row k →
      ((∀ r ∈ otherReads reader (merged reader), r.key ≠ k) ↔
        ∀ r ∈ cc.checkedReads reader (merged reader), r.key ≠ k) := by
  have hmono {preds'} (hp : preds' ⊆ preds) : readersAbove txn.timestamp preds' ⊆ readersAbove txn.timestamp preds :=
    map_subset _ fun x hx => mem_filter.mpr ⟨hp (mem_filter.mp hx).1, (mem_filter.mp hx).2⟩
  have hcode preds' (hp : preds' ⊆ preds) rows' (hr : rows' ⊆ rows) :
      checkTableWrites p cc merged txn table preds' rows' = some .abstain ↔
        ConcernsUnread p cc merged txn table otherReads preds' rows' := by
    rw [checkTableWrites, checkTableRows_abstain_iff]
    · simp only [ConcernsUnread, Prod.exists, pair_mem_product]
      grind
    · exact fun x hx => hkey _ (hr (pair_mem_product.mp hx).2)
    · exact fun x hx => hqueries _ (hmono hp (pair_mem_product.mp hx).1)
  constructor
  · intro h reader hreader row hrow k hk
    -- the reader and the row alone
    obtain ⟨x, hx, rfl⟩ := mem_map.mp hreader
    obtain ⟨hx, hlt⟩ := mem_filter.mp hx
    have hone := h [x] (by simpa) [row] (by simpa)
    rw [hcode [x] (by simpa) [row] (by simpa)] at hone
    have huniq k' (hk' : Concerns p cc merged txn table x.2.1 row k') : k' = k := by grind [Concerns]
    simp only [ConcernsUnread, readersAbove, filter_cons, hlt] at hone
    grind
  · intro h preds' hp rows' hr
    rw [hcode preds' hp rows' hr]
    have h' reader (hreader : reader ∈ readersAbove txn.timestamp preds') row (hrow : row ∈ rows') k :=
      h reader (hmono hp hreader) row (hr hrow) k
    grind [ConcernsUnread]

def scanReader : Transaction :=
  { rowDeleter with timestamp := ⟨30000, 1⟩, querySet := [⟨[1], 0, []⟩], readPredicates := [scanPred] }

/-- The query has read the row that is written. -/
theorem read_row_abstains :
    checkTableWrites scanParams oneGroup (fun _ => some ⟨[⟨[7], .genesis, false⟩], [], [scanPred]⟩) rowInserter [1]
      [(⟨30000, 1⟩, scanReader, true)] [⟨[[7]], false, 0⟩] = some .abstain ∧
    rowKey rowInserter ⟨[[7]], false, 0⟩ = some [7] ∧
    oneGroup.checkedReads scanReader (some ⟨[⟨[7], .genesis, false⟩], [], [scanPred]⟩) = [⟨[7], .genesis, false⟩] := by
  decide +kernel

theorem table_writes_iff_unmerged :
    checkTableWrites scanParams oneGroup (fun _ => none) rowInserter [1]
      [(⟨30000, 1⟩, scanReader, true)] [⟨[[7]], false, 0⟩] = some .abstain ↔
    ConcernsUnread scanParams oneGroup (fun _ => none) rowInserter [1]
      (oneGroup.checkedReads) [(⟨30000, 1⟩, scanReader, true)] [⟨[[7]], false, 0⟩] :=
  (table_writes_iff (by decide +kernel) (by decide +kernel)).mpr
    (fun reader hreader _ _ _ _ => by
      simp_all [readersAbove, otherReads, CCParams.checkedReads, scanReader, rowDeleter])
    _ (Subset.refl _) _ (Subset.refl _)

end Pequin
