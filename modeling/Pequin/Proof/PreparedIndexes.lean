import Pequin.Model.SemanticCC
import Pequin.Proof.MergedReads

/-!
# Prepare and abort

`Prepare` enters a transaction into the indexes, and `Abort` takes it out: the reads by the base read set, where they
were entered by the merged one, and the rest by its timestamp, whoever has entered it.
-/

namespace Pequin

open Bool List TableWrites Versions

variable {p : CCParams} {txn other : Transaction} {readSet : List ReadMessage} {tables : List Bytes}

/-- The indexes by timestamp: `preparedWrites`, by key, and `tablePredicates` and `tableWrites`, by table. -/
inductive TimedIndex where
  | writes
  | predicates
  | tableWrites

namespace SemanticState

def entries (st : SemanticState) : TimedIndex → Bytes → List (Timestamp × Transaction × Bool)
  | .writes, k => (st.cc.preparedWrites k).map fun x => (x.1, x.2, false)
  | .predicates, name => (st.tablePredicates name).elim [] TableHistory.writes
  | .tableWrites, name => (st.tableWrites name).elim [] TableHistory.writes

/-- `Abort` goes through the entries. -/
def clears (p : CCParams) (st : SemanticState) (txn : Transaction) : TimedIndex → Bytes → Bool
  | .writes, k => txn.writeSet.any fun w => w.key == k && (w.isTableColVersion || p.isKeyOwned k)
  | .predicates, name => (p.predSet txn (st.cc.merged txn)).any fun x => x.tableName == name
  | .tableWrites, name => txn.tableWrites.any fun x => x.1 == name

def writesVersion (tables : List Bytes) : TimedIndex → Bytes → Bool
  | .writes, k => tables.contains k
  | _, _ => false

structure Cleared (p : CCParams) (st : SemanticState) (txn : Transaction) (readSet : List ReadMessage)
    (tables : List Bytes) (st' : SemanticState) : Prop where
  reads (k : Bytes) : st'.cc.preparedReads k = if readsKey p txn.readSet k then (st.cc.preparedReads k).filter (· ≠ txn)
    else if readsKey p readSet k then (st.cc.preparedReads k).insert txn else st.cc.preparedReads k
  entries (i : TimedIndex) (k : Bytes) : st'.entries i k =
    if st.clears p txn i k then erase txn.timestamp (st.entries i k)
    else if writesVersion tables i k then insertNew txn.timestamp (txn, false) (st.entries i k) else st.entries i k

theorem clears_of_writesKey (st : SemanticState) {k : Bytes} (h : writesKey p txn.writeSet k = true) :
    st.clears p txn .writes k = true := by
  rw [writesKey, and_eq_true, any_eq_true] at h
  obtain ⟨hown, w, hw, hkey⟩ := h
  rw [and_eq_true] at hkey
  exact any_eq_true.mpr ⟨w, hw, by simp [hkey.2, hown]⟩

theorem elim_erase_record (h : Option TableHistory) :
    ((some ((h.getD .empty).record txn false)).map fun h => h.erase txn.timestamp).elim [] TableHistory.writes =
      erase txn.timestamp (h.elim [] TableHistory.writes) := by
  cases h <;> exact erase_put ..

section

variable {st st' : SemanticState} (hon : txn ∈ st.cc.ongoing) (hnew : txn ∉ st.cc.prepared)
  (hprep : st.prepare p txn readSet tables = some st')
include hon hnew hprep

theorem cleared_abort : Cleared p st txn readSet tables (st'.abort p txn) := by
  have hgo : ¬(!st.cc.ongoing.contains txn || st.cc.prepared.contains txn) = true := by
    simp [hon, hnew]
  rw [prepare, if_neg hgo, recordWrites] at hprep
  split at hprep
  · cases hprep
  cases hprep
  rw [CCState.prepare, if_neg hgo, abort, CCState.abort, CCState.clean]
  have hmem : (txn :: st.cc.prepared).contains txn = true := contains_iff_mem.mpr mem_cons_self
  rw [if_pos hmem]
  refine ⟨fun k => ?_, fun i k => ?_⟩
  · dsimp only
    cases readsKey p txn.readSet k with
    | false => rfl
    | true =>
      rw [if_pos rfl, if_pos rfl]
      split
      · by_cases h : txn ∈ st.cc.preparedReads k
        · rw [insert_of_mem h]
        · rw [insert_of_not_mem h]
          simp
      · rfl
  · cases hclear : st.clears p txn i k with
    | false =>
      cases i with
      | writes =>
        have hwrite : writesKey p txn.writeSet k = false := by
          rw [← not_eq_true]
          exact fun h => by rw [clears_of_writesKey st h] at hclear; cases hclear
        have hversion : writesVersion tables .writes k = tables.contains k := rfl
        rw [clears] at hclear
        simp only [entries, hclear, hwrite, hversion, false_eq_true, if_false]
        split
        · exact map_insertNew (·, false) ..
        · rfl
      | predicates =>
        rw [clears] at hclear
        simp [entries, clearPredicates, recordPredicates, hclear, writesVersion]
      | tableWrites =>
        rw [clears] at hclear
        simp [entries, clearWrites, hclear, writesVersion]
    | true =>
      rw [clears.eq_def] at hclear
      cases i with
      | writes =>
        simp only [entries, hclear, if_true]
        rw [erase_map (·, false)]
        split <;> split <;> simp only [erase_insertNew]
      | predicates =>
        simp only [entries, clearPredicates, recordPredicates, hclear, if_true]
        exact elim_erase_record _
      | tableWrites =>
        simp only [entries, clearWrites, hclear, if_true]
        exact elim_erase_record _

/-- Where entries are cleared there are none to lose; and elsewhere what is entered was there before. -/
structure Restores (p : CCParams) (st : SemanticState) (txn : Transaction) (readSet : List ReadMessage)
    (tables : List Bytes) : Prop where
  reads : ∀ k, readsKey p txn.readSet k = true → txn ∉ st.cc.preparedReads k
  merged : ∀ k, readsKey p txn.readSet k = false → readsKey p readSet k = true → txn ∈ st.cc.preparedReads k
  entries : ∀ i k, st.clears p txn i k = true → ∀ x ∈ st.entries i k, x.1 ≠ txn.timestamp
  versions : ∀ i k, st.clears p txn i k = false → writesVersion tables i k = true →
    ∃ x ∈ st.entries i k, x.1 = txn.timestamp

theorem restores_iff : ((∀ k, (st'.abort p txn).cc.preparedReads k = st.cc.preparedReads k) ∧
    ∀ i k, (st'.abort p txn).entries i k = st.entries i k) ↔ Restores p st txn readSet tables := by
  have hc := cleared_abort hon hnew hprep
  have hreads (k : Bytes) : (st'.abort p txn).cc.preparedReads k = st.cc.preparedReads k ↔
      (readsKey p txn.readSet k = true → txn ∉ st.cc.preparedReads k) ∧
      (readsKey p txn.readSet k = false → readsKey p readSet k = true → txn ∈ st.cc.preparedReads k) := by
    rw [hc.reads k]
    cases readsKey p txn.readSet k with
    | true => simp [forall_mem_ne']
    | false => cases readsKey p readSet k <;> simp [List.insert]
  have hentries (i : TimedIndex) (k : Bytes) : (st'.abort p txn).entries i k = st.entries i k ↔
      (st.clears p txn i k = true → ∀ x ∈ st.entries i k, x.1 ≠ txn.timestamp) ∧
      (st.clears p txn i k = false → writesVersion tables i k = true → ∃ x ∈ st.entries i k, x.1 = txn.timestamp) := by
    rw [hc.entries i k]
    cases st.clears p txn i k with
    | true => simp [erase]
    | false => cases writesVersion tables i k <;> simp [insertNew_eq_self]
  refine ⟨fun h => ?_, fun h => ?_⟩
  · exact ⟨fun k => ((hreads k).mp (h.1 k)).1, fun k => ((hreads k).mp (h.1 k)).2,
      fun i k => ((hentries i k).mp (h.2 i k)).1, fun i k => ((hentries i k).mp (h.2 i k)).2⟩
  · exact ⟨fun k => (hreads k).mpr ⟨h.reads k, h.merged k⟩,
      fun i k => (hentries i k).mpr ⟨h.entries i k, h.versions i k⟩⟩

/-- Prepared and aborted, a transaction leaves the entries of another iff none with its timestamp is cleared. -/
theorem other_entries_kept_iff (hne : other ≠ txn) :
    (∀ i k ts c, (ts, other, c) ∈ (st'.abort p txn).entries i k ↔ (ts, other, c) ∈ st.entries i k) ↔
      ∀ i k, st.clears p txn i k = true → ∀ c, (txn.timestamp, other, c) ∉ st.entries i k := by
  have hc := cleared_abort hon hnew hprep
  refine ⟨fun h i k hclear c hmem => ?_, fun h i k ts c => ?_⟩
  · rw [← h i k, hc.entries i k, if_pos hclear] at hmem
    exact (mem_erase.mp hmem).2 rfl
  · rw [hc.entries i k]
    split
    · rename_i hclear
      exact mem_erase.trans ⟨And.left, fun hmem => ⟨hmem, fun (hts : ts = _) => h i k hclear c (hts ▸ hmem)⟩⟩
    split
    · refine ⟨fun hmem => (mem_insertNew hmem).resolve_left fun heq => ?_, mem_insertNew_of_mem⟩
      cases heq
      exact hne rfl
    · exact Iff.rfl

end

end SemanticState

def writing (writes : List (Timestamp × Transaction)) : SemanticState where
  cc := { ongoing := [inserter], preparedWrites := fun _ => writes }

def sameTime : Transaction := { inserter with clientSeqNum := 2 }

theorem other_entries_kept_iff_writing : ∃ st',
    (writing [(⟨7, 7⟩, sameTime)]).prepare oneGroup inserter [] [] = some st' ∧
      (⟨7, 7⟩, sameTime, false) ∈ (st'.abort oneGroup inserter).entries .writes [7] := by
  have hprep : (writing [(⟨7, 7⟩, sameTime)]).prepare oneGroup inserter [] [] = some _ := rfl
  refine ⟨_, hprep, ((SemanticState.other_entries_kept_iff (by decide) (by decide) hprep (by decide)).mpr ?_ ..).mpr
    mem_cons_self⟩
  rintro ⟨⟩ k _ c hmem
  · cases mem_singleton.mp hmem
  all_goals cases hmem

theorem writer_taken_out : inserter ≠ sameTime ∧ inserter.timestamp = sameTime.timestamp ∧ ∃ st,
    Run.exec (CCState.step oneGroup) {} [.addOngoing inserter, .check inserter {}, .addOngoing sameTime,
      .check sameTime {}, .abort sameTime] = some st ∧ inserter ∈ st.prepared ∧ st.preparedWrites [7] = [] := by
  refine ⟨by decide, rfl, _, rfl, ?_, ?_⟩ <;> decide +kernel

/-- A transaction is checked with reads of keys that its base read set has too. -/
def BaseReads (p : CCParams) (st : CCState) : CCEvent → Prop
  | .check txn env => ∀ r ∈ readSetOr txn (mergedAt p st env txn), readsKey p txn.readSet r.key = true
  | _ => True

instance (p : CCParams) (st : CCState) (e : CCEvent) : Decidable (BaseReads p st e) :=
  match e with
  | .check txn env => inferInstanceAs (Decidable (∀ r ∈ readSetOr txn (mergedAt p st env txn), _ = true))
  | .addOngoing _ | .commit .. | .abort _ | .clean .. => .isTrue trivial

def ListedReaders (p : CCParams) (st : CCState) : Prop :=
  ∀ k, ∀ t ∈ st.preparedReads k, t ∈ st.prepared ∧ readsKey p t.readSet k = true

section Runs

variable {st st' : CCState} (h : ListedReaders p st)
include h

theorem ListedReaders.clean (t : Transaction) (hard : Bool) : ListedReaders p (st.clean p t hard) := by
  rw [CCState.clean]
  split
  · intro k t' ht'
    dsimp only at ht' ⊢
    split at ht'
    · obtain ⟨hmem, hne⟩ := mem_filter.mp ht'
      exact ⟨mem_filter.mpr ⟨(h k t' hmem).1, hne⟩, (h k t' hmem).2⟩
    · rename_i hkey
      obtain ⟨hprep, hk⟩ := h k t' ht'
      refine ⟨mem_filter.mpr ⟨hprep, ?_⟩, hk⟩
      exact decide_eq_true fun heq => hkey (heq ▸ hk)
  · exact h

theorem ListedReaders.abort (t : Transaction) : ListedReaders p (st.abort p t) := by
  have h' : ListedReaders p { st with aborted := t :: st.aborted } := h
  exact h'.clean t false

theorem ListedReaders.prepare (hbase : ∀ r ∈ readSet, readsKey p txn.readSet r.key = true) :
    ListedReaders p (st.prepare p txn readSet) := by
  rw [CCState.prepare]
  split
  · exact h
  have hold {k : Bytes} {t : Transaction} (ht : t ∈ st.preparedReads k) :
      t ∈ txn :: st.prepared ∧ readsKey p t.readSet k = true := ⟨mem_cons_of_mem _ (h k t ht).1, (h k t ht).2⟩
  intro k t ht
  dsimp only at ht
  split at ht
  · rename_i hk
    rcases mem_insert_iff.mp ht with rfl | ht
    · obtain ⟨-, r, hr, -, rfl⟩ := readsKey_iff.mp hk
      exact ⟨mem_cons_self, hbase r hr⟩
    · exact hold ht
  · exact hold ht

theorem ListedReaders.step {e : CCEvent} (hok : BaseReads p st e) (hs : st.step p e = some st') :
    ListedReaders p st' := by
  cases e with
  | addOngoing txn =>
    cases hs
    exact h
  | check txn env =>
    obtain ⟨r, hr, rfl⟩ := Option.map_eq_some_iff.mp hs
    have hmerged : ∀ f, ListedReaders p { st with merged := f } := fun _ => h
    refine doOCCCheck_rule (P := ListedReaders p) hr hmerged (fun s hs => hs.abort txn)
      fun m f hm _ _ => (hmerged f).prepare fun r hr => ?_
    rw [BaseReads, mergedAt, hm] at hok
    exact hok r hr
  | commit proof env =>
    rcases commit_cases hs with ⟨rfl, -⟩ | ⟨res, m, f, -, rfl⟩
    · exact h
    · refine ListedReaders.clean ?_ proof.txn false
      exact h
  | abort txn =>
    cases hs
    exact h.abort txn
  | clean txn hard =>
    cases hs
    exact h.clean txn hard

end Runs

/-- Prepared and aborted, a transaction leaves the indexes as they were iff they restore; where the reads checked are in
the base read sets too, only prepared transactions are listed as readers. -/
theorem prepare_undone_iff (p : CCParams) :
    (∀ (st st' : SemanticState) (txn : Transaction) (readSet : List ReadMessage) (tables : List Bytes),
      txn ∈ st.cc.ongoing → txn ∉ st.cc.prepared → st.prepare p txn readSet tables = some st' →
      ((∀ k, (st'.abort p txn).cc.preparedReads k = st.cc.preparedReads k) ∧
        (∀ i k, (st'.abort p txn).entries i k = st.entries i k) ↔ st.Restores p txn readSet tables)) ∧
    ∀ es st, Run.Meets (CCState.step p) (BaseReads p) {} es → Run.exec (CCState.step p) {} es = some st →
      ∀ k, ∀ t ∈ st.preparedReads k, t ∈ st.prepared := by
  refine ⟨fun st st' txn readSet tables hon hnew hprep => SemanticState.restores_iff hon hnew hprep,
    fun es st hm hs k t ht => ?_⟩
  have hlisted : ListedReaders p st :=
    Run.exec_invariant_of_meets (P := ListedReaders p) (fun h hok hs => h.step hok hs) (fun _ _ h => by cases h) hm hs
  exact (hlisted k t ht).1

/-- The writes of another transaction stay, and in `deletionRun` the reader that is listed is prepared. -/
theorem prepare_undone_iff_writing : (∃ st',
    (writing [(⟨7, 7⟩, sameTime)]).prepare oneGroup inserter [] [] = some st' ∧
      ∀ i k, (st'.abort oneGroup inserter).entries i k = (writing [(⟨7, 7⟩, sameTime)]).entries i k) ∧
    ∃ st, Run.exec (CCState.step oneGroup) {} deletionRun = some st ∧ absentReader ∈ st.preparedReads [7] ∧
      ∀ t ∈ st.preparedReads [7], t ∈ st.prepared := by
  have hprep : (writing [(⟨7, 7⟩, sameTime)]).prepare oneGroup inserter [] [] = some _ := rfl
  have hrun : Run.exec (CCState.step oneGroup) {} deletionRun = some _ := rfl
  have hmeets : Run.Meets (CCState.step oneGroup) (BaseReads oneGroup) {} deletionRun := by decide +kernel
  refine ⟨⟨_, hprep, (((prepare_undone_iff oneGroup).1 _ _ _ _ _ (by decide) (by decide) hprep).mpr ?_).2⟩,
    _, hrun, by decide +kernel, (prepare_undone_iff oneGroup).2 deletionRun _ hmeets hrun [7]⟩
  refine ⟨nofun, nofun, ?_, fun i _ _ h => by cases i <;> cases h⟩
  rintro ⟨⟩ k _ x hx
  · rw [mem_singleton.mp hx]
    decide
  all_goals cases hx

def queryReader : Transaction := { listedReader with readSet := [] }

theorem reader_left_behind : ∃ st,
    Run.exec (CCState.step oneGroup) {} [.addOngoing queryReader, .check queryReader {}, .abort queryReader] = some st ∧
      queryReader ∉ st.prepared ∧ queryReader ∈ st.preparedReads [7] := by
  refine ⟨_, rfl, ?_, ?_⟩ <;> decide +kernel

end Pequin
