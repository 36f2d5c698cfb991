import Pequin.Model.RowScan

/-!
# The version of a row that a query reads

Both scans walk down a version chain until a version ends the walk. A version that the query reads ends it, but so does
a prepared version that it may not read, and then nothing is read. The sequential scan does not look at the purge mark.
-/

namespace Pequin

open Bool List Option ScanTxn SeqScan Visit

namespace ScanTxn

/-- A query that collects a read set: eager, eager with a snapshot, or on a snapshot. -/
def Query (t : ScanTxn) : Prop := t.hasReadSetMgr = true ∧ t.isPointRead = false

variable (t : ScanTxn) (v : RowVersion)

def reads : Bool :=
  v.commitOrPrepare || if t.snapshotRead then t.inSnapshot v.txnDig else !v.materialize && t.canRead v.txnDig

/-- Prepared for good, and not readable: an eager query ends its walk here. -/
def endsUnread : Bool :=
  !v.commitOrPrepare && !v.materialize && !t.canRead v.txnDig && !t.snapshotRead &&
    (!t.hasSnapshotMgr || decide (t.kPreparedVersions = 0))

def stopsAt : Bool := decide (v.timestamp ≤ t.timestamp) && (t.reads v || t.endsUnread v)

def selectable : Bool := !v.purged && decide (v.timestamp ≤ t.timestamp) && t.reads v

def Newest (chain : List RowVersion) : Option RowVersion → Prop
  | some v => v ∈ chain ∧ t.selectable v = true ∧ ∀ u ∈ chain, t.selectable u = true → u.timestamp ≤ v.timestamp
  | none => ∀ u ∈ chain, t.selectable u = false

/-- The version at which the walk ends is to be selected, or it is not read and none below is. -/
def Clear (chain : List RowVersion) : Prop :=
  ∀ pre v post, chain = pre ++ v :: post → t.stopsAt v = true → (∀ u ∈ pre, t.stopsAt u = false) →
    if t.reads v then v.purged = false else ∀ u ∈ post, t.selectable u = false

end ScanTxn

def unpurged (chain : List RowVersion) : List RowVersion := chain.filter fun v => !v.purged

variable {t : ScanTxn} {v : RowVersion} {w : Walk} {chain : List RowVersion} {r : Option RowVersion}

namespace ScanTxn

theorem selectable_iff : t.selectable v = true ↔ v.purged = false ∧ t.stopsAt v = true ∧ t.reads v = true := by
  cases hr : t.reads v <;> simp [selectable, stopsAt, hr]

theorem clear_cons_of_stops (h : t.stopsAt v = true) :
    t.Clear (v :: chain) ↔ if t.reads v then v.purged = false else ∀ u ∈ chain, t.selectable u = false := by
  refine ⟨fun hc => hc [] v chain rfl h nofun, fun hc pre v' post heq _ hpre => ?_⟩
  cases pre with
  | nil =>
    cases heq
    exact hc
  | cons u pre =>
    cases heq
    have hv := hpre v mem_cons_self
    rw [h] at hv
    cases hv

theorem clear_cons_of_passes (h : t.stopsAt v = false) : t.Clear (v :: chain) ↔ t.Clear chain := by
  constructor
  · intro hc pre v' post heq hstop hpre
    refine hc (v :: pre) v' post (by rw [heq]; rfl) hstop fun u hu => ?_
    rcases mem_cons.mp hu with rfl | hu
    · exact h
    · exact hpre u hu
  · intro hc pre v' post heq hstop hpre
    cases pre with
    | nil =>
      cases heq
      rw [h] at hstop
      cases hstop
    | cons u pre =>
      cases heq
      exact hc pre v' post rfl hstop fun u hu => hpre u (mem_cons_of_mem _ hu)

theorem newest_iff (hdesc : chain.Pairwise fun a b => b.timestamp < a.timestamp) :
    t.Newest chain r ↔ r = chain.find? t.selectable := by
  induction chain with
  | nil => cases r <;> simp [Newest]
  | cons v chain ih =>
    obtain ⟨hv, hdesc⟩ := pairwise_cons.mp hdesc
    have ih := ih hdesc
    rw [List.find?_cons]
    cases hs : t.selectable v with
    | true =>
      cases r with
      | none => simp [Newest, hs]
      | some u =>
        constructor
        · rintro ⟨hu, -, hmax⟩
          rcases mem_cons.mp hu with rfl | hu
          · rfl
          · exact absurd (hmax v mem_cons_self hs) (not_le.mpr (hv u hu))
        · intro heq
          cases heq
          refine ⟨mem_cons_self, hs, fun u hu _ => ?_⟩
          rcases mem_cons.mp hu with rfl | hu
          · exact le_rfl
          · exact (hv u hu).le
    | false =>
      rw [← ih]
      cases r with
      | none => simp [Newest, hs]
      | some u =>
        constructor
        · rintro ⟨hu, hsel, hmax⟩
          refine ⟨(mem_cons.mp hu).resolve_left ?_, hsel, fun u' hu' => hmax u' (mem_cons_of_mem _ hu')⟩
          rintro rfl
          rw [hs] at hsel
          cases hsel
        · rintro ⟨hu, hsel, hmax⟩
          refine ⟨mem_cons_of_mem _ hu, hsel, fun u' hu' hsel' => ?_⟩
          rcases mem_cons.mp hu' with rfl | hu'
          · rw [hs] at hsel'
            cases hsel'
          · exact hmax u' hu' hsel'

theorem newest_unpurged : t.Newest (unpurged chain) r ↔ t.Newest chain r := by
  have hmem (u : RowVersion) (hs : t.selectable u = true) : u ∈ unpurged chain ↔ u ∈ chain := by
    simp [unpurged, (selectable_iff.mp hs).1]
  cases r with
  | none =>
    refine ⟨fun h u hu => ?_, fun h u hu => h u (mem_filter.mp hu).1⟩
    by_contra hs
    rw [not_eq_false] at hs
    rw [h u ((hmem u hs).mpr hu)] at hs
    cases hs
  | some v =>
    constructor
    · rintro ⟨hv, hs, hmax⟩
      exact ⟨(hmem v hs).mp hv, hs, fun u hu hu' => hmax u ((hmem u hu').mpr hu) hu'⟩
    · rintro ⟨hv, hs, hmax⟩
      exact ⟨(hmem v hs).mpr hv, hs, fun u hu hu' => hmax u ((hmem u hu').mp hu) hu'⟩

end ScanTxn

theorem findRightRowVersion_eq (ht : t.Query) : IndexScan.findRightRowVersion t v w = findRightRowVersion t v w := by
  obtain ⟨hread, hpoint⟩ := ht
  have hperform : t.performRead = true := by simp [performRead, hread]
  have hwrite : t.writeMode = false := by simp [writeMode, hperform]
  have heq : IndexScan.readVersion t v w = readVersion t v w := by
    simp [IndexScan.readVersion, readVersion, hperform, hwrite, hpoint]
  rw [IndexScan.findRightRowVersion, findRightRowVersion, heq]

theorem checkRow_eq_seq (ht : t.Query) : (IndexScan.checkRow t chain w).1 = SeqScan.checkRow t (unpurged chain) w := by
  induction chain generalizing w with
  | nil => rfl
  | cons v chain ih =>
    rw [IndexScan.checkRow, findRightRowVersion_eq ht, ht.2]
    cases hp : v.purged with
    | true =>
      rw [unpurged, filter_cons_of_neg (by simp [hp])]
      exact ih
    | false =>
      rw [unpurged, filter_cons_of_pos (by simp [hp]), SeqScan.checkRow]
      by_cases hle : v.timestamp ≤ t.timestamp
      · simp only [hle, decide_true, Bool.not_false, Bool.and_self, ↓reduceIte, Bool.false_eq_true]
        split
        · rfl
        · exact ih
      · simp only [hle, decide_false, Bool.not_false, Bool.and_false, ↓reduceIte, Bool.false_eq_true]
        exact ih

structure Walk.Fresh (w : Walk) : Prop where
  numIters : w.numIters = 0
  foundCommitted : w.foundCommitted = false
  foundPrepared : w.foundPrepared = false
  numReads : w.numReads = 0
  evaluated : w.evaluated = []

theorem findRightRowVersion_keeps : (findRightRowVersion t v w).walk.numReads = w.numReads ∧
    (findRightRowVersion t v w).walk.evaluated = w.evaluated := by
  have hread : (readVersion t v w).1.walk.numReads = w.numReads ∧
      (readVersion t v w).1.walk.evaluated = w.evaluated := by
    unfold readVersion
    split_ifs <;> exact ⟨rfl, rfl⟩
  unfold findRightRowVersion
  split
  · rename_i x hx
    rw [hx] at hread
    exact hread
  rename_i x hx
  rw [hx] at hread
  rw [← hread.1, ← hread.2]
  unfold findSnapshot readOnSnapshot
  split_ifs <;> exact ⟨rfl, rfl⟩

theorem checkRow_evaluated (hw : 0 < w.numReads) : (SeqScan.checkRow t chain w).evaluated = w.evaluated := by
  induction chain generalizing w with
  | nil => rfl
  | cons v chain ih =>
    obtain ⟨hreads, heval⟩ := findRightRowVersion_keeps (t := t) (v := v) (w := w)
    have hskip (x : Visit) (hx : x.walk.numReads = w.numReads ∧ x.walk.evaluated = w.evaluated) :
        ((Walk.evalRead t 1 v x).skip t v x.done).evaluated = w.evaluated ∧
          0 < ((Walk.evalRead t 1 v x).skip t v x.done).numReads := by
      unfold Walk.skip Walk.evalRead
      split_ifs <;> simp_all
    rw [SeqScan.checkRow]
    split
    · dsimp only
      obtain ⟨h1, h2⟩ := hskip _ ⟨hreads, heval⟩
      split
      · exact h1
      · rw [ih h2, h1]
    · exact ih hw

theorem findRightRowVersion_reads (ht : t.Query) (hw : w.Fresh) (hr : t.reads v = true) :
    (findRightRowVersion t v w).readCurrVersion = true := by
  have hperform : t.performRead = true := by simp [performRead, ht.1]
  have hfind (x : Visit) : (x.findSnapshot t v).readCurrVersion = x.readCurrVersion := by
    unfold findSnapshot
    split_ifs <;> rfl
  have hsnap (x : Visit) (hx : x.readCurrVersion = true) : (x.readOnSnapshot t v).readCurrVersion = true := by
    unfold readOnSnapshot
    split_ifs
    · rfl
    · exact hx
  unfold findRightRowVersion readVersion
  simp only [hperform, ↓reduceIte, hw.foundPrepared, Bool.false_eq_true]
  cases hc : v.commitOrPrepare with
  | true =>
    simp only [↓reduceIte, hfind]
    exact hsnap _ rfl
  | false =>
    cases hs : t.snapshotRead with
    | true =>
      have hin : t.inSnapshot v.txnDig = true := by simpa [reads, hc, hs] using hr
      simp [hfind, readOnSnapshot, hs, hw.foundCommitted, hin]
    | false =>
      have hcan : v.materialize = false ∧ t.canRead v.txnDig = true := by
        simpa [reads, hc, hs] using hr
      simp only [hcan.1, hcan.2, hw.numIters, decide_true, Bool.and_self, ↓reduceIte, Bool.false_eq_true, hfind]
      exact hsnap _ rfl

theorem findRightRowVersion_unread (ht : t.Query) (hw : w.Fresh) (hr : t.reads v = false) :
    findRightRowVersion t v w = { walk := w, done := t.endsUnread v } := by
  have hperform : t.performRead = true := by simp [performRead, ht.1]
  have hc : v.commitOrPrepare = false := (or_eq_false_iff.mp hr).1
  unfold findRightRowVersion readVersion
  simp only [hperform, ↓reduceIte, hc, hw.foundPrepared, Bool.false_eq_true]
  cases hs : t.snapshotRead with
  | true =>
    -- a read on a snapshot does not search for one
    have hnomgr : t.hasSnapshotMgr = false := by
      by_contra hmgr
      have hnone := t.finds_or_reads (by simpa using hmgr)
      simp [snapshotRead, hnone] at hs
    have hin : t.inSnapshot v.txnDig = false := by simpa [reads, hc, hs] using hr
    simp [readOnSnapshot, hin, findSnapshot, hnomgr, endsUnread, hs]
  | false =>
    cases hm : v.materialize with
    | true => simp [endsUnread, hm]
    | false =>
      have hcan : t.canRead v.txnDig = false := by simpa [reads, hc, hs, hm] using hr
      cases hmgr : t.hasSnapshotMgr with
      | false => simp [hcan, readOnSnapshot, findSnapshot, hs, hmgr, endsUnread, hc, hm]
      | true =>
        simp [hcan, readOnSnapshot, findSnapshot, hs, hmgr, endsUnread, hc, hm, hw.numIters]

theorem Walk.Fresh.skip (hw : w.Fresh) (done : Bool) : (w.skip t v done).Fresh := by
  unfold Walk.skip
  split
  · exact ⟨hw.numIters, hw.foundCommitted, hw.foundPrepared, hw.numReads, hw.evaluated⟩
  · exact hw

theorem evaluated_of_fresh (ht : t.Query) (hw : w.Fresh) :
    (SeqScan.checkRow t chain w).evaluated = ((chain.find? t.stopsAt).filter t.reads).toList := by
  induction chain generalizing w with
  | nil => simp [SeqScan.checkRow, hw.evaluated]
  | cons v chain ih =>
    rw [SeqScan.checkRow, List.find?_cons]
    by_cases hle : v.timestamp ≤ t.timestamp
    · rw [if_pos hle]
      cases hr : t.reads v with
      | true =>
        have hstop : t.stopsAt v = true := by simp [stopsAt, hle, hr]
        obtain ⟨hreads, heval⟩ := findRightRowVersion_keeps (t := t) (v := v) (w := w)
        have hread := findRightRowVersion_reads ht hw hr
        have honly : t.snapshotOnlyMode = false := by simp [snapshotOnlyMode, ht.1]
        -- the version is evaluated, and no other one after it
        have hw' (x : Visit) (hx : x.readCurrVersion = true) (hn : x.walk.numReads = w.numReads)
            (he : x.walk.evaluated = w.evaluated) : 0 < ((Walk.evalRead t 1 v x).skip t v x.done).numReads ∧
              ((Walk.evalRead t 1 v x).skip t v x.done).evaluated = [v] := by
          have hw0 : x.walk.numReads = 0 := hn.trans hw.numReads
          have he0 : x.walk.evaluated = [] := he.trans hw.evaluated
          have h1 : Walk.evalRead t 1 v x = { x.walk with numReads := 1, evaluated := [v] } := by
            simp [Walk.evalRead, hx, hw0, he0, honly]
          rw [h1]
          unfold Walk.skip
          split <;> exact ⟨Nat.one_pos, rfl⟩
        obtain ⟨hpos, hone⟩ := hw' _ hread hreads heval
        simp only [hstop]
        split
        · rw [hone]
          simp [Option.filter, hr]
        · rw [checkRow_evaluated hpos, hone]
          simp [Option.filter, hr]
      | false =>
        rw [findRightRowVersion_unread ht hw hr]
        have hstop : t.stopsAt v = t.endsUnread v := by simp [stopsAt, hle, hr]
        rw [hstop]
        have hfresh : ((Walk.evalRead t 1 v { walk := w, done := t.endsUnread v }).skip t v (t.endsUnread v)).Fresh :=
          hw.skip _
        cases he : t.endsUnread v with
        | true =>
          rw [he] at hfresh
          simp [hfresh.evaluated, Option.filter, hr]
        | false =>
          rw [he] at hfresh
          exact ih hfresh
    · have hstop : t.stopsAt v = false := by simp [stopsAt, hle]
      rw [if_neg hle, hstop]
      exact ih hw

theorem select_seq (ht : t.Query) : select t chain = (chain.find? t.stopsAt).filter t.reads := by
  rw [select, evaluated_of_fresh ht ⟨rfl, rfl, rfl, rfl, rfl⟩, head?_toList]

theorem select_index (ht : t.Query) : IndexScan.select t chain = select t (unpurged chain) := by
  rw [IndexScan.select, checkRow_eq_seq ht, select]

theorem evaluated_index (ht : t.Query) : (IndexScan.checkRow t chain {}).1.evaluated =
    (IndexScan.select t chain).toList := by
  rw [select_index ht, select_seq ht, checkRow_eq_seq ht]
  exact evaluated_of_fresh ht ⟨rfl, rfl, rfl, rfl, rfl⟩

theorem mem_of_select (ht : t.Query) (h : IndexScan.select t chain = some v) : v ∈ chain ∧ v.purged = false := by
  rw [select_index ht, select_seq ht] at h
  have hmem := mem_of_find?_eq_some (filter_eq_some_iff.mp h).1
  simpa [unpurged] using hmem

/-- The first version that ends the walk is the first one to select, exactly if the chain is clear. -/
theorem find?_stopsAt_iff : (chain.find? t.stopsAt).filter t.reads = chain.find? t.selectable ↔ t.Clear chain := by
  induction chain with
  | nil => simp [Clear]
  | cons v chain ih =>
    rw [List.find?_cons, List.find?_cons]
    cases hstop : t.stopsAt v with
    | false =>
      have hsel : t.selectable v = false := by
        by_contra hsel
        rw [not_eq_false, selectable_iff] at hsel
        rw [hsel.2.1] at hstop
        cases hstop
      rw [hsel, clear_cons_of_passes hstop]
      exact ih
    | true =>
      rw [clear_cons_of_stops hstop]
      cases hr : t.reads v with
      | true =>
        cases hp : v.purged with
        | false =>
          have hsel : t.selectable v = true := selectable_iff.mpr ⟨hp, hstop, hr⟩
          simp [hsel, Option.filter, hr]
        | true =>
          -- the purged version is read, and never to be selected
          have hsel : t.selectable v = false := by simp [selectable, hp]
          simp only [hsel, Option.filter, hr, ↓reduceIte, true_eq_false, iff_false]
          intro heq
          have hmem := List.find?_some heq.symm
          rw [hsel] at hmem
          cases hmem
      | false =>
        have hsel : t.selectable v = false := by simp [selectable, hr]
        simp only [hsel, Option.filter, hr, Bool.false_eq_true, ↓reduceIte]
        rw [eq_comm, List.find?_eq_none]
        simp

/-- Each scan reads the newest version to be selected exactly if its chain is clear: the whole chain for the sequential
scan, the unpurged versions for the index scan. Then both read the same, and no row with a committed version is missed.
-/
theorem row_selection_iff (t : ScanTxn) (ht : t.Query) (chain : List RowVersion)
    (hdesc : chain.Pairwise fun a b => b.timestamp < a.timestamp) :
    (t.Newest chain (IndexScan.select t chain) ↔ t.Clear (unpurged chain)) ∧
    (t.Newest chain (SeqScan.select t chain) ↔ t.Clear chain) ∧
    (t.Clear (unpurged chain) → t.Clear chain → IndexScan.select t chain = SeqScan.select t chain) ∧
    (t.Clear (unpurged chain) → (∃ v ∈ chain, v.commitOrPrepare = true ∧ v.purged = false ∧ v.timestamp ≤ t.timestamp) →
      (IndexScan.select t chain).isSome = true) := by
  have hindex : t.Newest chain (IndexScan.select t chain) ↔ t.Clear (unpurged chain) := by
    have hdesc' : (unpurged chain).Pairwise fun a b => b.timestamp < a.timestamp := hdesc.filter _
    rw [← newest_unpurged, newest_iff hdesc', select_index ht, select_seq ht]
    exact find?_stopsAt_iff
  have hseq : t.Newest chain (select t chain) ↔ t.Clear chain := by
    rw [newest_iff hdesc, select_seq ht]
    exact find?_stopsAt_iff
  refine ⟨hindex, hseq, fun hi hs => ?_, fun hi hcommitted => ?_⟩
  · have hi := (newest_iff hdesc).mp (hindex.mpr hi)
    have hs := (newest_iff hdesc).mp (hseq.mpr hs)
    exact hi.trans hs.symm
  obtain ⟨v, hv, hc, hp, hle⟩ := hcommitted
  have hnewest := hindex.mpr hi
  cases hsel : IndexScan.select t chain with
  | some u => rfl
  | none =>
    rw [hsel] at hnewest
    have hno := hnewest v hv
    simp [selectable, reads, hc, hp, hle] at hno

def eagerScan : ScanTxn :=
  { timestamp := ⟨30, 1⟩, hasReadSetMgr := true, readPreparedPred := some fun dig => dig == [5] }

def committedRow : RowVersion := { timestamp := ⟨10, 2⟩, txnDig := [1], commitOrPrepare := true }

/-- A prepared version that may not be read hides the committed one from both scans, a purged one from the sequential
scan. -/
theorem hidden_row : (eagerScan.selectable committedRow = true ∧
      (let chain := [{ committedRow with timestamp := ⟨20, 3⟩, txnDig := [4], commitOrPrepare := false }, committedRow]
       IndexScan.select eagerScan chain = none ∧ SeqScan.select eagerScan chain = none)) ∧
    (let purgedRow : RowVersion :=
      { committedRow with timestamp := ⟨20, 3⟩, txnDig := [5], commitOrPrepare := false, purged := true }
     IndexScan.select eagerScan [purgedRow, committedRow] = some committedRow ∧
      SeqScan.select eagerScan [purgedRow, committedRow] = some purgedRow) := by
  decide +kernel

/-- A purged version, a materialized one, a prepared one that the query may read, and a committed one. -/
def mixedChain : List RowVersion :=
  [{ committedRow with
      timestamp := ⟨28, 6⟩, txnDig := [6], commitOrPrepare := false, materialize := true, purged := true },
    { committedRow with timestamp := ⟨25, 4⟩, txnDig := [4], commitOrPrepare := false, materialize := true },
    { committedRow with timestamp := ⟨20, 5⟩, txnDig := [5], commitOrPrepare := false }, committedRow]

theorem row_selection_iff_mixed : eagerScan.Newest mixedChain (IndexScan.select eagerScan mixedChain) ∧
    eagerScan.Newest mixedChain (SeqScan.select eagerScan mixedChain) ∧
    IndexScan.select eagerScan mixedChain = mixedChain[2]? := by
  have hsel := row_selection_iff eagerScan ⟨rfl, rfl⟩ mixedChain (by decide +kernel)
  exact ⟨hsel.1.mpr (find?_stopsAt_iff.mp (by decide +kernel)),
    hsel.2.1.mpr (find?_stopsAt_iff.mp (by decide +kernel)), by decide +kernel⟩

end Pequin
