import Pequin.Model.ConcurrencyControl
import Pequin.Framework.Run

/-!
# Conflicts of point reads and writes

Two transactions are in conflict if one has read a key of the group at a version below the timestamp at which the other
writes it, and the writer is before the reader. At a replica, a transaction that has passed its check is in no conflict
with another one that has (`no_conflict`), as long as it is prepared, and for good if it is committed while it is
prepared. The exception are reads of a row that was deleted, which are recorded at the genesis version: they do not
conflict with deletions, nor with what a deletion covers.

The steps are to be orderly (`Orderly`): the check goes by the first entry for a key in a read set, the index of
prepared writes has room for one transaction at a time and key, and the exemption of deleted rows skips the prepared
writes. `OccInv` ties the indexes of the check to the transactions; every step keeps it.
-/

namespace Pequin

open CCState List Versions

def CCEvent.txn : CCEvent → Transaction
  | .addOngoing txn | .check txn _ | .abort txn | .clean txn _ => txn
  | .commit proof _ => proof.txn

variable {k : Bytes} {ts : Timestamp} {read : ReadMessage} {w : WriteMessage} {reader writer txn : Transaction}
  {env : CheckEnv} {proof : CommittedProof} {st st' : CCState} {l : List (Timestamp × Timestamp × CommittedProof)}
  {x : Timestamp × Timestamp × CommittedProof} {r : CCState × OccOutcome} {p : CCParams}

/-- The state, with the transactions that were committed while they were prepared. -/
structure History where
  st : CCState := {}
  settled : List Transaction := []

def History.step (p : CCParams) (h : History) (e : CCEvent) : Option History :=
  (h.st.step p e).map fun st =>
    ⟨st, match e with
      | .commit proof _ =>
        if h.st.prepared.contains proof.txn then proof.txn :: h.settled else h.settled
      | _ => h.settled⟩

/-- Prepared by its own check, or committed after it. -/
def History.live (h : History) (t : Transaction) : Prop := t ∈ h.st.prepared ∨ t ∈ h.settled

/-- `reader` has read the key below the timestamp at which `writer` writes it, and `writer` is before `reader`. -/
structure Conflict (p : CCParams) (reader writer : Transaction) (read : ReadMessage) : Prop where
  owned : p.isKeyOwned read.key = true
  mem : read ∈ reader.readSet
  point : read.isTableColVersion = false
  writes : writesKey p writer.writeSet read.key = true
  after : read.readtime < writer.timestamp
  before : writer.timestamp < reader.timestamp

def Transaction.deletes (t : Transaction) (k : Bytes) : Prop :=
  ∀ w ∈ t.writeSet, w.isTableColVersion = false → w.key = k → w.isDeletion = true
  deriving Decidable

/-- The key was read at the genesis version, and the writer deletes it, or a committed deletion follows before the
reader. -/
def Exempt (st : CCState) (reader writer : Transaction) (read : ReadMessage) : Prop :=
  read.readtime = .genesis ∧ (writer.deletes read.key ∨
    ∃ t proof, (t, deletionMark, proof) ∈ st.store read.key ∧ writer.timestamp ≤ t ∧ t < reader.timestamp)

/-- The reads of the transaction are those of its own read set (`mergeTxReadSets` returns at once). -/
def Transaction.ownReads (p : CCParams) (t : Transaction) : Bool :=
  (!p.cacheReadSet && p.mergeActiveAtClient) || t.querySet.isEmpty

def Transaction.OneVersion (t : Transaction) : Prop :=
  ∀ r ∈ t.readSet, ∀ r' ∈ t.readSet, r.key = r'.key → r.readtime = r'.readtime
  deriving Decidable

def Transaction.Overlaps (t t' : Transaction) : Prop :=
  ∃ w ∈ t.writeSet, ∃ w' ∈ t'.writeSet, w.key = w'.key
  deriving Decidable

/-- A key read at the genesis version because its latest committed version is a deletion has no other prepared writes
than deletions after that and before the reader. -/
def Transaction.SeesDeletions (p : CCParams) (st : CCState) (t : Transaction) : Prop :=
  ∀ r ∈ t.readSet, p.isKeyOwned r.key = true → r.isTableColVersion = false → r.readtime = .genesis →
    ∀ y ∈ latestBefore t.timestamp (st.store r.key), y.2.1 = deletionMark →
      ∀ x ∈ st.preparedWrites r.key, x.1 < t.timestamp → x.1 ≤ y.1 ∨ x.2.deletes r.key

instance (p : CCParams) (st : CCState) (t : Transaction) : Decidable (t.SeesDeletions p st) := by
  unfold Transaction.SeesDeletions
  exact @List.decidableBAll _ _
    (fun _ => @instDecidableForall _ _ _ (@instDecidableForall _ _ _ (@instDecidableForall _ _ _ inferInstance))) _

/-- A check of a transaction with one version for each key read, whose timestamp no prepared transaction with a written
key in common has, and whose reads of deleted rows overlook no prepared write. -/
structure Orderly (p : CCParams) (st : CCState) (t : Transaction) : Prop where
  oneVersion : t.OneVersion
  deletions : t.SeesDeletions p st
  apart : ∀ t' ∈ st.prepared, t' ≠ t → t'.Overlaps t → t'.timestamp ≠ t.timestamp

instance (p : CCParams) (st : CCState) (t : Transaction) : Decidable (Orderly p st t) :=
  decidable_of_iff (_ ∧ _ ∧ _) ⟨fun h => ⟨h.1, h.2.1, h.2.2⟩, fun h => ⟨h.1, h.2, h.3⟩⟩

def History.orderly (p : CCParams) (h : History) : CCEvent → Prop
  | .check txn _ => Orderly p h.st txn
  | _ => True

instance (p : CCParams) (h : History) (e : CCEvent) : Decidable (h.orderly p e) := by
  cases e <;> unfold History.orderly <;> infer_instance

/-! ## What the checks find -/

theorem readsKey_iff {l : List ReadMessage} : readsKey p l k = true ↔
    p.isKeyOwned k = true ∧ ∃ r ∈ l, r.isTableColVersion = false ∧ r.key = k := by
  simp [readsKey]

theorem writesKey_iff {l : List WriteMessage} : writesKey p l k = true ↔
    p.isKeyOwned k = true ∧ ∃ w ∈ l, w.isTableColVersion = false ∧ w.key = k := by
  simp [writesKey]

theorem overlaps_of_writesKey {t t' : Transaction} (h : writesKey p t.writeSet k = true)
    (h' : writesKey p t'.writeSet k = true) : t.Overlaps t' := by
  obtain ⟨-, w, hw, -, hk⟩ := writesKey_iff.mp h
  obtain ⟨-, w', hw', -, hk'⟩ := writesKey_iff.mp h'
  exact ⟨w, hw, w', hw', hk.trans hk'.symm⟩

theorem checkPreparedWrite_none_iff : checkPreparedWrite st ts read = none ↔
    ∀ y ∈ latestBefore ts (st.preparedWrites read.key), y.1 ≤ read.readtime := by
  rw [checkPreparedWrite]
  cases latestBefore ts (st.preparedWrites read.key) <;> simp

theorem checkRead_none_iff (hown : p.isKeyOwned read.key = true) (hpoint : read.isTableColVersion = false) :
    checkRead p st ts read = none ↔ (read.readtime = .genesis ∧
      ∃ t proof, latestBefore ts (st.store read.key) = some (t, deletionMark, proof)) ∨
    (∀ x ∈ st.store read.key, x.1 < ts → x.1 ≤ read.readtime) ∧
      ∀ x ∈ st.preparedWrites read.key, x.1 < ts → x.1 ≤ read.readtime := by
  rw [← latestBefore_le_iff, ← latestBefore_le_iff, ← checkPreparedWrite_none_iff, checkRead, hpoint, hown]
  cases latestBefore ts (st.store read.key) with
  | none => simp
  | some y =>
    by_cases hgen : read.readtime = .genesis ∧ y.2.1 = deletionMark
    · simp [hgen, Prod.ext_iff]
    by_cases hlt : read.readtime < y.1
    · simp [hgen, hlt, Prod.ext_iff]
    · simp [hgen, hlt, Prod.ext_iff, not_lt.mp hlt]

/-- The check of a read finds a conflict if some write is between the version read and the reader, unless exempt. -/
theorem read_check_exact (p : CCParams) (st : CCState) (ts : Timestamp) (read : ReadMessage) :
    checkRead p st ts read ≠ none ↔ p.isKeyOwned read.key = true ∧ read.isTableColVersion = false ∧
      ¬(read.readtime = .genesis ∧ ∃ t proof, latestBefore ts (st.store read.key) = some (t, deletionMark, proof)) ∧
      ((∃ x ∈ st.store read.key, x.1 < ts ∧ read.readtime < x.1) ∨
        ∃ x ∈ st.preparedWrites read.key, x.1 < ts ∧ read.readtime < x.1) := by
  cases hown : p.isKeyOwned read.key with
  | false => simp [checkRead, hown]
  | true =>
    cases hpoint : read.isTableColVersion with
    | true => simp [checkRead, hpoint]
    | false =>
      rw [Ne, checkRead_none_iff hown hpoint, not_or]
      simp only [not_and_or, not_forall, not_le, exists_prop, true_and]

/-- No committed reader after a write that passes has read before it, but for the genesis version if it is a deletion.
-/
theorem scanCommittedReads_none {deletion : Bool} (hs : l.Pairwise fun a b => b.1 ≤ a.1)
    (h : scanCommittedReads ts deletion l = none) (hx : x ∈ l)
    (hlt : ts < x.1) (hread : x.2.1 < ts) : x.2.1 = .genesis ∧ deletion = true := by
  induction l with
  | nil => cases hx
  | cons y l ih =>
    rw [pairwise_cons] at hs
    rw [scanCommittedReads] at h
    split at h
    · -- the loop ends: all other readers are earlier
      rename_i hle
      rcases mem_cons.mp hx with rfl | hx
      · exact absurd hlt (not_lt.mpr hle)
      · exact absurd hlt (not_lt.mpr ((hs.1 x hx).trans hle))
    · rcases mem_cons.mp hx with rfl | hx
      · rw [if_pos hread] at h
        split at h
        · assumption
        · cases h
      · refine ih hs.2 ?_ hx
        split at h
        · split at h
          · exact h
          · cases h
        · exact h

/-- No prepared reader after a write that passes has read before it, but for the genesis version if it is a deletion. -/
theorem conflictsPreparedRead_false (h : conflictsPreparedRead ts w reader = false) (hone : reader.OneVersion)
    (hmem : read ∈ reader.readSet) (hkey : read.key = w.key) (hlt : ts < reader.timestamp)
    (hread : read.readtime < ts) : read.readtime = .genesis ∧ w.isDeletion = true := by
  rw [conflictsPreparedRead, decide_eq_true hlt, Bool.true_and] at h
  have hfound : (reader.readSet.find? fun r => r.key == w.key).isSome = true :=
    List.find?_isSome.mpr ⟨read, hmem, by rw [hkey]; exact beq_self_eq_true _⟩
  obtain ⟨r, hr⟩ := Option.isSome_iff_exists.mp hfound
  rw [hr] at h
  have hkey' : r.key = w.key := by
    have := List.find?_some hr
    rwa [beq_iff_eq] at this
  have htime : r.readtime = read.readtime :=
    hone r (mem_of_find?_eq_some hr) read hmem (hkey'.trans hkey.symm)
  dsimp only at h
  rw [htime, decide_eq_true hread, Bool.true_and, Bool.not_eq_false', Bool.and_eq_true, decide_eq_true_eq] at h
  exact h

theorem checkWrite_none
    (h : checkWrite p st env ts w = none) (hown : p.isKeyOwned w.key = true) (hpoint : w.isTableColVersion = false) :
    scanCommittedReads ts w.isDeletion (st.committedReads w.key) = none ∧
      ∀ reader ∈ st.preparedReads w.key, conflictsPreparedRead ts w reader = false := by
  rw [checkWrite, hpoint, hown] at h
  simp only [Bool.not_true, Bool.or_self, Bool.false_eq_true, if_false] at h
  split at h
  · cases h
  rename_i hscan
  refine ⟨hscan, fun reader hr => ?_⟩
  split at h
  · cases h
  · rename_i hnot
    rw [Bool.or_eq_true, not_or, any_eq_true] at hnot
    by_contra hc
    exact hnot.1 ⟨reader, hr, by simpa using hc⟩

/-! ## What the updates do -/

theorem storedValue_isSome (l : List WriteMessage) (val : Bytes) :
    (storedValue p k l val).isSome = writesKey p l k := by
  induction l generalizing val with
  | nil => simp [storedValue, writesKey]
  | cons w l ih =>
    have hcons : writesKey p (w :: l) k =
        (p.isKeyOwned k && (!w.isTableColVersion && w.key == k) || writesKey p l k) := by
      rw [writesKey, any_cons, Bool.and_or_distrib_left, writesKey]
    rw [storedValue, hcons]
    by_cases hk : w.key = k
    · subst hk
      cases p.isKeyOwned w.key <;> cases w.isTableColVersion <;> simp [ih]
    · split <;> simp [hk, ih]

theorem mem_foldl_orderedInsert (reads : List ReadMessage) :
    x ∈ reads.foldl (fun l r => l.orderedInsert (fun a b => b.1 ≤ a.1) (ts, r.readtime, proof)) l ↔
      x ∈ l ∨ ∃ r ∈ reads, x = (ts, r.readtime, proof) := by
  induction reads generalizing l with
  | nil => simp
  | cons r reads ih =>
    rw [foldl_cons, ih, mem_orderedInsert]
    simp only [mem_cons, exists_eq_or_imp]
    tauto

theorem foldl_orderedInsert (reads : List ReadMessage) (hs : l.Pairwise fun a b => b.1 ≤ a.1) :
    let l' := reads.foldl (fun l r => l.orderedInsert (fun a b => b.1 ≤ a.1) (ts, r.readtime, proof)) l
    (l'.Pairwise fun a b => b.1 ≤ a.1) ∧ ∀ x, x ∈ l' ↔ x ∈ l ∨ ∃ r ∈ reads, x = (ts, r.readtime, proof) := by
  refine ⟨?_, fun x => mem_foldl_orderedInsert reads⟩
  induction reads generalizing l with
  | nil => exact hs
  | cons r reads ih => exact ih (hs.orderedInsert (ts, r.readtime, proof) l)

/-! ## What a step does -/

theorem recordMerged_eq (st : CCState) (txn : Transaction) (m : Option ReadSet) :
    ∃ f, st.recordMerged txn m = { st with merged := f } := by
  cases m with
  | none => exact ⟨st.merged, rfl⟩
  | some rs => exact ⟨_, rfl⟩

/-- A check keeps what holds with any merged read sets, after an abort, and when a transaction that passes is prepared.
-/
theorem doOCCCheck_rule {P : CCState → Prop} (hr : st.doOCCCheck p env txn = some r)
    (hmerged : ∀ f, P { st with merged := f }) (habort : ∀ s, P s → P (s.abort p txn))
    (hprepare : ∀ m f, mergeTxReadSets p env.cache env.subscribed (st.merged txn) txn = some (.commit, m) →
      (∀ x ∈ readSetOr txn m, checkRead p st txn.timestamp x = none) →
      (∀ w ∈ txn.writeSet, checkWrite p st env txn.timestamp w = none) →
      P ({ st with merged := f }.prepare p txn (readSetOr txn m))) : P r.1 := by
  rw [CCState.doOCCCheck] at hr
  split at hr
  · cases hr
  split at hr
  · cases hr
  · rename_i m hm
    have hcheck : P (doMVTSOOCCCheck p (st.recordMerged txn m) env txn (readSetOr txn m)).1 := by
      obtain ⟨f, hf⟩ := recordMerged_eq st txn m
      rw [hf, doMVTSOOCCCheck]
      split
      · exact hmerged f
      split
      · exact hmerged f
      split
      · exact hmerged f
      rename_i hreads
      split
      · exact hmerged f
      rename_i hwrites
      split
      · exact hmerged f
      rw [List.findSome?_eq_none_iff] at hreads hwrites
      rw [activate]
      split
      · exact hprepare m f hm hreads hwrites
      · exact hprepare m _ hm hreads hwrites
    split at hr
    · rename_i st' proof heq
      cases hr
      rw [heq] at hcheck
      exact habort _ hcheck
    · cases hr
      exact hcheck
  · cases hr
    exact hmerged st.merged

theorem commit_cases (hst : st.commit p env proof = some st') : (st' = st ∧ ∃ q ∈ st.committed, q.txn = proof.txn) ∨
    ∃ res m f, mergeTxReadSets p env.cache env.subscribed (st.merged proof.txn) proof.txn = some (res, m) ∧
      st' = (({ st with merged := f, committed := proof :: st.committed }.updateCommittedReads p proof
        (readSetOr proof.txn m)).commitToStore p proof).clean p proof.txn false := by
  rw [commit] at hst
  split at hst
  · rename_i hany
    cases hst
    obtain ⟨q, hq, heq⟩ := any_eq_true.mp hany
    exact .inl ⟨rfl, q, hq, beq_iff_eq.mp heq⟩
  split at hst
  · cases hst
  rename_i res m hm
  obtain ⟨f, hf⟩ := recordMerged_eq { st with committed := proof :: st.committed } proof.txn m
  cases hst
  rw [hf]
  exact .inr ⟨res, m, f, hm, rfl⟩

/-! ## The invariant -/

/-- The indexes hold the prepared and committed transactions, and those that passed are not in conflict. -/
structure OccInv (p : CCParams) (st : CCState) (settled : List Transaction) : Prop where
  reads : ∀ t ∈ st.prepared, t.ownReads p = true → ∀ k, readsKey p t.readSet k = true → t ∈ st.preparedReads k
  writes : ∀ t ∈ st.prepared, ∀ k, writesKey p t.writeSet k = true → (t.timestamp, t) ∈ st.preparedWrites k
  entries : ∀ k, ∀ x ∈ st.preparedWrites k, x.2 ∈ st.prepared ∧ x.1 = x.2.timestamp ∧ writesKey p x.2.writeSet k = true
  oneVersion : ∀ t ∈ st.prepared, t.OneVersion
  apart : ∀ t ∈ st.prepared, ∀ t' ∈ st.prepared, t ≠ t' → t.Overlaps t' → t.timestamp ≠ t'.timestamp
  sorted : ∀ k, (st.committedReads k).Pairwise fun a b => b.1 ≤ a.1
  committedReads : ∀ proof ∈ st.committed, proof.txn.ownReads p = true → ∀ r ∈ proof.txn.readSet,
    p.isKeyOwned r.key = true → r.isTableColVersion = false →
    ∃ q, (proof.txn.timestamp, r.readtime, q) ∈ st.committedReads r.key
  store : ∀ proof ∈ st.committed, ∀ k, writesKey p proof.txn.writeSet k = true →
    ∃ x, (proof.txn.timestamp, x) ∈ st.store k
  commits : ∀ t ∈ settled, ∃ proof ∈ st.committed, proof.txn = t
  serial : ∀ reader writer read, reader ∈ st.prepared ∨ reader ∈ settled →
    writer ∈ st.prepared ∨ writer ∈ settled → reader.ownReads p = true →
    Conflict p reader writer read → Exempt st reader writer read

theorem Exempt.mono
    (h : Exempt st reader writer read) (hs : ∀ k, ∀ x ∈ st.store k, x ∈ st'.store k) :
    Exempt st' reader writer read := by
  refine ⟨h.1, h.2.imp_right ?_⟩
  rintro ⟨t, proof, hmem, hlt⟩
  exact ⟨t, proof, hs _ _ hmem, hlt⟩

namespace OccInv

variable {settled : List Transaction}

theorem init : OccInv p {} [] where
  reads _ h := by cases h
  writes _ h := by cases h
  entries _ _ h := by cases h
  oneVersion _ h := by cases h
  apart _ h := by cases h
  sorted _ := List.Pairwise.nil
  committedReads _ h := by cases h
  store _ h := by cases h
  commits _ h := by cases h
  serial _ _ _ h := by rcases h with h | h <;> cases h

theorem reindex (h : OccInv p st settled) (ongoing aborted : List Transaction) (merged : Transaction → Option ReadSet) :
    OccInv p { st with ongoing := ongoing, aborted := aborted, merged := merged } settled :=
  ⟨h.reads, h.writes, h.entries, h.oneVersion, h.apart, h.sorted, h.committedReads, h.store, h.commits, h.serial⟩

section

variable (h : OccInv p st settled) (t : Transaction)
include h t

theorem clean (hard : Bool) : OccInv p (st.clean p t hard) settled := by
  rw [CCState.clean]
  split
  · rename_i hprep
    rw [contains_iff_mem] at hprep
    have hmem : ∀ {t'}, t' ∈ st.prepared.filter (· ≠ t) → t' ∈ st.prepared ∧ t' ≠ t := fun h => by
      simpa using h
    refine ⟨?_, ?_, ?_, ?_, ?_, h.sorted, h.committedReads, h.store, h.commits, ?_⟩
    · intro t' ht' hown k hk
      obtain ⟨ht', hne⟩ := hmem ht'
      have hr := h.reads t' ht' hown k hk
      dsimp only
      split
      · exact mem_filter.mpr ⟨hr, by simpa using hne⟩
      · exact hr
    · intro t' ht' k hk
      obtain ⟨ht', hne⟩ := hmem ht'
      have hw := h.writes t' ht' k hk
      dsimp only
      split
      · -- the timestamps differ, as both write the key
        rename_i hkey
        obtain ⟨w, hw', hwk⟩ := any_eq_true.mp hkey
        rw [Bool.and_eq_true, beq_iff_eq] at hwk
        obtain ⟨-, w₂, hw₂, -, hk₂⟩ := writesKey_iff.mp hk
        exact mem_erase.mpr ⟨hw, h.apart t' ht' t hprep hne ⟨w₂, hw₂, w, hw', hk₂.trans hwk.1.symm⟩⟩
      · exact hw
    · intro k x hx
      dsimp only at hx
      split at hx
      · obtain ⟨hx, hne⟩ := mem_erase.mp hx
        obtain ⟨h₁, h₂, h₃⟩ := h.entries k x hx
        refine ⟨mem_filter.mpr ⟨h₁, ?_⟩, h₂, h₃⟩
        have : x.2 ≠ t := fun heq => hne (heq ▸ h₂)
        simpa using this
      · rename_i hkey
        obtain ⟨h₁, h₂, h₃⟩ := h.entries k x hx
        refine ⟨mem_filter.mpr ⟨h₁, ?_⟩, h₂, h₃⟩
        have : x.2 ≠ t := by
          intro heq
          obtain ⟨hown, w, hw, -, hwk⟩ := writesKey_iff.mp h₃
          refine hkey (any_eq_true.mpr ⟨w, heq ▸ hw, ?_⟩)
          rw [hwk, hown, Bool.or_true, Bool.and_true]
          exact beq_self_eq_true _
        simpa using this
    · exact fun t' ht' => h.oneVersion t' (hmem ht').1
    · exact fun t' ht' t'' ht'' => h.apart t' (hmem ht').1 t'' (hmem ht'').1
    · intro reader writer read hr hw
      exact h.serial reader writer read (hr.imp_left fun h => (hmem h).1) (hw.imp_left fun h => (hmem h).1)
  · exact h.reindex _ _ _

theorem abort : OccInv p (st.abort p t) settled := (h.reindex _ _ _).clean t false

end

/-! ### A transaction that passes its check -/

theorem written (h : OccInv p st settled)
    (hw : writer ∈ st.prepared ∨ writer ∈ settled) (hk : writesKey p writer.writeSet k = true) :
    (writer.timestamp, writer) ∈ st.preparedWrites k ∨ ∃ x, (writer.timestamp, x) ∈ st.store k := by
  rcases hw with hw | hw
  · exact .inl (h.writes writer hw k hk)
  · obtain ⟨proof, hmem, rfl⟩ := h.commits writer hw
    exact .inr (h.store proof hmem k hk)

theorem serial_of_checkRead (h : OccInv p st settled)
    (hdel : reader.SeesDeletions p st) (hcheck : checkRead p st reader.timestamp read = none)
    (hw : writer ∈ st.prepared ∨ writer ∈ settled) (hc : Conflict p reader writer read) :
    Exempt st reader writer read := by
  rcases (checkRead_none_iff hc.owned hc.point).mp hcheck |>.symm with ⟨hstore, hprep⟩ | ⟨hgen, t, proof, hl⟩
  · exfalso
    rcases h.written hw hc.writes with hmem | ⟨x, hmem⟩
    · exact absurd (hprep _ hmem hc.before) (not_le.mpr hc.after)
    · exact absurd (hstore _ hmem hc.before) (not_le.mpr hc.after)
  · obtain ⟨hmem, hlt⟩ := latestBefore_lt hl
    refine ⟨hgen, ?_⟩
    rcases h.written hw hc.writes with hx | ⟨x, hx⟩
    · rcases hdel read hc.mem hc.owned hc.point hgen _ hl rfl _ hx hc.before with hle | hdels
      · exact .inr ⟨t, proof, hmem, hle, hlt⟩
      · exact .inl hdels
    · obtain ⟨y, hy, hle⟩ := exists_latestBefore hx hc.before
      rw [hl, Option.some.injEq] at hy
      subst hy
      exact .inr ⟨t, proof, hmem, hle, hlt⟩

/-- Live reads before a write that passes its check are of the genesis version, and the write is a deletion. -/
theorem genesis_of_checkWrite (h : OccInv p st settled) (hcheck : checkWrite p st env ts w = none)
    (hr : reader ∈ st.prepared ∨ reader ∈ settled) (hreads : reader.ownReads p = true)
    (hmem : read ∈ reader.readSet) (hpoint : read.isTableColVersion = false)
    (hwpoint : w.isTableColVersion = false) (hkey : w.key = read.key) (hown : p.isKeyOwned read.key = true)
    (hafter : read.readtime < ts) (hbefore : ts < reader.timestamp) :
    read.readtime = .genesis ∧ w.isDeletion = true := by
  obtain ⟨hscan, hprep⟩ := checkWrite_none hcheck (hkey ▸ hown) hwpoint
  rw [hkey] at hscan hprep
  rcases hr with hr | hr
  · have hin := h.reads reader hr hreads read.key (readsKey_iff.mpr ⟨hown, read, hmem, hpoint, rfl⟩)
    exact conflictsPreparedRead_false (hprep reader hin) (h.oneVersion reader hr) hmem hkey.symm hbefore
      hafter
  · obtain ⟨proof, hproof, rfl⟩ := h.commits reader hr
    obtain ⟨q, hq⟩ := h.committedReads proof hproof hreads read hmem hown hpoint
    exact scanCommittedReads_none (h.sorted _) hscan hq hbefore hafter

theorem serial_of_checkWrite (h : OccInv p st settled)
    (hcheck : ∀ w ∈ writer.writeSet, checkWrite p st env writer.timestamp w = none)
    (hr : reader ∈ st.prepared ∨ reader ∈ settled) (hreads : reader.ownReads p = true)
    (hc : Conflict p reader writer read) : Exempt st reader writer read := by
  have key : ∀ w ∈ writer.writeSet, w.isTableColVersion = false → w.key = read.key →
      read.readtime = .genesis ∧ w.isDeletion = true := fun w hw hpoint hk =>
    h.genesis_of_checkWrite (hcheck w hw) hr hreads hc.mem hc.point hpoint hk hc.owned hc.after hc.before
  obtain ⟨-, w, hw, hpoint, hk⟩ := writesKey_iff.mp hc.writes
  exact ⟨(key w hw hpoint hk).1, .inl fun w hw hpoint hk => (key w hw hpoint hk).2⟩

theorem prepare (h : OccInv p st settled) {readSet : List ReadMessage}
    (ho : Orderly p st txn) (hown : txn.ownReads p = true → readSet = txn.readSet)
    (hreads : ∀ r ∈ readSet, checkRead p st txn.timestamp r = none)
    (hwrites : ∀ w ∈ txn.writeSet, checkWrite p st env txn.timestamp w = none) :
    OccInv p (st.prepare p txn readSet) settled := by
  rw [CCState.prepare]
  split
  · exact h
  refine ⟨?_, ?_, ?_, ?_, ?_, h.sorted, h.committedReads, h.store, h.commits, ?_⟩
  · intro t ht hot k hk
    dsimp only
    rcases mem_cons.mp ht with rfl | ht
    · rw [hown hot, if_pos hk]
      exact mem_insert_self
    · split
      · exact mem_insert_of_mem (h.reads t ht hot k hk)
      · exact h.reads t ht hot k hk
  · intro t ht k hk
    dsimp only
    rcases mem_cons.mp ht with rfl | ht
    · rw [if_pos hk]
      -- a transaction under the same timestamp would be a prepared one that writes the key
      refine mem_insertNew_self fun b hb => ?_
      obtain ⟨hb₁, hb₂, hb₃⟩ := h.entries k _ hb
      by_contra hne
      exact ho.apart b hb₁ hne (overlaps_of_writesKey hb₃ hk) hb₂.symm
    · split
      · exact mem_insertNew_of_mem (h.writes t ht k hk)
      · exact h.writes t ht k hk
  · intro k x hx
    dsimp only at hx
    split at hx
    · rcases mem_insertNew hx with rfl | hx
      · exact ⟨mem_cons_self, rfl, ‹_›⟩
      · obtain ⟨h₁, h₂⟩ := h.entries k x hx
        exact ⟨mem_cons_of_mem _ h₁, h₂⟩
    · obtain ⟨h₁, h₂⟩ := h.entries k x hx
      exact ⟨mem_cons_of_mem _ h₁, h₂⟩
  · intro t ht
    rcases mem_cons.mp ht with rfl | ht
    · exact ho.oneVersion
    · exact h.oneVersion t ht
  · intro t ht t' ht' hne hov
    rcases mem_cons.mp ht with rfl | hmem <;> rcases mem_cons.mp ht' with rfl | hmem'
    · exact absurd rfl hne
    · obtain ⟨w, hw, w', hw', hk⟩ := hov
      exact (ho.apart t' hmem' hne.symm ⟨w', hw', w, hw, hk.symm⟩).symm
    · exact ho.apart t hmem hne hov
    · exact h.apart t hmem t' hmem' hne hov
  · intro reader writer read hr hw hot hc
    have split : ∀ {t}, t ∈ txn :: st.prepared ∨ t ∈ settled → t = txn ∨ t ∈ st.prepared ∨ t ∈ settled :=
      fun h => or_assoc.mp (h.imp_left mem_cons.mp)
    rcases split hr with rfl | hr' <;> rcases split hw with rfl | hw'
    · exact absurd hc.before (lt_irrefl _)
    · exact h.serial_of_checkRead ho.deletions (hreads read (hown hot ▸ hc.mem)) hw' hc
    · exact h.serial_of_checkWrite hwrites hr' hot hc
    · exact h.serial reader writer read hr' hw' hot hc

theorem mergeTxReadSets_of_ownReads {cache : Bytes → Option CachedQuery} {subscribed : Bool}
    {merged m : Option ReadSet} {res : Result} (hown : txn.ownReads p = true)
    (h : mergeTxReadSets p cache subscribed merged txn = some (res, m)) : readSetOr txn m = txn.readSet := by
  rw [Transaction.ownReads] at hown
  unfold mergeTxReadSets at h
  rw [if_pos hown] at h
  cases h
  rfl

section

variable (h : OccInv p st settled)
include h

theorem doOCCCheck
    (ho : Orderly p st txn) (hr : st.doOCCCheck p env txn = some r) : OccInv p r.1 settled := by
  refine doOCCCheck_rule (P := fun s => OccInv p s settled) hr (fun f => h.reindex _ _ f) (fun s hs => hs.abort txn)
    fun m f hm hreads hwrites => ?_
  have ho' : Orderly p { st with merged := f } txn := ⟨ho.oneVersion, ho.deletions, ho.apart⟩
  exact (h.reindex _ _ f).prepare ho' (fun hown => mergeTxReadSets_of_ownReads hown hm) hreads hwrites

theorem enter {readSet : List ReadMessage} (hown : proof.txn.ownReads p = true → readSet = proof.txn.readSet) :
    OccInv p (({ st with committed := proof :: st.committed }.updateCommittedReads p proof readSet).commitToStore
      p proof) settled := by
  have hstore : ∀ k, ∀ x ∈ st.store k, x ∈ (({ st with committed := proof :: st.committed
      }.updateCommittedReads p proof readSet).commitToStore p proof).store k := by
    intro k x hx
    rw [commitToStore]
    dsimp only
    split
    · exact mem_insertNew_of_mem hx
    · exact hx
  refine ⟨h.reads, h.writes, h.entries, h.oneVersion, h.apart, ?_, ?_, ?_, ?_, ?_⟩
  · intro k
    dsimp only [commitToStore, updateCommittedReads]
    split
    · exact (foldl_orderedInsert _ (h.sorted k)).1
    · exact h.sorted k
  · intro q hq hot r hr hk hpoint
    dsimp only [commitToStore, updateCommittedReads]
    rw [if_pos hk]
    rcases mem_cons.mp hq with rfl | hq
    · refine ⟨q, ((foldl_orderedInsert _ (h.sorted r.key)).2 _).mpr (.inr ⟨r, ?_, rfl⟩)⟩
      rw [hown hot]
      exact mem_filter.mpr ⟨hr, by simp [hpoint]⟩
    · obtain ⟨q', hq'⟩ := h.committedReads q hq hot r hr hk hpoint
      exact ⟨q', ((foldl_orderedInsert _ (h.sorted r.key)).2 _).mpr (.inl hq')⟩
  · intro q hq k hk
    rcases mem_cons.mp hq with rfl | hq
    · obtain ⟨val, hval⟩ := Option.isSome_iff_exists.mp ((storedValue_isSome _ []).trans hk)
      dsimp only [commitToStore]
      rw [hval]
      exact exists_mem_insertNew _ _ _
    · obtain ⟨x, hx⟩ := h.store q hq k hk
      exact ⟨x, hstore k _ hx⟩
  · intro t ht
    obtain ⟨q, hq, rfl⟩ := h.commits t ht
    exact ⟨q, mem_cons_of_mem _ hq, rfl⟩
  · intro reader writer read hr hw hot hc
    exact (h.serial reader writer read hr hw hot hc).mono hstore

theorem settle (hp : proof.txn ∈ st.prepared)
    (hc : ∃ q ∈ st.committed, q.txn = proof.txn) : OccInv p st (proof.txn :: settled) := by
  have split : ∀ {t}, t ∈ st.prepared ∨ t ∈ proof.txn :: settled → t ∈ st.prepared ∨ t ∈ settled := by
    rintro t (ht | ht)
    · exact .inl ht
    · rcases mem_cons.mp ht with rfl | ht
      · exact .inl hp
      · exact .inr ht
  refine ⟨h.reads, h.writes, h.entries, h.oneVersion, h.apart, h.sorted, h.committedReads, h.store, ?_, ?_⟩
  · intro t ht
    rcases mem_cons.mp ht with rfl | ht
    · exact hc
    · exact h.commits t ht
  · intro reader writer read hr hw hot hconf
    exact h.serial reader writer read (split hr) (split hw) hot hconf

theorem commit
    (hst : st.commit p env proof = some st') :
    OccInv p st' (if st.prepared.contains proof.txn then proof.txn :: settled else settled) := by
  have finish : ∀ {s : CCState}, s.prepared = st.prepared → OccInv p s settled →
      (∃ q ∈ s.committed, q.txn = proof.txn) →
      OccInv p s (if st.prepared.contains proof.txn then proof.txn :: settled else settled) := by
    intro s hprep hs hq
    split
    · rename_i hmem
      rw [contains_iff_mem, ← hprep] at hmem
      exact hs.settle hmem hq
    · exact hs
  rcases commit_cases hst with ⟨rfl, hq⟩ | ⟨res, m, f, hm, rfl⟩
  · exact finish rfl h hq
  · refine clean ?_ proof.txn false
    exact finish rfl ((h.reindex _ _ f).enter fun ho => mergeTxReadSets_of_ownReads ho hm)
      ⟨proof, mem_cons_self, rfl⟩

end

end OccInv

theorem occInv_step {h h' : History} {e : CCEvent} (hi : OccInv p h.st h.settled) (ho : h.orderly p e)
    (hs : h.step p e = some h') : OccInv p h'.st h'.settled := by
  obtain ⟨st, hst, rfl⟩ := Option.map_eq_some_iff.mp hs
  cases e with
  | addOngoing txn =>
    cases hst
    exact hi.reindex _ _ _
  | check txn env =>
    obtain ⟨r, hr, rfl⟩ := Option.map_eq_some_iff.mp hst
    exact hi.doOCCCheck ho hr
  | commit proof env => exact hi.commit hst
  | abort txn =>
    cases hst
    exact hi.abort txn
  | clean txn hard =>
    cases hst
    exact hi.clean txn hard

/-- In orderly runs, transactions that have passed their checks are in no conflict, but for reads of deleted rows. -/
theorem no_conflict {es : List CCEvent} {h : History} (hm : Run.Meets (History.step p) (History.orderly p) {} es)
    (hs : Run.exec (History.step p) {} es = some h) {reader writer : Transaction} {read : ReadMessage}
    (hr : h.live reader) (hw : h.live writer) (hreads : reader.ownReads p = true)
    (hc : Conflict p reader writer read) : Exempt h.st reader writer read := by
  have hinv : OccInv p h.st h.settled :=
    Run.exec_invariant_of_meets (P := fun h => OccInv p h.st h.settled) occInv_step OccInv.init hm hs
  exact hinv.serial reader writer read hr hw hreads hc

/-- A replica of group 0 that owns every key and merges read sets. -/
def oneGroup : CCParams where
  groupIdx := 0
  isKeyOwned _ := true
  cacheReadSet := true
  mergeActiveAtClient := false

def absentReader : Transaction where
  clientId := 1
  clientSeqNum := 1
  involvedGroups := [0]
  readSet := [⟨[7], .genesis, false⟩]
  writeSet := []
  timestamp := ⟨30000, 1⟩

def deleter : Transaction where
  clientId := 2
  clientSeqNum := 1
  involvedGroups := [0]
  readSet := []
  writeSet := [⟨[7], some deletionMark, false⟩]
  timestamp := ⟨20000, 2⟩

def deletionRun : List CCEvent :=
  [.addOngoing absentReader, .addOngoing deleter, .check absentReader {}, .check deleter {}]

theorem absentReader_conflict : Conflict oneGroup absentReader deleter ⟨[7], .genesis, false⟩ where
  owned := rfl
  mem := mem_cons_self
  point := rfl
  writes := by decide
  after := by decide
  before := by decide

theorem deletionRun_prepared : ∃ h, Run.exec (History.step oneGroup) {} deletionRun = some h ∧
    h.live absentReader ∧ h.live deleter := by
  have hrun : (Run.exec (History.step oneGroup) {} deletionRun).any (fun h =>
      decide (absentReader ∈ h.st.prepared) && decide (deleter ∈ h.st.prepared)) = true := by
    decide +kernel
  obtain ⟨h, hs, hp⟩ := Run.exec_of_any hrun
  rw [Bool.and_eq_true, decide_eq_true_eq, decide_eq_true_eq] at hp
  exact ⟨h, hs, .inl hp.1, .inl hp.2⟩

theorem deletion_run : ∃ h, Run.exec (History.step oneGroup) {} deletionRun = some h ∧
    h.live absentReader ∧ h.live deleter ∧ absentReader.ownReads oneGroup = true ∧
    Conflict oneGroup absentReader deleter ⟨[7], .genesis, false⟩ := by
  obtain ⟨h, hs, hr, hw⟩ := deletionRun_prepared
  exact ⟨h, hs, hr, hw, rfl, absentReader_conflict⟩

theorem no_conflict_deletionRun : ∃ h, Run.exec (History.step oneGroup) {} deletionRun = some h ∧
    Exempt h.st absentReader deleter ⟨[7], .genesis, false⟩ := by
  obtain ⟨h, hs, hr, hw⟩ := deletionRun_prepared
  have hm : Run.Meets (History.step oneGroup) (History.orderly oneGroup) {} deletionRun := by decide +kernel
  exact ⟨h, hs, no_conflict hm hs hr hw rfl absentReader_conflict⟩

end Pequin
