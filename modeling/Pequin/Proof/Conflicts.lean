import Pequin.Proof.MergedReads
import Pequin.Proof.Finality

/-!
# Conflict proofs

A replica whose concurrency control check finds a committed transaction in the way of another one answers with the
commit proof, and that proof aborts the transaction everywhere. What is checked of such a proof
(`TransactionsConflict`) is that the two transactions share a key. The versions and timestamps are not compared, and
transactions with queries are let pass.
-/

namespace Pequin

open List

variable {p : CCParams} {st st' : CCState} {log : List (CommittedProof × List ReadMessage)}

/-- The writer writes a key strictly between the version the reader has read and its timestamp. -/
def Overtakes (reads : List ReadMessage) (reader writer : Transaction) : Prop :=
  ∃ r ∈ reads, ∃ w ∈ writer.writeSet, r.key = w.key ∧ r.readtime < writer.timestamp ∧
    writer.timestamp < reader.timestamp
  deriving Decidable

def Violates (reads : List ReadMessage) (t : Transaction) (reads' : List ReadMessage) (t' : Transaction) : Prop :=
  Overtakes reads t t' ∨ Overtakes reads' t' t
  deriving Decidable

/-- The state, with the proofs and read sets that were committed. -/
structure CommitHistory where
  st : CCState := {}
  log : List (CommittedProof × List ReadMessage) := []

def CommitHistory.step (p : CCParams) (h : CommitHistory) (e : CCEvent) : Option CommitHistory :=
  (h.st.step p e).map fun st =>
    ⟨st, match e with
      | .commit proof env => (proof, readSetOr proof.txn (mergedAt p h.st env proof.txn)) :: h.log
      | _ => h.log⟩

/-- What the store and the reads hold was committed. -/
structure Logged (st : CCState) (log : List (CommittedProof × List ReadMessage)) : Prop where
  store : ∀ k ts val proof, (ts, val, proof) ∈ st.store k →
    ts = proof.txn.timestamp ∧ (∃ w ∈ proof.txn.writeSet, w.key = k) ∧ ∃ reads, (proof, reads) ∈ log
  reads : ∀ k ts v proof, (ts, v, proof) ∈ st.committedReads k →
    ts = proof.txn.timestamp ∧ ∃ reads, (proof, reads) ∈ log ∧ ∃ r ∈ reads, r.key = k ∧ r.readtime = v

theorem clean_store (txn : Transaction) (hard : Bool) : (st.clean p txn hard).store = st.store := by
  rw [CCState.clean]
  split <;> rfl

theorem clean_committedReads (txn : Transaction) (hard : Bool) :
    (st.clean p txn hard).committedReads = st.committedReads := by
  rw [CCState.clean]
  split <;> rfl

theorem exists_of_storedValue {k : Bytes} {l : List WriteMessage} {val v : Bytes}
    (h : storedValue p k l val = some v) : ∃ w ∈ l, w.key = k := by
  have hk : writesKey p l k = true := by rw [← storedValue_isSome l val, h, Option.isSome_some]
  obtain ⟨-, w, hw, -, hkey⟩ := writesKey_iff.mp hk
  exact ⟨w, hw, hkey⟩

section

variable (h : Logged st log)
include h

theorem Logged.of_eq (hs : st'.store = st.store) (hr : st'.committedReads = st.committedReads) : Logged st' log :=
  ⟨by rw [hs]; exact h.store, by rw [hr]; exact h.reads⟩

theorem Logged.mono (e : CommittedProof × List ReadMessage) : Logged st (e :: log) where
  store k ts val proof hmem := by
    obtain ⟨hts, hw, reads, hlog⟩ := h.store k ts val proof hmem
    exact ⟨hts, hw, reads, mem_cons_of_mem _ hlog⟩
  reads k ts v proof hmem := by
    obtain ⟨hts, reads, hlog, hr⟩ := h.reads k ts v proof hmem
    exact ⟨hts, reads, mem_cons_of_mem _ hlog, hr⟩

theorem Logged.clean (txn : Transaction) (hard : Bool) : Logged (st.clean p txn hard) log :=
  h.of_eq (clean_store txn hard) (clean_committedReads txn hard)

theorem Logged.abort (txn : Transaction) : Logged (st.abort p txn) log := by
  have h' : Logged { st with aborted := txn :: st.aborted } log := h.of_eq rfl rfl
  exact h'.clean txn false

theorem Logged.prepare (txn : Transaction) (readSet : List ReadMessage) : Logged (st.prepare p txn readSet) log := by
  rw [CCState.prepare]
  split <;> exact h.of_eq rfl rfl

theorem Logged.doOCCCheck {env : CheckEnv} {txn : Transaction}
    {r : CCState × OccOutcome} (hr : st.doOCCCheck p env txn = some r) : Logged r.1 log := by
  have hmerged : ∀ f, Logged { st with merged := f } log := fun _ => h.of_eq rfl rfl
  exact doOCCCheck_rule (P := fun s => Logged s log) hr hmerged (fun s hs => hs.abort txn)
    fun m f _ _ _ => (hmerged f).prepare txn (readSetOr txn m)

theorem Logged.updateCommittedReads (proof : CommittedProof) (readSet : List ReadMessage) :
    Logged (st.updateCommittedReads p proof readSet) ((proof, readSet) :: log) where
  store := (h.mono (proof, readSet)).store
  reads k ts v q hmem := by
    dsimp only [CCState.updateCommittedReads] at hmem
    split at hmem
    · rcases (mem_foldl_orderedInsert _).mp hmem with hmem | ⟨r, hr, heq⟩
      · exact (h.mono (proof, readSet)).reads k ts v q hmem
      · cases heq
        obtain ⟨hr, hk⟩ := mem_filter.mp hr
        rw [Bool.and_eq_true, beq_iff_eq] at hk
        exact ⟨rfl, readSet, mem_cons_self, r, hr, hk.2, rfl⟩
    · exact (h.mono (proof, readSet)).reads k ts v q hmem

theorem Logged.commitToStore {proof : CommittedProof} {reads : List ReadMessage}
    (hlog : (proof, reads) ∈ log) : Logged (st.commitToStore p proof) log where
  store k ts val q hmem := by
    dsimp only [CCState.commitToStore] at hmem
    split at hmem
    · rename_i v hv
      rcases Versions.mem_insertNew hmem with heq | hmem
      · cases heq
        exact ⟨rfl, exists_of_storedValue hv, reads, hlog⟩
      · exact h.store k ts val q hmem
    · exact h.store k ts val q hmem
  reads := h.reads

theorem Logged.commit {env : CheckEnv} {proof : CommittedProof} (hst : st.commit p env proof = some st') :
    Logged st' ((proof, readSetOr proof.txn (mergedAt p st env proof.txn)) :: log) := by
  rcases commit_cases hst with ⟨rfl, -⟩ | ⟨res, m, f, hm, rfl⟩
  · exact h.mono _
  have hat : mergedAt p st env proof.txn = m := by rw [mergedAt, hm]; rfl
  rw [hat]
  have hcom : Logged { st with merged := f, committed := proof :: st.committed } log := h.of_eq rfl rfl
  have hrec := hcom.updateCommittedReads (p := p) proof (readSetOr proof.txn m)
  exact (hrec.commitToStore mem_cons_self).clean proof.txn false

end

theorem logged_step {h h' : CommitHistory} {e : CCEvent} (hi : Logged h.st h.log)
    (hs : h.step p e = some h') : Logged h'.st h'.log := by
  obtain ⟨st, hst, rfl⟩ := Option.map_eq_some_iff.mp hs
  cases e with
  | addOngoing txn =>
    cases hst
    exact hi.of_eq rfl rfl
  | check txn env =>
    obtain ⟨r, hr, rfl⟩ := Option.map_eq_some_iff.mp hst
    exact hi.doOCCCheck hr
  | commit proof env => exact hi.commit hst
  | abort txn =>
    cases hst
    exact hi.abort txn
  | clean txn hard =>
    cases hst
    exact hi.clean txn hard

section Check

variable {env : CheckEnv} {txn : Transaction} {proof : CommittedProof}

theorem checkRead_conflict {ts : Timestamp} {read : ReadMessage} (h : checkRead p st ts read = some (.conflict proof)) :
    ∃ cts val, (cts, val, proof) ∈ st.store read.key ∧ cts < ts ∧ read.readtime < cts := by
  have hprep : checkPreparedWrite st ts read ≠ some (.conflict proof) := by
    rw [checkPreparedWrite]
    split
    · split <;> exact fun he => by cases he
    · exact fun he => by cases he
  rw [checkRead] at h
  split at h
  · cases h
  split at h
  · rename_i cts val q hlatest
    split at h
    · cases h
    split at h
    · rename_i hlt
      cases h
      obtain ⟨hmem, hts⟩ := Versions.latestBefore_lt hlatest
      exact ⟨cts, val, hmem, hts, hlt⟩
    · exact absurd h hprep
  · exact absurd h hprep

theorem exists_of_scanCommittedReads {ts : Timestamp} {deletion : Bool}
    {l : List (Timestamp × Timestamp × CommittedProof)} (h : scanCommittedReads ts deletion l = some proof) :
    ∃ rts v, (rts, v, proof) ∈ l ∧ ts < rts ∧ v < ts := by
  induction l with
  | nil => cases h
  | cons x l ih =>
    obtain ⟨rts, v, q⟩ := x
    have hrest : scanCommittedReads ts deletion l = some proof →
        ∃ rts' v', (rts', v', proof) ∈ (rts, v, q) :: l ∧ ts < rts' ∧ v' < ts := fun h' => by
      obtain ⟨rts', v', hmem, hlt⟩ := ih h'
      exact ⟨rts', v', mem_cons_of_mem _ hmem, hlt⟩
    rw [scanCommittedReads] at h
    split at h
    · cases h
    rename_i hafter
    split at h
    · rename_i hbefore
      split at h
      · exact hrest h
      · cases h
        exact ⟨rts, v, mem_cons_self, not_le.mp hafter, hbefore⟩
    · exact hrest h

theorem checkWrite_conflict {ts : Timestamp} {w : WriteMessage}
    (h : checkWrite p st env ts w = some (.conflict proof)) :
    ∃ rts v, (rts, v, proof) ∈ st.committedReads w.key ∧ ts < rts ∧ v < ts := by
  rw [checkWrite] at h
  split at h
  · cases h
  split at h
  · rename_i q hscan
    cases h
    exact exists_of_scanCommittedReads hscan
  · split at h <;> cases h

theorem occOutcome_ne_conflict (res : Result) (b : Bool) : occOutcome res b ≠ .conflict proof := by
  cases res <;> nofun

theorem Logged.violates (hl : Logged st log) {readSet : List ReadMessage}
    (h : (Pequin.doMVTSOOCCCheck p st env txn readSet).2 = .conflict proof) :
    ∃ reads, (proof, reads) ∈ log ∧ Violates readSet txn reads proof.txn := by
  rw [Pequin.doMVTSOOCCCheck] at h
  split at h
  · exact absurd h (occOutcome_ne_conflict _ _)
  split at h
  · cases h
  split at h
  · -- a read misses a committed version
    rename_i res hres
    obtain ⟨read, hread, hcheck⟩ := exists_of_findSome?_eq_some hres
    rw [show res = .conflict proof from h] at hcheck
    obtain ⟨cts, val, hmem, hts, hlt⟩ := checkRead_conflict hcheck
    obtain ⟨rfl, ⟨w, hw, hk⟩, reads, hlog⟩ := hl.store _ _ _ _ hmem
    exact ⟨reads, hlog, .inl ⟨read, hread, w, hw, hk.symm, hlt, hts⟩⟩
  split at h
  · -- a write comes between a committed reader and what it has read
    rename_i res hres
    obtain ⟨w, hw, hcheck⟩ := exists_of_findSome?_eq_some hres
    rw [show res = .conflict proof from h] at hcheck
    obtain ⟨rts, v, hmem, hts, hlt⟩ := checkWrite_conflict hcheck
    obtain ⟨rfl, reads, hlog, r, hr, hk, rfl⟩ := hl.reads _ _ _ _ hmem
    exact ⟨reads, hlog, .inr ⟨r, hr, w, hw, hk, hlt, hts⟩⟩
  split at h
  · exact absurd h (occOutcome_ne_conflict _ _)
  · exact absurd h (occOutcome_ne_conflict _ _)

/-- The conflicts that are reported do violate the order of the timestamps. -/
theorem reported_conflict {es : List CCEvent} {h : CommitHistory} (hs : Run.exec (CommitHistory.step p) {} es = some h)
    (hcheck : h.st.doOCCCheck p env txn = some (st', .conflict proof)) : ∃ reads, (proof, reads) ∈ h.log ∧
      Violates (readSetOr txn (mergedAt p h.st env txn)) txn reads proof.txn := by
  have hlog : Logged h.st h.log := Run.exec_invariant (P := fun h => Logged h.st h.log) logged_step
    ⟨fun _ _ _ _ h => (by cases h), fun _ _ _ _ h => (by cases h)⟩ hs
  rw [CCState.doOCCCheck] at hcheck
  split at hcheck
  · cases hcheck
  split at hcheck
  · cases hcheck
  · rename_i m hm
    have hat : mergedAt p h.st env txn = m := by rw [mergedAt, hm]; rfl
    rw [hat]
    have hconf : (doMVTSOOCCCheck p (h.st.recordMerged txn m) env txn (readSetOr txn m)).2 = .conflict proof := by
      split at hcheck
      · rename_i st₁ q heq
        cases hcheck
        rw [heq]
      · rw [Option.some.inj hcheck]
    obtain ⟨f, hf⟩ := recordMerged_eq h.st txn m
    have hrec : Logged (h.st.recordMerged txn m) h.log := by
      rw [hf]
      exact hlog.of_eq rfl rfl
    exact hrec.violates hconf
  · exact absurd (Prod.ext_iff.mp (Option.some.inj hcheck)).2 (occOutcome_ne_conflict _ _)

end Check

/-- A key that one transaction reads and the other writes. -/
def SharesKey (a b : Transaction) : Prop :=
  (∃ r ∈ a.readSet, ∃ w ∈ b.writeSet, r.key = w.key) ∨ ∃ r ∈ b.readSet, ∃ w ∈ a.writeSet, r.key = w.key

/-- `a` comes with a longer merged read set, or one of the two has queries. -/
def HasUnlistedReads (a b : Transaction) : Prop :=
  (∃ m, a.mergedReadSet = some m ∧ a.readSet.length < m.readSet.length) ∨ b.querySet ≠ [] ∨ a.querySet ≠ []

/-- What the validation of a conflict proof asks for. -/
theorem transactionsConflict_iff {a b : Transaction} :
    transactionsConflict a b = true ↔ SharesKey a b ∨ HasUnlistedReads a b := by
  have hmerged : a.readSet.length < (a.mergedReadSet.elim 0 fun m => m.readSet.length) ↔
      ∃ m, a.mergedReadSet = some m ∧ a.readSet.length < m.readSet.length := by
    cases a.mergedReadSet <;> simp
  simp only [transactionsConflict, Bool.or_eq_true, any_eq_true, beq_iff_eq, decide_eq_true_eq, hmerged,
    Bool.not_eq_true', isEmpty_eq_false_iff, SharesKey, HasUnlistedReads, or_assoc]

theorem readSetOr_mergedAt {st : CCState} {env : CheckEnv} {txn : Transaction} (hq : txn.querySet = []) :
    readSetOr txn (mergedAt p st env txn) = txn.readSet := by
  simp [mergedAt, mergeTxReadSets, hq, readSetOr]

/-- Without queries, the reads of a committed transaction are those of its read set. -/
theorem logged_reads {es : List CCEvent} {h : CommitHistory} (hs : Run.exec (CommitHistory.step p) {} es = some h) :
    ∀ x ∈ h.log, x.1.txn.querySet = [] → x.2 = x.1.txn.readSet := by
  refine Run.exec_invariant (P := fun h => ∀ x ∈ h.log, x.1.txn.querySet = [] → x.2 = x.1.txn.readSet) ?_
    (fun x hx => (by cases hx)) hs
  intro h e h' hi hstep x hx hq
  obtain ⟨st, -, rfl⟩ := Option.map_eq_some_iff.mp hstep
  cases e with
  | commit proof env =>
    rcases mem_cons.mp hx with rfl | hx
    · exact readSetOr_mergedAt hq
    · exact hi x hx hq
  | _ => exact hi x hx hq

theorem transactionsConflict_of_violates {t t' : Transaction} {reads reads' : List ReadMessage}
    (hreads : t.querySet = [] → reads = t.readSet) (hreads' : t'.querySet = [] → reads' = t'.readSet)
    (h : Violates reads t reads' t') : transactionsConflict t' t = true := by
  rw [transactionsConflict_iff]
  by_cases hq : t.querySet = []
  · by_cases hq' : t'.querySet = []
    · rw [hreads hq, hreads' hq'] at h
      rcases h with ⟨r, hr, w, hw, hk, -⟩ | ⟨r, hr, w, hw, hk, -⟩
      · exact .inl (.inr ⟨r, hr, w, hw, hk⟩)
      · exact .inl (.inl ⟨r, hr, w, hw, hk⟩)
    · exact .inr (.inr (.inr hq'))
  · exact .inr (.inr (.inl hq))

def earlierWriter : Transaction :=
  { sampleTxn with clientSeqNum := 5, writeSet := [⟨[7], some [1], false⟩] }

def laterReader : Transaction :=
  { sampleTxn with readSet := [⟨[7], ⟨20000, 1⟩, false⟩], timestamp := ⟨30000, 1⟩ }

def earlierProof : CommittedProof :=
  ⟨earlierWriter, .p1 [(0, [0, 1, 2, 3, 4, 5].map fun r => .signedBy r (.concurrencyControl .commit [5] 0))]⟩

/-- All replicas vote for `earlierWriter`, and replica 0 for `laterReader`. Then it gets the conflict. -/
def staleConflictRun : List Event :=
  [0, 1, 2, 3, 4].flatMap (Event.handle [5] (.phase1 earlierWriter false) .commit) ++
  Event.handle [4] (.phase1 laterReader false) .commit 0 ++
  Event.handle [4] (.writeback ⟨.abort, some [4], none, .conflict earlierProof⟩) .commit 0

def outdatedReader : Transaction := { laterReader with readSet := [⟨[7], ⟨10000, 1⟩, false⟩] }

end Pequin
