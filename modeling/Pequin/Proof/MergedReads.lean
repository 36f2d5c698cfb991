import Pequin.Proof.Serializability

/-!
# Writes over merged reads

A transaction with queries is checked and registered with its merged read set. A later writer
finds it under every key of that set (`Registered`), but looks the version up in the base read
set. Where the base read set has the key too, at a version below the writer, the writer is
turned away, unless it deletes a row that was read as absent (`merged_read_detected`).

`deleted_row_run` is the exception. The keys of a transaction are locked during its check, in ascending
order (`locks_ascending`).
-/

namespace Pequin

open Function List Option

variable {p : CCParams}

/-- The state, with the merged read sets of the last checks, up to the one that prepared the transaction. -/
structure ReadHistory where
  st : CCState := {}
  taken : Transaction → Option ReadSet := fun _ => none

/-- The merged read set of a check, if there is one. -/
def mergedAt (p : CCParams) (st : CCState) (env : CheckEnv) (txn : Transaction) : Option ReadSet :=
  (mergeTxReadSets p env.cache env.subscribed (st.merged txn) txn).bind Prod.snd

def ReadHistory.step (p : CCParams) (h : ReadHistory) (e : CCEvent) : Option ReadHistory :=
  (h.st.step p e).map fun st =>
    ⟨st, match e with
      | .check txn env =>
        if h.st.prepared.contains txn then h.taken
        else Function.update h.taken txn (mergedAt p h.st env txn)
      | _ => h.taken⟩

/-- Prepared transactions are found under the keys they have read. -/
def Registered (p : CCParams) (st : CCState) (taken : Transaction → Option ReadSet) : Prop :=
  ∀ t ∈ st.prepared, ∀ k, readsKey p (readSetOr t (taken t)) k = true → t ∈ st.preparedReads k

section Registered

variable {st : CCState} {taken : Transaction → Option ReadSet}

section

variable (h : Registered p st taken)
include h

theorem Registered.clean (t : Transaction) (hard : Bool) : Registered p (st.clean p t hard) taken := by
  rw [CCState.clean]
  split
  · intro t' ht' k hk
    obtain ⟨hmem, hne⟩ := mem_filter.mp ht'
    dsimp only
    split
    · exact mem_filter.mpr ⟨h t' hmem k hk, hne⟩
    · exact h t' hmem k hk
  · exact h

theorem Registered.abort (t : Transaction) : Registered p (st.abort p t) taken := by
  have h' : Registered p { st with aborted := t :: st.aborted } taken := h
  exact h'.clean t false

theorem Registered.update (txn : Transaction) (m : Option ReadSet) :
    Registered p st (if st.prepared.contains txn then taken else Function.update taken txn m) := by
  split
  · exact h
  rename_i hnot
  intro t ht k hk
  have hne : t ≠ txn := by
    rintro rfl
    exact hnot (contains_iff_mem.mpr ht)
  rw [update_of_ne hne] at hk
  exact h t ht k hk

theorem Registered.prepare (txn : Transaction) (m : Option ReadSet) : Registered p (st.prepare p txn (readSetOr txn m))
    (if st.prepared.contains txn then taken else Function.update taken txn m) := by
  rw [CCState.prepare]
  split
  · exact h.update txn m
  rename_i hgo
  rw [Bool.or_eq_true, not_or] at hgo
  rw [if_neg hgo.2]
  intro t ht k hk
  dsimp only
  by_cases hne : t = txn
  · subst hne
    rw [update_self] at hk
    rw [if_pos hk]
    exact mem_insert_self
  · rw [update_of_ne hne] at hk
    have hmem := h t ((mem_cons.mp ht).resolve_left hne) k hk
    split
    · exact mem_insert_of_mem hmem
    · exact hmem

theorem Registered.doOCCCheck {env : CheckEnv} {txn : Transaction}
    {r : CCState × OccOutcome} (hr : st.doOCCCheck p env txn = some r) : Registered p r.1
      (if st.prepared.contains txn then taken else Function.update taken txn (mergedAt p st env txn)) := by
  have hmerged : ∀ f, Registered p { st with merged := f } taken := fun _ => h
  refine doOCCCheck_rule (P := fun s => Registered p s _) hr (fun f => (hmerged f).update txn _)
    (fun s hs => Registered.abort hs txn) fun m f hm _ _ => ?_
  rw [mergedAt, hm]
  exact (hmerged f).prepare txn m

theorem Registered.commit {env : CheckEnv} {proof : CommittedProof}
    {st' : CCState} (hst : st.commit p env proof = some st') : Registered p st' taken := by
  rcases commit_cases hst with ⟨rfl, -⟩ | ⟨res, m, f, -, rfl⟩
  · exact h
  · refine Registered.clean ?_ proof.txn false
    exact h

end

end Registered

theorem registered_step {h h' : ReadHistory} {e : CCEvent} (hi : Registered p h.st h.taken)
    (hs : h.step p e = some h') : Registered p h'.st h'.taken := by
  obtain ⟨st, hst, rfl⟩ := map_eq_some_iff.mp hs
  cases e with
  | addOngoing txn =>
    cases hst
    exact hi
  | check txn env =>
    obtain ⟨r, hr, rfl⟩ := map_eq_some_iff.mp hst
    exact hi.doOCCCheck hr
  | commit proof env => exact hi.commit hst
  | abort txn =>
    cases hst
    exact hi.abort txn
  | clean txn hard =>
    cases hst
    exact hi.clean txn hard

section Writer

variable {st : CCState} {env : CheckEnv} {ts : Timestamp}

theorem checkRead_ne_commit (read : ReadMessage) : checkRead p st ts read ≠ some .commit := by
  have hprep : checkPreparedWrite st ts read ≠ some .commit := by
    rw [checkPreparedWrite]
    split
    · split <;> exact fun h => by cases h
    · exact fun h => by cases h
  rw [checkRead]
  split
  · exact fun h => by cases h
  split
  · split
    · exact fun h => by cases h
    · split
      · exact fun h => by cases h
      · exact hprep
  · exact hprep

theorem checkWrite_ne_commit (w : WriteMessage) : checkWrite p st env ts w ≠ some .commit := by
  rw [checkWrite]
  split
  · exact fun h => by cases h
  · split
    · exact fun h => by cases h
    · split <;> exact fun h => by cases h

theorem findSome?_ne_commit {α : Type} {f : α → Option OccOutcome} (hf : ∀ a, f a ≠ some .commit)
    {l : List α} {res : OccOutcome} (h : l.findSome? f = some res) : res ≠ .commit := by
  obtain ⟨a, -, ha⟩ := exists_of_findSome?_eq_some h
  rintro rfl
  exact hf a ha

theorem doMVTSOOCCCheck_ne_commit {txn : Transaction} {readSet : List ReadMessage} {w : WriteMessage}
    (hnew : txn ∉ st.prepared) (hw : w ∈ txn.writeSet) (hcheck : (checkWrite p st env txn.timestamp w).isSome = true) :
    (doMVTSOOCCCheck p st env txn readSet).2 ≠ .commit := by
  have hsome : (txn.writeSet.findSome? (checkWrite p st env txn.timestamp)).isSome = true :=
    List.findSome?_isSome_iff.mpr ⟨w, hw, hcheck⟩
  obtain ⟨res, hres⟩ := isSome_iff_exists.mp hsome
  have hnot : st.prepared.contains txn = false := by
    rw [← Bool.not_eq_true, contains_iff_mem]
    exact hnew
  rw [doMVTSOOCCCheck, hnot, if_neg Bool.false_ne_true]
  split
  · exact fun h => by cases h
  · split
    · exact findSome?_ne_commit checkRead_ne_commit ‹_›
    · rw [hres]
      exact findSome?_ne_commit checkWrite_ne_commit hres

/-- A registered reader is in the way of a write, if its base read set has the key below the write. -/
theorem checkWrite_isSome {w : WriteMessage} {reader : Transaction} {r : ReadMessage}
    (hown : p.isKeyOwned w.key = true) (hpoint : w.isTableColVersion = false)
    (hmem : reader ∈ st.preparedReads w.key) (hts : ts < reader.timestamp)
    (hfind : reader.readSet.find? (fun x => x.key == w.key) = some r) (hbelow : r.readtime < ts)
    (hex : ¬ (r.readtime = .genesis ∧ w.isDeletion = true)) : (checkWrite p st env ts w).isSome = true := by
  have hconf : conflictsPreparedRead ts w reader = true := by
    rw [conflictsPreparedRead, hfind]
    simpa [hts, hbelow, imp_iff_not_or] using hex
  have hany : (st.preparedReads w.key).any (conflictsPreparedRead ts w) = true :=
    any_eq_true.mpr ⟨reader, hmem, hconf⟩
  rw [checkWrite, hpoint, hown]
  simp only [Bool.not_true, Bool.or_self, Bool.false_eq_true, if_false]
  split
  · rfl
  · rw [hany, Bool.true_or, if_pos rfl]
    rfl

/-- A writer below a prepared reader does not pass, where the key is in the merged read set and its first entry in the
base read set is below the writer, unless a row that was read as absent is deleted. -/
theorem merged_read_detected {es : List CCEvent} {h : ReadHistory}
    (hs : Run.exec (ReadHistory.step p) {} es = some h) {reader writer : Transaction} {m : ReadSet}
    {read r : ReadMessage} {w : WriteMessage} (hr : reader ∈ h.st.prepared) (hm : h.taken reader = some m)
    (hread : read ∈ m.readSet) (hpoint : read.isTableColVersion = false)
    (hown : p.isKeyOwned read.key = true) (hnew : writer ∉ h.st.prepared) (hw : w ∈ writer.writeSet)
    (hwpoint : w.isTableColVersion = false) (hkey : w.key = read.key) (hts : writer.timestamp < reader.timestamp)
    (hfind : reader.readSet.find? (fun x => x.key == read.key) = some r)
    (hbelow : r.readtime < writer.timestamp) (hex : ¬ (r.readtime = .genesis ∧ w.isDeletion = true))
    (env : CheckEnv) (readSet : List ReadMessage) : (doMVTSOOCCCheck p h.st env writer readSet).2 ≠ .commit := by
  have hreg : Registered p h.st h.taken :=
    Run.exec_invariant (P := fun h => Registered p h.st h.taken) registered_step (fun _ h => by cases h) hs
  have hmem : reader ∈ h.st.preparedReads w.key := by
    refine hreg reader hr w.key ?_
    rw [hm]
    exact readsKey_iff.mpr ⟨hkey ▸ hown, read, hread, hpoint, hkey.symm⟩
  rw [← hkey] at hown hfind
  exact doMVTSOOCCCheck_ne_commit hnew hw (checkWrite_isSome hown hwpoint hmem hts hfind hbelow hex)

end Writer

def absentQuery : QueryResultMetaData := ⟨[1], 0, [(0, ⟨none, some ⟨[⟨[7], .genesis, false⟩], [], []⟩⟩)]⟩

/-- Reads the key with a query, and on its own. -/
def listedReader : Transaction := { absentReader with querySet := [absentQuery] }

def inserter : Transaction := { deleter with writeSet := [⟨[7], some [1], false⟩] }

def mergedRun (reader writer : Transaction) : List CCEvent :=
  [.addOngoing reader, .addOngoing writer, .check reader {}]

def readBefore (reader writer : Transaction) (h : ReadHistory) : Prop :=
  reader ∈ h.st.prepared ∧ h.taken reader = some ⟨[⟨[7], .genesis, false⟩], [], []⟩ ∧ writer ∉ h.st.prepared
  deriving Decidable

theorem deleted_row_run : ∃ h, Run.exec (ReadHistory.step oneGroup) {} (mergedRun listedReader deleter) = some h ∧
    readBefore listedReader deleter h ∧ writesKey oneGroup deleter.writeSet [7] = true ∧
    .genesis < deleter.timestamp ∧ deleter.timestamp < listedReader.timestamp ∧
    (doMVTSOOCCCheck oneGroup h.st {} deleter deleter.readSet).2 = .commit := by
  have hany : (Run.exec (ReadHistory.step oneGroup) {} (mergedRun listedReader deleter)).any (fun h =>
      decide (readBefore listedReader deleter h) &&
      decide ((doMVTSOOCCCheck oneGroup h.st {} deleter deleter.readSet).2 = .commit)) = true := by
    decide +kernel
  obtain ⟨h, hs, hp⟩ := Run.exec_of_any hany
  rw [Bool.and_eq_true, decide_eq_true_eq, decide_eq_true_eq] at hp
  exact ⟨h, hs, hp.1, by decide, by decide, by decide, hp.2⟩

theorem merged_read_detected_inserter :
    ∃ h, Run.exec (ReadHistory.step oneGroup) {} (mergedRun listedReader inserter) = some h ∧
      (doMVTSOOCCCheck oneGroup h.st {} inserter inserter.readSet).2 ≠ .commit := by
  have hany : (Run.exec (ReadHistory.step oneGroup) {} (mergedRun listedReader inserter)).any (fun h =>
      decide (readBefore listedReader inserter h)) = true := by decide +kernel
  obtain ⟨h, hs, hp⟩ := Run.exec_of_any hany
  obtain ⟨hr, hm, hnew⟩ := of_decide_eq_true hp
  exact ⟨h, hs, merged_read_detected hs hr hm mem_cons_self rfl rfl hnew mem_cons_self rfl rfl
    (by decide) rfl (by decide) (by decide) {} _⟩

section Locks

variable {a : Bytes} {l rs ws : List Bytes}

theorem lt_of_not_keyRepeats (hr : ¬ keyRepeats (a :: l) = true) (hs : (a :: l).Pairwise (· ≤ ·)) : ∀ k ∈ l, a < k := by
  cases l with
  | nil => simp
  | cons b l =>
    simp only [keyRepeats, beq_iff_eq] at hr
    obtain ⟨hle, hs⟩ := pairwise_cons.mp hs
    have hlt : a < b := Std.lt_of_le_of_ne (hle b (by simp)) hr
    simp only [mem_cons, forall_eq_or_imp]
    exact ⟨hlt, fun k hk => Std.lt_of_lt_of_le hlt ((pairwise_cons.mp hs).1 k hk)⟩

theorem mem_tail_of_keyRepeats (h : keyRepeats l = true) (k : Bytes) : k ∈ l.tail ↔ k ∈ l := by
  match l, h with
  | a :: b :: l, h =>
    simp only [keyRepeats, beq_iff_eq] at h
    simp [h]

theorem ascending_cons (h : l.Pairwise (· < ·) ∧ ∀ k, k ∈ l ↔ k ∈ rs ∨ k ∈ ws) (hr : ∀ k ∈ rs, a < k)
    (hw : ∀ k ∈ ws, a < k) : (a :: l).Pairwise (· < ·) ∧ ∀ k, k ∈ a :: l ↔ k = a ∨ k ∈ rs ∨ k ∈ ws := by
  refine ⟨pairwise_cons.mpr ⟨fun k hk => ((h.2 k).mp hk).elim (hr k) (hw k), h.1⟩, fun k => ?_⟩
  rw [mem_cons, h.2]

theorem lockKeys_spec (hr : rs.Pairwise (· ≤ ·)) (hw : ws.Pairwise (· ≤ ·)) :
    (lockKeys rs ws).Pairwise (· < ·) ∧ ∀ k, k ∈ lockKeys rs ws ↔ k ∈ rs ∨ k ∈ ws := by
  fun_induction lockKeys rs ws with
  | case1 rs ws hrep ih => simpa only [mem_tail_of_keyRepeats hrep] using ih hr.tail hw
  | case2 rs ws _ hrep ih => simpa only [mem_tail_of_keyRepeats hrep] using ih hr hw.tail
  | case3 => simp
  | case4 w ws _ hrep ih =>
    have h := ascending_cons (ih hr hw.tail) nofun (lt_of_not_keyRepeats hrep hw)
    exact ⟨h.1, fun k => by grind⟩
  | case5 r rs hrep _ ih =>
    have h := ascending_cons (ih hr.tail hw) (lt_of_not_keyRepeats hrep hr) nofun
    exact ⟨h.1, fun k => by grind⟩
  | case6 rs r ws hrep' _ hrep ih =>
    have h := ascending_cons (ih hr.tail hw.tail) (lt_of_not_keyRepeats hrep hr) (lt_of_not_keyRepeats hrep' hw)
    exact ⟨h.1, fun k => by grind⟩
  | case7 r rs w ws hle hne hrep hrep' ih =>
    have hlt : r < w := Std.lt_of_le_of_ne hle hne
    have h := ascending_cons (ih hr.tail hw) (lt_of_not_keyRepeats hrep hr)
      (forall_mem_cons.mpr ⟨hlt, fun k hk => List.lt_trans hlt (lt_of_not_keyRepeats hrep' hw k hk)⟩)
    exact ⟨h.1, fun k => by grind⟩
  | case8 r rs w ws hle hrep hrep' ih =>
    have hlt : w < r := Std.not_le.mp hle
    have h := ascending_cons (ih hr hw.tail)
      (forall_mem_cons.mpr ⟨hlt, fun k hk => List.lt_trans hlt (lt_of_not_keyRepeats hrep hr k hk)⟩)
      (lt_of_not_keyRepeats hrep' hw)
    exact ⟨h.1, fun k => by grind⟩

/-- Transaction `i` waits for a key that `j` has locked. Each has locked as many of its keys as `held` says. -/
def WaitsFor {ι : Type} (keys : ι → List Bytes) (held : ι → Nat) (i j : ι) : Prop :=
  ∃ k, (keys i)[held i]? = some k ∧ k ∈ (keys j).take (held j)

theorem lt_of_waits {ι : Type} {keys : ι → List Bytes} {held : ι → Nat} {i j : ι}
    (hs : ∀ i, (keys i).Pairwise (· < ·)) (h : Relation.TransGen (WaitsFor keys held) i j) :
    ∃ k, (keys i)[held i]? = some k ∧ ∀ k', (keys j)[held j]? = some k' → k < k' := by
  -- a key that is locked is before the one that is waited for
  have hlocked : ∀ {j k k'}, k ∈ (keys j).take (held j) → (keys j)[held j]? = some k' → k < k' := by
    intro j k k' hk hk'
    obtain ⟨n, hn, rfl⟩ := mem_take_iff_getElem.mp hk
    obtain ⟨hlt, rfl⟩ := List.getElem?_eq_some_iff.mp hk'
    exact pairwise_iff_getElem.mp (hs j) n (held j) (by omega) hlt (by omega)
  induction h with
  | single h =>
    obtain ⟨k, hk, hmem⟩ := h
    exact ⟨k, hk, fun k' => hlocked hmem⟩
  | tail _ h ih =>
    obtain ⟨k, hk, hlt⟩ := ih
    obtain ⟨k₁, hk₁, hmem⟩ := h
    exact ⟨k, hk, fun k' hk' => List.lt_trans (hlt k₁ hk₁) (hlocked hmem hk')⟩

/-- The keys of a transaction are locked once each, in ascending order, and there is no circle of waiting transactions.
-/
theorem locks_ascending {ι : Type} (txn : ι → Transaction) (readSet : ι → List ReadMessage)
    (hr : ∀ i, ((readSet i).map (·.key)).Pairwise (· ≤ ·))
    (hw : ∀ i, ((txn i).writeSet.map (·.key)).Pairwise (· ≤ ·)) :
    (∀ i, (lockTxnKeysScoped (txn i) (readSet i)).Pairwise (· < ·) ∧
      ∀ k, k ∈ lockTxnKeysScoped (txn i) (readSet i) ↔
        k ∈ (readSet i).map (·.key) ∨ k ∈ (txn i).writeSet.map (·.key)) ∧
    ∀ held i, ¬ Relation.TransGen (WaitsFor (fun i => lockTxnKeysScoped (txn i) (readSet i)) held) i i := by
  have hspec : ∀ i, _ := fun i => lockKeys_spec (hr i) (hw i)
  refine ⟨hspec, fun held i h => ?_⟩
  obtain ⟨k, hk, hlt⟩ := lt_of_waits (fun i => (hspec i).1) h
  exact List.lt_irrefl k (hlt k hk)

end Locks

/-- Two transactions with keys in common, some of which they read or write twice. -/
def overlapping (first : Bool) : Transaction :=
  { deleter with writeSet :=
      if first then [⟨[7], some [1], false⟩, ⟨[7], some [2], false⟩, ⟨[9], some [1], false⟩]
      else [⟨[5], some [1], false⟩, ⟨[9], some [2], false⟩] }

def overlappingReads (first : Bool) : List ReadMessage :=
  if first then [⟨[5], .genesis, false⟩, ⟨[7], .genesis, false⟩]
  else [⟨[7], .genesis, false⟩, ⟨[7], .genesis, false⟩, ⟨[8], .genesis, false⟩]

theorem locks_ascending_overlapping :
    lockTxnKeysScoped (overlapping true) (overlappingReads true) = [[5], [7], [9]] ∧
    lockTxnKeysScoped (overlapping false) (overlappingReads false) = [[5], [7], [8], [9]] ∧
    ∀ held i, ¬ Relation.TransGen
      (WaitsFor (fun i => lockTxnKeysScoped (overlapping i) (overlappingReads i)) held) i i :=
  ⟨by decide +kernel, by decide +kernel, (locks_ascending overlapping overlappingReads (by decide) (by decide)).2⟩

end Pequin
