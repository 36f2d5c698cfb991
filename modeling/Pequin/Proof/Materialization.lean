import Pequin.Proof.QuerySteps

/-!
# What is materialized

`materialized` says of a transaction that its table writes are in the table store, or that it is aborted. Whoever
materializes a transaction wakes the queries that wait for it, so the actions of threads speak of transactions that
are materialized.
-/

namespace Pequin.QueryServer

open Function Option

variable {p : Params} {t t' t'' : TxnState} {d : Digest} {x : Txn}

def TxnState.Applied (p : Params) (t : TxnState) (d : Digest) : Prop :=
  ∃ x, p.transactionDigest x = d ∧ (d, x.tableWrites) ∈ t.applied

namespace TxnState

/-- Table writes are purged only if their transaction is aborted. -/
structure Grows (t t' : TxnState) : Prop where
  aborted : ∀ d ∈ t.aborted, d ∈ t'.aborted
  materialized : ∀ d ∈ t.materialized, d ∈ t'.materialized
  tsToTx : ∀ ts d, t.tsToTx ts = some d → t'.tsToTx ts = some d
  applied : ∀ w ∈ t.applied, w ∈ t'.applied ∨ w.1 ∈ t'.aborted

theorem Grows.refl (t : TxnState) : Grows t t :=
  ⟨fun _ h => h, fun _ h => h, fun _ _ h => h, fun _ h => .inl h⟩

theorem Grows.trans (h : Grows t t') (h' : Grows t' t'') : Grows t t'' where
  aborted d hd := h'.aborted d (h.aborted d hd)
  materialized d hd := h'.materialized d (h.materialized d hd)
  tsToTx ts d hd := h'.tsToTx ts d (h.tsToTx ts d hd)
  applied w hw := (h.applied w hw).elim (h'.applied w) fun hab => .inr (h'.aborted _ hab)

/-- Every materialized id is aborted or applied. -/
structure Settled (p : Params) (t : TxnState) : Prop where
  ongoing : ∀ d x, t.ongoing d = some x → p.transactionDigest x = d
  materialized : ∀ d ∈ t.materialized, d ∈ t.aborted ∨ t.Applied p d

theorem Grows.aborted_or_applied (h : Grows t t') (hd : d ∈ t.aborted ∨ t.Applied p d) :
    d ∈ t'.aborted ∨ t'.Applied p d := by
  rcases hd with hab | ⟨x, hx, happ⟩
  · exact .inl (h.aborted d hab)
  · exact (h.applied _ happ).symm.imp_right fun happ => ⟨x, hx, happ⟩

theorem Settled.of_grows (h : Settled p t) (hg : Grows t t')
    (hon : ∀ d x, t'.ongoing d = some x → t.ongoing d = some x ∨ p.transactionDigest x = d)
    (hmat : ∀ d ∈ t'.materialized, d ∈ t.materialized ∨ d ∈ t'.aborted ∨ t'.Applied p d) : Settled p t' where
  ongoing d x hx := (hon d x hx).elim (h.ongoing d x) id
  materialized d hd := (hmat d hd).elim (fun hd => hg.aborted_or_applied (h.materialized d hd)) id

theorem registerTxTS_cases (h : t.registerTxTS p d x = some t') :
    (t' = t ∧ (p.optimisticTxID = true → ∃ ts, mergeTimestampId x.timestamp = some ts ∧ t.tsToTx ts = some d)) ∨
    ∃ ts, mergeTimestampId x.timestamp = some ts ∧ t.tsToTx ts = none ∧
      t' = { t with tsToTx := update t.tsToTx ts (some d) } := by
  unfold registerTxTS at h
  split at h
  · split at h
    · cases h
    rename_i ts hts
    split at h
    · cases h
      exact .inr ⟨ts, hts, ‹_›, rfl⟩
    · split at h
      · cases h
        exact .inl ⟨rfl, fun _ => ⟨ts, hts, by simp [*]⟩⟩
      · cases h
  · cases h
    exact .inl ⟨rfl, fun hopt => absurd hopt ‹_›⟩

theorem registerTxTS_spec (h : t.registerTxTS p d x = some t') : Grows t t' ∧ (∃ f, t' = { t with tsToTx := f }) ∧
    (p.optimisticTxID = true → ∀ ts, mergeTimestampId x.timestamp = some ts → t'.tsToTx ts = some d) := by
  obtain ⟨rfl, hreg⟩ | ⟨ts, hts, hnone, rfl⟩ := registerTxTS_cases h
  · refine ⟨.refl t', ⟨_, rfl⟩, fun hopt ts' hts' => ?_⟩
    obtain ⟨ts, hts, hd⟩ := hreg hopt
    cases hts.symm.trans hts'
    exact hd
  · refine ⟨⟨fun _ h => h, fun _ h => h, fun ts' d' hd' => ?_, fun _ h => .inl h⟩, ⟨_, rfl⟩, fun _ ts' hts' => ?_⟩
    · have hne : ts' ≠ ts := by
        rintro rfl
        rw [hnone] at hd'
        cases hd'
      exact (update_of_ne hne ..).trans hd'
    · cases hts.symm.trans hts'
      exact update_self ..

theorem tsToTx_registered {l : List (Digest × Txn)} (h : l.foldlM (fun t y => t.registerTxTS p y.1 y.2) t = some t')
    {i : Nat} (hi : t'.tsToTx i = some d) :
    t.tsToTx i = some d ∨ ∃ y, (d, y) ∈ l ∧ mergeTimestampId y.timestamp = some i := by
  induction l generalizing t with
  | nil =>
    cases h
    exact .inl hi
  | cons y l ih =>
    obtain ⟨t₁, hreg, hrest⟩ := bind_eq_some_iff.mp h
    rcases ih hrest with hi₁ | ⟨z, hz, hzi⟩
    · obtain ⟨rfl, -⟩ | ⟨j, hj, -, rfl⟩ := registerTxTS_cases hreg
      · exact .inl hi₁
      by_cases hij : i = j
      · subst hij
        have hd : some y.1 = some d := (update_self i _ t.tsToTx).symm.trans hi₁
        exact .inr ⟨y.2, some.inj hd ▸ List.mem_cons_self, hj⟩
      · exact .inl ((update_of_ne hij ..).symm.trans hi₁)
    · exact .inr ⟨z, List.mem_cons_of_mem y hz, hzi⟩

theorem settled_registerTxTS (h : t.registerTxTS p d x = some t') (hs : Settled p t) : Settled p t' := by
  obtain ⟨hg, ⟨f, rfl⟩, -⟩ := registerTxTS_spec h
  exact hs.of_grows hg (fun _ _ h => .inl h) fun _ h => .inl h

theorem addOngoing_spec (h : t.addOngoing p d x = some t') (hdig : p.transactionDigest x = d) (hs : Settled p t) :
    Grows t t' ∧ Settled p t' := by
  obtain ⟨t₁, hreg, rfl⟩ := map_eq_some_iff.mp h
  obtain ⟨hg, ⟨f, rfl⟩, -⟩ := registerTxTS_spec hreg
  have hg' : Grows t { t with
      tsToTx := f
      ongoing := update t.ongoing d (some x)
      p1MetaData :=
        if p.signClientProposals then update t.p1MetaData d (some ((t.p1MetaData d).getD {}))
        else t.p1MetaData } :=
    ⟨hg.aborted, hg.materialized, hg.tsToTx, hg.applied⟩
  refine ⟨hg', hs.of_grows hg' (fun d' y hy => ?_) fun _ h => .inl h⟩
  by_cases hd : d' = d
  · subst hd
    have hself : update t.ongoing d' (some x) d' = some x := update_self ..
    cases hself.symm.trans hy
    exact .inr hdig
  · exact .inl ((update_of_ne hd ..).symm.trans hy)

theorem grows_p1MetaData (p1 : Digest → Option P1MetaData) : Grows t { t with p1MetaData := p1 } :=
  ⟨fun _ h => h, fun _ h => h, fun _ _ h => h, fun _ h => .inl h⟩

theorem settled_p1MetaData (p1 : Digest → Option P1MetaData) (hs : Settled p t) :
    Settled p { t with p1MetaData := p1 } :=
  ⟨hs.ongoing, hs.materialized⟩

theorem applyTableWrites_spec (h : t.applyTableWrites p d x = some t') (hdig : p.transactionDigest x = d)
    (hs : Settled p t) : Grows t t' ∧ Settled p t' ∧ d ∈ t'.materialized ∧
      (p.optimisticTxID = true → ∀ ts, mergeTimestampId x.timestamp = some ts → t'.tsToTx ts = some d) := by
  obtain ⟨t₁, hreg, rfl⟩ := map_eq_some_iff.mp h
  obtain ⟨hg, ⟨f, rfl⟩, hts⟩ := registerTxTS_spec hreg
  have hg' : Grows t { t with
      tsToTx := f, applied := t.applied ++ [(d, x.tableWrites)], materialized := t.materialized ++ [d] } :=
    ⟨fun _ h => h, fun _ h => List.mem_append_left _ h, hg.tsToTx, fun _ h => .inl (List.mem_append_left _ h)⟩
  refine ⟨hg', hs.of_grows hg' (fun _ _ h => .inl h) (fun d' hd' => ?_), by simp, hts⟩
  rcases List.mem_append.mp hd' with hold | hnew
  · exact .inl hold
  · cases List.mem_singleton.mp hnew
    exact .inr (.inr ⟨x, hdig, by simp⟩)

theorem clean_ongoing {b : Bool} {d' : Digest} (h : (t.clean b d).ongoing d' = some x) : t.ongoing d' = some x := by
  by_cases hd : d' = d
  · subst hd
    have hself : update t.ongoing d' none d' = none := update_self ..
    cases hself.symm.trans h
  · exact (update_of_ne hd ..).symm.trans h

theorem grows_clean {b : Bool} (hab : b = true → d ∈ t.aborted) : Grows t (t.clean b d) := by
  refine ⟨fun _ h => h, fun _ h => h, fun _ _ h => h, fun w hw => ?_⟩
  cases b with
  | false => exact .inl hw
  | true =>
    by_cases hd : w.1 = d
    · exact .inr (hd ▸ hab rfl)
    · exact .inl (List.mem_filter.mpr ⟨hw, by simpa using hd⟩)

theorem settled_clean {b : Bool} (hab : b = true → d ∈ t.aborted) (hs : Settled p t) : Settled p (t.clean b d) :=
  hs.of_grows (grows_clean hab) (fun _ _ h => .inl (clean_ongoing h)) fun _ h => .inl h

theorem grows_aborted : Grows t { t with aborted := t.aborted ++ [d] } :=
  ⟨fun _ h => List.mem_append_left _ h, fun _ h => h, fun _ _ h => h, fun _ h => .inl h⟩

theorem settled_aborted (hs : Settled p t) : Settled p { t with aborted := t.aborted ++ [d] } :=
  hs.of_grows grows_aborted (fun _ _ h => .inl h) fun _ h => .inl h

theorem settled_init : Settled p .init :=
  ⟨nofun, nofun⟩

end TxnState

/-- What the actions of threads rely on. -/
def Action.Sound (p : Params) (t : TxnState) : Action → Prop
  | .applyTableWrites d x => p.transactionDigest x = d
  | .commitWithProof d x => p.transactionDigest x = d
  | .updateWaitingQueries d isAbort => d ∈ t.materialized ∧ (isAbort = true → d ∈ t.aborted)
  | .updateWaitingQueriesTS ts d isAbort => t.tsToTx ts = some d ∧ (isAbort = true → d ∈ t.aborted)
  | .removeTxn d _ => d ∈ t.aborted
  | .wakeQuery d isAbort _ => isAbort = true → d ∈ t.aborted
  | .translateTS ts d isAbort _ => t.tsToTx ts = some d ∧ (isAbort = true → d ∈ t.aborted)

theorem Action.Sound.mono {a : Action} (h : a.Sound p t) (hg : t.Grows t') : a.Sound p t' := by
  cases a with
  | applyTableWrites d x => exact h
  | commitWithProof d x => exact h
  | updateWaitingQueries d isAbort => exact ⟨hg.materialized d h.1, fun hab => hg.aborted d (h.2 hab)⟩
  | updateWaitingQueriesTS ts d isAbort => exact ⟨hg.tsToTx ts d h.1, fun hab => hg.aborted d (h.2 hab)⟩
  | removeTxn d r => exact hg.aborted d h
  | wakeQuery d isAbort r => exact fun hab => hg.aborted d (h hab)
  | translateTS ts d isAbort r => exact ⟨hg.tsToTx ts d h.1, fun hab => hg.aborted d (h.2 hab)⟩

/-- The query, with its retry version, that an action goes on with. -/
def Action.woken : Action → Option RetryId
  | .wakeQuery _ _ r => some r
  | .translateTS _ _ _ r => some r
  | _ => none

theorem checkWaitingQueries_spec {isAbort : Bool} {actions : List Action}
    (h : checkWaitingQueries p d x isAbort = some actions) (hmat : d ∈ t.materialized)
    (hab : isAbort = true → d ∈ t.aborted)
    (hts : p.optimisticTxID = true → ∀ ts, mergeTimestampId x.timestamp = some ts → t.tsToTx ts = some d) :
    ∀ a ∈ actions, a.Sound p t ∧ a.woken = none := by
  unfold checkWaitingQueries at h
  split at h
  · rename_i hopt
    obtain ⟨ts, hmerge, rfl⟩ := map_eq_some_iff.mp h
    intro a ha
    simp only [List.mem_cons, List.not_mem_nil, or_false] at ha
    rcases ha with rfl | rfl
    · exact ⟨⟨hmat, hab⟩, rfl⟩
    · exact ⟨⟨hts hopt ts hmerge, hab⟩, rfl⟩
  · cases h
    intro a ha
    cases List.mem_singleton.mp ha
    exact ⟨⟨hmat, hab⟩, rfl⟩

theorem mergeTimestampId_eq_some {ts : Timestamp} {i : Nat} (h : mergeTimestampId ts = some i) :
    i = ts.timestamp + ts.id ∧ ts.id < 2 ^ 12 ∧ ts.timestamp % 2 ^ 12 = 0 := by
  have hmask : ts.timestamp &&& 0xFFF = ts.timestamp % 2 ^ 12 := Nat.and_two_pow_sub_one_eq_mod ts.timestamp 12
  simp only [mergeTimestampId, hmask, Bool.and_eq_true, decide_eq_true_eq, ite_none_right_eq_some, some.injEq] at h
  obtain ⟨⟨hid, hzero⟩, heq⟩ := h
  have hlt : ts.id < 2 ^ 12 := by omega
  have hor := Nat.two_pow_add_eq_or_of_lt hlt (ts.timestamp / 2 ^ 12)
  rw [Nat.mul_div_cancel' (Nat.dvd_of_mod_eq_zero hzero), heq] at hor
  exact ⟨hor.symm, hlt, hzero⟩

/-- Ids of transactions are ordered as the timestamps, and the transaction registered for an id has its timestamp. -/
theorem merged_ids_ordered :
    (∀ a b i j, mergeTimestampId a = some i → mergeTimestampId b = some j → (i < j ↔ a < b) ∧ (i = j ↔ a = b)) ∧
    ∀ (p : Params) (l : List (Digest × Txn)) t, l.foldlM (fun t y => t.registerTxTS p y.1 y.2) TxnState.init = some t →
      ∀ ts i d, mergeTimestampId ts = some i → t.tsToTx i = some d → ∃ y, (d, y) ∈ l ∧ y.timestamp = ts := by
  have hord : ∀ a b i j, mergeTimestampId a = some i → mergeTimestampId b = some j →
      (i < j ↔ a < b) ∧ (i = j ↔ a = b) := by
    rintro ⟨ta, ida⟩ ⟨tb, idb⟩ i j ha hb
    obtain ⟨rfl, hida, hta⟩ := mergeTimestampId_eq_some ha
    obtain ⟨rfl, hidb, htb⟩ := mergeTimestampId_eq_some hb
    rw [Timestamp.lt_iff, Timestamp.mk.injEq]
    dsimp only at *
    constructor
    · split <;> omega
    · omega
  refine ⟨hord, fun p l t h ts i d hts hi => ?_⟩
  obtain ⟨y, hy, hyi⟩ := (TxnState.tsToTx_registered h hi).resolve_left nofun
  exact ⟨y, hy, (hord _ _ i i hyi hts).2.mp rfl⟩

def optimisticIds : Params := ⟨true, false, false, fun _ => []⟩

def timedTxns : List (Digest × Txn) :=
  [([1], ⟨1, 1, ⟨4096, 4095⟩, none, [], []⟩), ([2], ⟨2, 1, ⟨8192, 0⟩, none, [], []⟩)]

theorem merged_ids_ordered_two : (⟨4096, 4095⟩ : Timestamp) < ⟨8192, 0⟩ ∧
    ∃ t, timedTxns.foldlM (fun t y => t.registerTxTS optimisticIds y.1 y.2) TxnState.init = some t ∧
      t.tsToTx 8191 = some [1] ∧ ∃ y, ([1], y) ∈ timedTxns ∧ y.timestamp = ⟨4096, 4095⟩ := by
  have hrun : timedTxns.foldlM (fun t y => t.registerTxTS optimisticIds y.1 y.2) TxnState.init = some _ := rfl
  refine ⟨(merged_ids_ordered.1 _ _ 8191 8192 (by decide) (by decide)).1.mp (by decide), _, hrun, by decide, ?_⟩
  exact merged_ids_ordered.2 optimisticIds timedTxns _ hrun ⟨4096, 4095⟩ 8191 [1] (by decide) (by decide)

end Pequin.QueryServer
