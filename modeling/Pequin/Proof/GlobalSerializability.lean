import Pequin.Framework.Multiversion
import Pequin.Proof.Agreement
import Pequin.Proof.Serializability

/-!
# Serializability across groups

Each replica keeps the transactions it has prepared or committed free of conflicts on the keys of its group. Two
transactions with COMMIT certificates were both accepted by a correct replica of every group they have in common, so
neither misses a version that the other writes, and the order of their timestamps is a
serial history (`serializable`). A transaction has to involve the groups that own its keys (`Covers`), which no replica
checks: in `uncovered_run` a write is missed.
-/

namespace Pequin

open List Multiversion Quorum World

def Transaction.versioned (t : Transaction) : Txn Bytes Timestamp where
  time := t.timestamp
  reads := (t.readSet.filter fun r => !r.isTableColVersion).map fun r => (r.key, r.readtime)
  writes := (t.writeSet.filter fun w => !w.isTableColVersion).map WriteMessage.key

theorem mem_versioned_reads {t : Transaction} {x : Bytes × Timestamp} :
    x ∈ t.versioned.reads ↔ ∃ r ∈ t.readSet, r.isTableColVersion = false ∧ (r.key, r.readtime) = x := by
  simp [Transaction.versioned, and_assoc]

theorem mem_versioned_writes {t : Transaction} {k : Bytes} :
    k ∈ t.versioned.writes ↔ ∃ w ∈ t.writeSet, w.isTableColVersion = false ∧ w.key = k := by
  simp [Transaction.versioned, and_assoc]

theorem conflict_of_misses {p : CCParams} {reader writer : Transaction} {k : Bytes} {v : Timestamp}
    (h : Misses reader.versioned writer.versioned k v) (hown : p.isKeyOwned k = true) :
    ∃ read, Conflict p reader writer read := by
  obtain ⟨read, hmem, hpoint, heq⟩ := mem_versioned_reads.mp h.reads
  cases heq
  exact ⟨read, hown, hmem, hpoint, writesKey_iff.mpr ⟨hown, mem_versioned_writes.mp h.writes⟩, h.after, h.before⟩

/-- The transaction involves the groups that own the keys it reads and writes. -/
structure Transaction.Covers (owner : Bytes → Nat) (t : Transaction) : Prop where
  reads : ∀ x ∈ t.versioned.reads, owner x.1 ∈ t.involvedGroups
  writes : ∀ k ∈ t.versioned.writes, owner k ∈ t.involvedGroups

instance (owner : Bytes → Nat) (t : Transaction) : Decidable (t.Covers owner) :=
  decidable_of_iff (_ ∧ _) ⟨fun h => ⟨h.1, h.2⟩, fun h => ⟨h.1, h.2⟩⟩

/-- The concurrency control of a replica, where `owner` maps keys to groups. -/
def Cluster.ccParams (c : Cluster) (owner : Bytes → Nat) (mergeActiveAtClient : Bool) (r : Nat) : CCParams where
  groupIdx := r / c.config.n
  isKeyOwned k := owner k == r / c.config.n
  cacheReadSet := c.cacheReadSet
  mergeActiveAtClient := mergeActiveAtClient

def Certified (c : Cluster) (w : World) (T : Transaction) : Prop :=
  ∃ sigs, Certificate c T (c.digestOf T) w .commit sigs ∧ ProperCertificate c T (c.digestOf T) .commit sigs

/-- Of the transactions that correct replicas have prepared or committed (`live`), no two are in conflict, and those
with a certificate are kept. -/
structure LocallySerial (c : Cluster) (p : Nat → CCParams) (w : World) (live : Nat → Transaction → Prop) : Prop where
  isolated : ∀ r, c.byzantine r = false → ∀ T W read, live r T → live r W → ¬ Conflict (p r) T W read
  kept : ∀ r, c.byzantine r = false → ∀ T, Certified c w T → (w r (c.digestOf T)).outcome.accepts → live r T

section Serializable

variable {c : Cluster} {w : World} {owner : Bytes → Nat} {merge : Bool} {live : Nat → Transaction → Prop}
  {l : List Transaction} {t T W : Transaction}

/-- Two certified transactions were accepted by one correct replica of a common group. -/
theorem exists_accepts_both (ht : c.Tolerant) {d d' : Digest}
    (hT : (know c T d w).voted .commit) (hW : (know c W d' w).voted .commit) {g : Nat}
    (hg : g ∈ T.involvedGroups) (hg' : g ∈ W.involvedGroups) :
    ∃ r, r / c.config.n = g ∧ c.byzantine r = false ∧ (w r d).outcome.accepts ∧ (w r d').outcome.accepts := by
  have hn := ht.n_eq
  obtain ⟨r, hr, hcorrect, h₁, h₂⟩ := (hT g hg).meet (ht.faulty g) (hW g hg')
    (by rw [card_members]; simp only [p1QuorumSize, Configuration.slowCommitQuorumSize]; omega)
  rw [Bool.not_eq_true] at hcorrect
  exact ⟨r, (mem_members (by omega)).mp hr, hcorrect, h₁, h₂⟩

theorem voted_of_certified (ht : c.Tolerant) (h32 : ∀ g ∈ T.involvedGroups, g < 2 ^ 32)
    (hinv : ClusterInv c T (c.digestOf T) w) (h : Certified c w T) : (know c T (c.digestOf T) w).voted .commit := by
  obtain ⟨sigs, hcert, hproper⟩ := h
  exact voted_of_cert ht hinv (cert_of_certificate ht h32 hinv hcert hproper)

theorem not_misses (ht : c.Tolerant) (hlocal : LocallySerial c (c.ccParams owner merge) w live) (hT : Certified c w T)
    (hW : Certified c w W)
    (hvT : (know c T (c.digestOf T) w).voted .commit) (hvW : (know c W (c.digestOf W) w).voted .commit)
    (hcT : T.Covers owner) (hcW : W.Covers owner) (k : Bytes) (v : Timestamp) :
    ¬ Misses T.versioned W.versioned k v := by
  intro hm
  obtain ⟨r, hr, hcorrect, hacc, hacc'⟩ :=
    exists_accepts_both ht hvT hvW (hcT.reads _ hm.reads) (hcW.writes _ hm.writes)
  have hown : (c.ccParams owner merge r).isKeyOwned k = true := beq_iff_eq.mpr hr.symm
  obtain ⟨read, hconf⟩ := conflict_of_misses hm hown
  exact hlocal.isolated r hcorrect T W read (hlocal.kept r hcorrect T hT hacc)
    (hlocal.kept r hcorrect W hW hacc') hconf

/-- Certified transactions that cover their keys do not miss each other's versions, in runs that are proper for each of
them. By timestamps they are a serial history, if they read versions that some of them have written. -/
theorem serializable (ht : c.Tolerant) (h32 : ∀ T ∈ l, ∀ g ∈ T.involvedGroups, g < 2 ^ 32) {es : List Event}
    (hm : Run.Meets (World.step c) (fun w e => ∀ T ∈ l, w.proper c T (c.digestOf T) e) World.init es)
    (h : Run.exec (World.step c) World.init es = some w)
    (hlocal : LocallySerial c (c.ccParams owner merge) w live) (hcert : ∀ T ∈ l, Certified c w T)
    (hcover : ∀ T ∈ l, T.Covers owner) : (∀ T ∈ l, ∀ W ∈ l, ∀ k v, ¬ Misses T.versioned W.versioned k v) ∧
      ((l.Pairwise fun T W => T.timestamp < W.timestamp) → (∀ T ∈ l, .genesis < T.timestamp) →
        (∀ T ∈ l, ∀ x ∈ T.versioned.reads, Written (fun _ => .genesis) (l.map Transaction.versioned) T.versioned x) →
        Serial (fun _ => .genesis) (l.map Transaction.versioned)) := by
  have hvoted : ∀ T ∈ l, (know c T (c.digestOf T) w).voted .commit := fun T hT =>
    voted_of_certified ht (h32 T hT) (clusterInv_of_proper ht (h32 T hT) (hm.mono fun _ _ hp => hp T hT) h)
      (hcert T hT)
  have hmiss : ∀ T ∈ l, ∀ W ∈ l, ∀ k v, ¬ Misses T.versioned W.versioned k v := fun T hT W hW =>
    not_misses ht hlocal (hcert T hT) (hcert W hW) (hvoted T hT) (hvoted W hW) (hcover T hT) (hcover W hW)
  refine ⟨hmiss, fun hsorted hstart hwritten => serial_of_not_misses ?_ ?_ ?_ ?_⟩
  · exact pairwise_map.mpr hsorted
  · intro k t ht
    obtain ⟨T, hT, rfl⟩ := mem_map.mp ht
    exact hstart T hT
  · intro r hr t ht
    obtain ⟨T, hT, rfl⟩ := mem_map.mp hr
    obtain ⟨W, hW, rfl⟩ := mem_map.mp ht
    exact hmiss T hT W hW
  · intro t ht
    obtain ⟨T, hT, rfl⟩ := mem_map.mp ht
    exact hwritten T hT

end Serializable

def writer : Transaction where
  clientId := 1
  clientSeqNum := 4
  involvedGroups := [0]
  readSet := []
  writeSet := [⟨[9], some [1], false⟩]
  timestamp := ⟨20000, 1⟩

def currentReader : Transaction where
  clientId := 2
  clientSeqNum := 5
  involvedGroups := [0]
  readSet := [⟨[9], ⟨20000, 1⟩, false⟩]
  writeSet := []
  timestamp := ⟨30000, 2⟩

def staleReader : Transaction where
  clientId := 2
  clientSeqNum := 6
  involvedGroups := [1]
  readSet := [⟨[9], .genesis, false⟩]
  writeSet := []
  timestamp := ⟨30000, 2⟩

/-- The digests of these transactions are not those of others. -/
def storeDigest (t : Transaction) : Digest :=
  if t = writer then [4] else if t = currentReader then [5] else if t = staleReader then [6] else [0]

def storeReplicas : Cluster := { twelveReplicas with digestOf := storeDigest }

theorem storeReplicas_tolerant : storeReplicas.Tolerant :=
  ⟨twelveReplicas_tolerant.n_eq, twelveReplicas_tolerant.faulty⟩

def touched (es : List Event) : List (Nat × Digest) := es.map fun e => (e.replica, e.digest storeDigest)

def handled (es : List Event) (r : Nat) (t : Transaction) : Prop :=
  t ∈ [writer, currentReader, staleReader] ∧ (r, storeDigest t) ∈ touched es

theorem touched_of_accepts {es : List Event} {w : World}
    (h : Run.exec (step storeReplicas) init es = some w) {r : Nat} {d : Digest}
    (ha : (w r d).outcome.accepts) : (r, d) ∈ touched es := by
  by_contra hno
  rw [exec_untouched h hno] at ha
  cases ha

theorem mem_of_storeDigest {t : Transaction} (h : storeDigest t ≠ [0]) : t ∈ [writer, currentReader, staleReader] := by
  by_contra hno
  simp only [mem_cons, not_mem_nil, or_false, not_or] at hno
  rw [storeDigest, if_neg hno.1, if_neg hno.2.1, if_neg hno.2.2] at h
  exact h rfl

theorem locallySerial_handled {es : List Event} {w : World} {p : Nat → CCParams}
    (h : Run.exec (step storeReplicas) init es = some w) (hknown : ∀ x ∈ touched es, x.2 ≠ [0])
    (hiso : ∀ r T W read, handled es r T → handled es r W → ¬ Conflict (p r) T W read) :
    LocallySerial storeReplicas p w (handled es) where
  isolated r _ := hiso r
  kept r _ T _ ha := by
    have hmem := touched_of_accepts h ha
    exact ⟨mem_of_storeDigest (hknown _ hmem), hmem⟩

def groupCert (g : Nat) (d : Digest) (signers : List Nat) : ProofSigs :=
  .p1 [(g, signers.map fun r => .signedBy r (.concurrencyControl .commit d g))]

def coveredRun : List Event :=
  [0, 1, 2, 3, 4, 5].flatMap (Event.handle [4] (.phase1 writer false) .commit) ++
  [0, 1, 2, 3, 4, 5].flatMap (Event.handle [5] (.phase1 currentReader false) .commit)

def uncoveredRun : List Event :=
  [0, 1, 2, 3, 4, 5].flatMap (Event.handle [4] (.phase1 writer false) .commit) ++
  [7, 8, 9, 10, 11].flatMap (Event.handle [6] (.phase1 staleReader false) .commit)

theorem serializable_coveredRun : ∃ w, Run.exec (World.step storeReplicas) World.init coveredRun = some w ∧
    Certified storeReplicas w writer ∧ Certified storeReplicas w currentReader ∧
    Serial (fun _ => .genesis) [writer.versioned, currentReader.versioned] := by
  have hm : Run.Meets (step storeReplicas)
      (fun w e => ∀ T ∈ [writer, currentReader], w.proper storeReplicas T (storeReplicas.digestOf T) e)
      init coveredRun := by decide +kernel
  have hany : (Run.exec (step storeReplicas) init coveredRun).any (fun w =>
      (groupCert 0 [4] [0, 1, 2, 3, 4, 5]).sigs.all (genuine storeReplicas w) &&
      (groupCert 0 [5] [0, 1, 2, 3, 4, 5]).sigs.all (genuine storeReplicas w)) = true := by
    decide +kernel
  obtain ⟨w, hw, hgenuine⟩ := Run.exec_of_any hany
  rw [Bool.and_eq_true] at hgenuine
  have hcw : Certified storeReplicas w writer :=
    ⟨groupCert 0 [4] [0, 1, 2, 3, 4, 5], ⟨by decide +kernel, all_eq_true.mp hgenuine.1⟩, by decide, by decide +kernel⟩
  have hcr : Certified storeReplicas w currentReader :=
    ⟨groupCert 0 [5] [0, 1, 2, 3, 4, 5], ⟨by decide +kernel, all_eq_true.mp hgenuine.2⟩, by decide, by decide +kernel⟩
  have hlocal : LocallySerial storeReplicas (storeReplicas.ccParams (fun _ => 0) false) w
      (handled coveredRun) := by
    refine locallySerial_handled hw (by decide +kernel) ?_
    rintro r T W read ⟨hT, hrT⟩ ⟨hW, hrW⟩ hc
    have hstale : ∀ x ∈ touched coveredRun, x.2 ≠ [6] := by decide +kernel
    simp only [mem_cons, not_mem_nil, or_false] at hT hW
    rcases hT with rfl | rfl | rfl
    · cases hc.mem
    · obtain rfl : read = ⟨[9], ⟨20000, 1⟩, false⟩ := mem_singleton.mp hc.mem
      rcases hW with rfl | rfl | rfl
      · exact absurd hc.after (lt_irrefl _)
      · exact absurd hc.before (lt_irrefl _)
      · exact absurd rfl (hstale _ hrW)
    · exact absurd rfl (hstale _ hrT)
  have hcert : ∀ T ∈ [writer, currentReader], Certified storeReplicas w T := by
    simpa using ⟨hcw, hcr⟩
  exact ⟨w, hw, hcw, hcr, (serializable storeReplicas_tolerant (by decide) hm hw hlocal hcert
    (by decide)).2 (by decide) (by decide) (by decide)⟩

theorem uncovered_run : storeReplicas.Tolerant ∧
    ∃ w, Run.exec (World.step storeReplicas) World.init uncoveredRun = some w ∧
      LocallySerial storeReplicas (storeReplicas.ccParams (fun _ => 1) false) w (handled uncoveredRun) ∧
      Certified storeReplicas w writer ∧ Certified storeReplicas w staleReader ∧
      Misses staleReader.versioned writer.versioned [9] .genesis := by
  refine ⟨storeReplicas_tolerant, ?_⟩
  have hany : (Run.exec (step storeReplicas) init uncoveredRun).any (fun w =>
      (groupCert 0 [4] [0, 1, 2, 3, 4, 5]).sigs.all (genuine storeReplicas w) &&
      (groupCert 1 [6] [6, 7, 8, 9, 10, 11]).sigs.all (genuine storeReplicas w)) = true := by
    decide +kernel
  obtain ⟨w, hw, hgenuine⟩ := Run.exec_of_any hany
  rw [Bool.and_eq_true] at hgenuine
  refine ⟨w, hw, locallySerial_handled hw (by decide +kernel) ?_, ?_, ?_, ⟨?_, ?_, ?_, ?_⟩⟩
  · rintro r T W read ⟨hT, hrT⟩ ⟨hW, hrW⟩ hc
    -- the writer is handled in group 0 only, and the reader in group 1
    have hgroups : ∀ x ∈ touched uncoveredRun, (x.2 = [4] → x.1 < 6) ∧ (x.2 = [6] → 6 < x.1) ∧ x.2 ≠ [5] := by
      decide +kernel
    have h₁ := hgroups _ hrT
    have h₂ := hgroups _ hrW
    simp only [mem_cons, not_mem_nil, or_false] at hT hW
    rcases hT with rfl | rfl | rfl
    · cases hc.mem
    · exact absurd rfl h₁.2.2
    · rcases hW with rfl | rfl | rfl
      · exact absurd (h₁.2.1 rfl) (by have := h₂.1 rfl; omega)
      · exact absurd rfl h₂.2.2
      · exact absurd hc.before (lt_irrefl _)
  · exact ⟨groupCert 0 [4] [0, 1, 2, 3, 4, 5], ⟨by decide +kernel, all_eq_true.mp hgenuine.1⟩,
      by decide, by decide +kernel⟩
  · exact ⟨groupCert 1 [6] [6, 7, 8, 9, 10, 11], ⟨by decide +kernel, all_eq_true.mp hgenuine.2⟩,
      by decide, by decide +kernel⟩
  · decide
  · decide
  · decide
  · decide

end Pequin
