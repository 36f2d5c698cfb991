import Pequin.Proof.Validate
import Pequin.Proof.Finality

/-!
# Commit proofs that others accept

A replica that commits a Writeback stores its certificate as a commit proof and forwards it. Everybody else checks the
proof with `ValidateCommittedProof`, which verifies every entry and asks for the exact quorum of every group that is
named. The replica itself has counted its own entry by its own vote, has not looked at entries beyond the quorum, and
has not compared the groups with those of the transaction. The proof validates exactly if it is `Transferable`
(`validates_iff`).
-/

namespace Pequin

open Bool List World

/-- Every group named has exactly the quorum of a fast COMMIT, and the involved ones are named. The entries that `me`
has not checked, its own, and all if there are more groups than needed, are votes of members. (A replica that is a group
of its own may stop at its entry.) -/
structure TransferableP1 (c : Configuration) (d : Digest) (txn : Transaction) (gs : GroupedSignatures) (me : Nat) :
    Prop where
  exact : ∀ p ∈ gs, p.2.length = c.n
  signed : ∀ p ∈ gs, ∀ s ∈ p.2, s.processId = me ∨ txn.involvedGroups.length < gs.length ∨ c.n = 1 →
    isReplicaInGroup c s.processId p.1 = true ∧
      verify s.processId (SignedBody.concurrencyControl .commit d p.1).wire s.signature = true
  covers : ∀ g ∈ txn.involvedGroups, ∃ p ∈ gs, p.1 % 2 ^ 32 = g % 2 ^ 32

/-- Exactly `4f + 1` Phase2 replies, and the own one is signed. -/
structure TransferableP2 (c : Configuration) (d : Digest) (view : Nat) (gs : GroupedSignatures) (me : Nat) :
    Prop where
  exact : ∀ p ∈ gs, p.2.length = c.quorumSize
  signed : ∀ p ∈ gs, ∀ s ∈ p.2, s.processId = me ∨ c.quorumSize = 1 →
    verify s.processId (SignedBody.phase2Decision .commit d p.1 view).wire s.signature = true

def Transferable (c : Configuration) (d : Digest) (proof : CommittedProof) (me : Nat) : Prop :=
  proof.txn.isGenesis = true ∨
  match proof.sigs with
  | .p1 gs => TransferableP1 c d proof.txn gs me
  | .p2 gs view => TransferableP2 c d view gs me
  | .none => False

section Validators

variable {c : Configuration} {d : Digest} {txn : Transaction} {gs : GroupedSignatures}

theorem nodup_of_length_one {α : Type} {l : List α} (h : l.length = 1) : l.Nodup := by
  obtain ⟨a, rfl⟩ := length_eq_one_iff.mp h
  exact nodup_singleton a

theorem nodup_group {p : Nat × List Signature} (hp : p ∈ gs)
    (h : ((gs.flatMap fun q => q.2.map fun s => (q.1, s)).map entryKey).Nodup) :
    (p.2.map Signature.processId).Nodup := by
  rw [map_flatMap, nodup_flatMap] at h
  have hgroup := h.1 p hp
  rw [map_map] at hgroup
  exact List.Nodup.of_map (fun id => (p.1, id)) (by rw [map_map]; exact hgroup)

theorem length_entries {n : Nat} (h : ∀ p ∈ gs, p.2.length = n) :
    (gs.flatMap fun q => q.2.map fun s => (q.1, s)).length = n * gs.length := by
  induction gs with
  | nil => rfl
  | cons p gs ih =>
    obtain ⟨hp, hrest⟩ := forall_mem_cons.mp h
    rw [flatMap_cons, length_append, length_map, hp, ih hrest, length_cons, Nat.mul_succ, Nat.add_comm]

theorem validateP1_iff {me : Nat} {my : Option Result}
    (h : asyncValidateP1Replies c .commit true txn d gs me my = true) :
    validateP1Replies c .commit true txn d gs 0 none = true ↔ TransferableP1 c d txn gs me := by
  have hown : ∀ id, (my.isSome && id == me) = true → id = me := fun id hid =>
    beq_iff_eq.mp (and_eq_true_iff.mp hid).2
  have hentry {p : Nat × List Signature} {s : Signature} (hp : p ∈ gs) (hs : s ∈ p.2) :
      (p.1, s) ∈ gs.flatMap fun q => q.2.map fun s => (q.1, s) := mem_flatMap.mpr ⟨p, hp, mem_map_of_mem hs⟩
  rw [validateP1Replies, and_eq_true, all_eq_true]
  constructor
  · rintro ⟨hgroups, hcov⟩
    simp only [validateP1Group, and_eq_true, beq_iff_eq, all_eq_true] at hgroups
    refine ⟨fun p hp => (hgroups p hp).2, fun p hp s hs _ => by simpa [ccrOf] using (hgroups p hp).1.1 s hs, ?_⟩
    simpa using hcov
  · intro ht
    refine ⟨fun p hp => ?_, by simpa using ht.covers⟩
    have hlen := ht.exact p hp
    simp only [validateP1Group, and_eq_true, beq_iff_eq, all_eq_true, decide_eq_true_eq]
    by_cases hn : c.n = 1
    · refine ⟨⟨fun s hs => ?_, nodup_of_length_one (by rw [length_map, hlen, hn])⟩, hlen⟩
      simpa [ccrOf] using ht.signed p hp s hs (.inr (.inr hn))
    -- the scan has checked that no process is twice in a group, and the entries that are not its own
    have hpass := (passes_of_scanP1Replies hown hn h).1
    refine ⟨⟨fun s hs => ?_, nodup_group hp hpass.fresh.1⟩, hlen⟩
    by_cases hgap : s.processId = me ∨ txn.involvedGroups.length < gs.length
    · simpa [ccrOf] using ht.signed p hp s hs (hgap.imp_right .inl)
    · obtain ⟨hme, hgroups⟩ := not_or.mp hgap
      have hcount := (length_entries ht.exact).trans_le (Nat.mul_le_mul_left c.n (not_lt.mp hgroups))
      have hvalid := valid_of_scanP1Replies hown hn h hcount (hentry hp hs) (by simp [hme])
      simpa [ccrOf] using ⟨hpass.inGroup _ (hentry hp hs), hvalid⟩

theorem validateP2_iff {me view : Nat} {my : Option CommitDecision}
    (h : asyncValidateP2Replies c .commit view txn d gs me my = true) :
    validateP2Replies c .commit view txn d gs 0 none = true ↔ TransferableP2 c d view gs me := by
  unfold asyncValidateP2Replies at h
  unfold validateP2Replies
  split at h
  · rename_i g sigs logGrp _
    simp only [and_eq_true, beq_iff_eq] at h
    obtain ⟨⟨rfl, -⟩, hscan⟩ := h
    simp only [and_eq_true, beq_iff_eq, all_eq_true, decide_eq_true_eq]
    constructor
    · rintro ⟨⟨hall, -⟩, hlen⟩
      refine ⟨by simpa using hlen, fun p hp s hs _ => ?_⟩
      obtain rfl := mem_singleton.mp hp
      simpa using hall s hs
    · intro ht
      have hlen := ht.exact _ mem_cons_self
      by_cases hq : c.quorumSize = 1
      · refine ⟨⟨fun s hs => ?_, nodup_of_length_one (by rw [length_map, hlen, hq])⟩, hlen⟩
        simpa using ht.signed _ mem_cons_self s hs (.inr hq)
      have hown : ∀ s : Signature, (my == some .commit && s.processId == me) = true → s.processId = me :=
        fun s hs => beq_iff_eq.mp (and_eq_true_iff.mp hs).2
      refine ⟨⟨fun s hs => ?_, scanReplies_distinct hown hq hscan⟩, hlen⟩
      by_cases hme : s.processId = me
      · simpa using ht.signed _ mem_cons_self s hs (.inl hme)
      · simpa using valid_of_scanReplies hown hq hscan hlen.le hs (by simp [hme])
  · cases h

theorem validateCommittedProof_iff {srv : Server} {t : Task} {proof : CommittedProof}
    (hacc : t.accepted srv d = true) (hcom : t.commits = some proof) (hsup : t.isSupply = false) :
    validateCommittedProof srv.config proof d = true ↔ Transferable srv.config d proof srv.id := by
  rw [validateCommittedProof, Transferable, or_eq_true]
  refine or_congr_right ?_
  cases t with
  | writebackP1 msg txn sigs my =>
    simp only [Task.commits, Option.ite_none_right_eq_some, Option.some.injEq] at hcom
    obtain ⟨hdec, rfl⟩ := hcom
    rw [Task.accepted, hdec] at hacc
    exact validateP1_iff hacc
  | writebackP2 msg txn sigs view my =>
    simp only [Task.commits, Option.ite_none_right_eq_some, Option.some.injEq] at hcom
    obtain ⟨hdec, rfl⟩ := hcom
    rw [Task.accepted, hdec] at hacc
    exact validateP2_iff hacc
  | writebackConflict msg txn conflict =>
    simp only [Task.commits, Option.ite_none_right_eq_some, Option.some.injEq] at hcom
    obtain ⟨-, rfl⟩ := hcom
    simp
  | supply p => cases hsup
  | _ => cases hcom

end Validators

theorem Node.committed_by_task {srv : Server} {d : Digest} {nd : Node} {inp : Input}
    {proof : CommittedProof} (hopen : nd.state.committed = none)
    (hcom : (nd.step srv d inp).state.committed = some proof) :
    ∃ t, inp.task? nd.state = some t ∧ t.accepted srv d = true ∧ t.commits = some proof := by
  refine Run.Reaches.invariant (P := fun o => ∀ proof, o.committed = some proof →
    ∃ t, inp.task? nd.state = some t ∧ t.accepted srv d = true ∧ t.commits = some proof) ?_
    (fun proof h => ?_) (Node.step_outcome srv d nd inp) proof hcom
  · intro o e o' ho hjust hs proof hp
    obtain ⟨-, rfl⟩ := Outcome.step_eq hs
    cases e with
    | commit p =>
      obtain ⟨-, t, ht, hacc, hcommits, -⟩ := hjust
      exact ⟨t, ht, hacc, hcommits.trans hp⟩
    | check occ exec =>
      refine ho proof ?_
      cases occ <;> cases exec <;> exact hp
    | resolve b =>
      refine ho proof ?_
      rw [OutcomeEvent.next] at hp
      cases hres : o.resolution b with
      | none =>
        rw [hres] at hp
        exact hp
      | some r =>
        rw [hres] at hp
        exact hp
    | _ => exact ho proof hp
  · rw [Node.outcome, TxnState.outcome, hopen] at h
    cases h

section Runs

variable {c : Cluster} {w w' : World} {es : List Event} {e : Event}

theorem filed_of_exec (h : Run.exec (step c) init es = some w) (r : Nat) (d : Digest) :
    Filed (c.server r) d (w r d).state := by
  refine node_invariant (P := fun r d nd => Filed (c.server r) d nd.state)
    (fun _ _ => ⟨nofun, nofun, fun t ht => (by cases ht)⟩) ?_ (Run.meets_true _ _) h r d
  intro w e _ _ _ hf
  have hd : ∀ msg occ, e.input = .message msg occ → msg.digest c.digestOf = e.digest c.digestOf := by
    intro msg occ hinp
    cases e with
    | deliver r' msg' occ' =>
      simp only [Event.input, Input.message.injEq] at hinp
      rw [← hinp.1]
      rfl
    | complete r' d' i occ' => cases hinp
    | wake r' d' b => cases hinp
  exact Filed.act hf hd

/-- The commit proof of a Writeback that a correct replica commits validates everywhere exactly if it is transferable.
-/
theorem validates_iff (h : Run.exec (World.step c) World.init es = some w)
    (hs : World.step c w e = some w') {r : Nat} {d : Digest} {proof : CommittedProof}
    (hopen : (w r d).state.committed = none) (hcom : (w' r d).state.committed = some proof)
    (hwb : e.input.supplies (c.server r) d (w r d).state = false) :
    validateCommittedProof c.config proof (c.digestOf proof.txn) = true ↔
      Transferable c.config (c.digestOf proof.txn) proof (c.server r).id := by
  obtain ⟨-, -, rfl⟩ := step_eq hs
  by_cases hrd : r = e.replica ∧ d = e.digest c.digestOf
  · obtain ⟨rfl, rfl⟩ := hrd
    rw [set_self] at hcom
    obtain ⟨t, ht, hacc, hcommits⟩ := Node.committed_by_task hopen hcom
    have hdigest : c.digestOf proof.txn = e.digest c.digestOf :=
      (filed_of_exec h e.replica _).tasks t (Input.task?_mem ht) proof hcommits
    have hsup : t.isSupply = false := by simpa [Input.supplies, ht, hacc] using hwb
    rw [hdigest]
    exact validateCommittedProof_iff hacc hcommits hsup
  · rw [set_of_ne _ _ hrd, hopen] at hcom
    cases hcom

end Runs

/-! ## A proof that nobody else accepts

All replicas vote COMMIT. In the Writeback for replica 0, the entry of replica 0 itself holds a
signature of the Byzantine replica. Replica 0 compares that entry with its own vote only. -/

def ownEntryCert : GroupedSignatures :=
  [(0, ⟨0, 5, .concurrencyControl .commit [4] 0⟩ ::
    [1, 2, 3, 4, 5].map fun r => .signedBy r (.concurrencyControl .commit [4] 0))]

def ownEntryRun : List Event :=
  [0, 1, 2, 3, 4].flatMap (Event.handle [4] (.phase1 sampleTxn false) .commit) ++
  [.deliver 0 (.writeback ⟨.commit, some [4], none, .p1 ownEntryCert⟩) .commit]

theorem own_entry_run : sixReplicas.Tolerant ∧
    ∃ w w', Run.exec (World.step sixReplicas) World.init ownEntryRun = some w ∧
      World.step sixReplicas w (.complete 0 [4] 0 .commit) = some w' ∧ (w 0 [4]).state.committed = none ∧
      (w' 0 [4]).state.committed = some ⟨sampleTxn, .p1 ownEntryCert⟩ ∧
      validateCommittedProof sixReplicas.config ⟨sampleTxn, .p1 ownEntryCert⟩ [4] = false := by
  refine ⟨sixReplicas_tolerant, ?_⟩
  have hany : (Run.exec (step sixReplicas) init ownEntryRun).any (fun w =>
      (w 0 [4]).state.committed.isNone && (step sixReplicas w (.complete 0 [4] 0 .commit)).any fun w' =>
        (w' 0 [4]).state.committed == some ⟨sampleTxn, .p1 ownEntryCert⟩) = true := by decide +kernel
  obtain ⟨w, hw, hboth⟩ := Run.exec_of_any hany
  rw [and_eq_true, Option.isNone_iff_eq_none, Option.any_eq_true] at hboth
  obtain ⟨hopen, w', hs, hcom⟩ := hboth
  exact ⟨w, w', hw, hs, hopen, beq_iff_eq.mp hcom, by decide +kernel⟩

theorem validates_iff_commitReplies : ∃ w w', Run.exec (World.step sixReplicas) World.init
      (commitReplies ++ [.deliver 0 (commitWriteback (some sampleTxn)) .commit]) = some w ∧
    World.step sixReplicas w (.complete 0 [4] 0 .commit) = some w' ∧
    ∃ proof, (w 0 [4]).state.committed = none ∧ (w' 0 [4]).state.committed = some proof ∧
      Transferable sixReplicas.config [4] proof (sixReplicas.server 0).id := by
  have hany : (Run.exec (step sixReplicas) init
      (commitReplies ++ [.deliver 0 (commitWriteback (some sampleTxn)) .commit])).any (fun w =>
      (w 0 [4]).state.committed.isNone &&
      !(Event.complete 0 [4] 0 .commit).input.supplies (sixReplicas.server 0) [4] (w 0 [4]).state &&
      (step sixReplicas w (.complete 0 [4] 0 .commit)).any fun w' =>
        (w' 0 [4]).state.committed.any fun proof =>
          sixReplicas.digestOf proof.txn == [4] && validateCommittedProof sixReplicas.config proof [4]) = true := by
    decide +kernel
  obtain ⟨w, hw, hall⟩ := Run.exec_of_any hany
  simp only [and_eq_true, Option.isNone_iff_eq_none, Option.any_eq_true, not_eq_true', beq_iff_eq] at hall
  obtain ⟨⟨hopen, hwb⟩, w', hs, proof, hcom, hdigest, hvalid⟩ := hall
  refine ⟨w, w', hw, hs, proof, hopen, hcom, ?_⟩
  have hiff := validates_iff hw hs hopen hcom hwb
  rw [hdigest] at hiff
  exact hiff.mp hvalid

end Pequin
