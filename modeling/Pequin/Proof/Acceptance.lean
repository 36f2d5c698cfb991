import Pequin.Proof.Validate

/-!
# Certificates that every replica accepts

The validators of a certificate reject it as soon as one entry does not verify against the message they rebuild. What
they need is an exact quorum of distinct replicas in every group, each of which has signed that very message, and an
own vote of the validating replica that is the one it is listed with.
-/

namespace Pequin

open Bool List

variable {c : Configuration} {dec : CommitDecision} {txn : Transaction} {d : Digest} {id : Nat}

/-- The vote of a replica of the group, signed for the transaction and the group. -/
def Signature.Votes (c : Configuration) (group : Nat) (d : Digest) (r : Result) (s : Signature) : Prop :=
  isReplicaInGroup c s.processId group = true ∧
    verify s.processId (SignedBody.concurrencyControl r d group).wire s.signature = true

/-- The votes of one group: exactly a quorum of distinct replicas. -/
structure GroupVotes (c : Configuration) (d : Digest) (r : Result) (quorum group : Nat)
    (sigs : List Signature) : Prop where
  votes : ∀ s ∈ sigs, s.Votes c group d r
  nodup : (sigs.map Signature.processId).Nodup
  length : sigs.length = quorum

/-- The groups that a decision to commit needs. -/
structure Covers (txn : Transaction) (groups : List Nat) : Prop where
  nonempty : txn.involvedGroups ≠ []
  nodup : txn.involvedGroups.Nodup
  small : ∀ g ∈ txn.involvedGroups, g < 2 ^ 32
  mem : ∀ g ∈ txn.involvedGroups, g ∈ groups

/-- A vote certificate that leaves a validator nothing to reject. -/
structure P1Cert (c : Configuration) (dec : CommitDecision) (fast : Bool) (txn : Transaction) (d : Digest)
    (gs : GroupedSignatures) : Prop where
  pos : 0 < p1QuorumSize c dec fast
  nonempty : gs ≠ []
  groups : (gs.map Prod.fst).Nodup
  small : ∀ p ∈ gs, p.1 < 2 ^ 32
  votes : ∀ p ∈ gs, GroupVotes c d (ccrOf dec) (p1QuorumSize c dec fast) p.1 p.2
  covers : dec = .commit → Covers txn (gs.map Prod.fst)

/-- If the replica is listed in the certificate, its vote on record is the one it is listed
with. -/
def OwnVote (id : Nat) (my : Option Result) (r : Result) (gs : GroupedSignatures) : Prop :=
  my = none ∨ my = some r ∨ ∀ p ∈ gs, ∀ s ∈ p.2, s.processId ≠ id

namespace P1Cert

variable {fast : Bool} {gs gs' : GroupedSignatures} {my : Option Result}

section

variable (h : P1Cert c dec fast txn d gs)
include h

theorem perm (hp : gs'.Perm gs) : P1Cert c dec fast txn d gs' where
  pos := h.pos
  nonempty he := h.nonempty (perm_nil.mp (he ▸ hp.symm))
  groups := (hp.map Prod.fst).nodup_iff.mpr h.groups
  small p hm := h.small p (hp.mem_iff.mp hm)
  votes p hm := h.votes p (hp.mem_iff.mp hm)
  covers hd :=
    { h.covers hd with mem := fun g hg => (hp.map Prod.fst).mem_iff.mpr ((h.covers hd).mem g hg) }

theorem validateP1Group (hown : OwnVote id my (ccrOf dec) gs) {p : Nat × List Signature} (hp : p ∈ gs) :
    validateP1Group c dec fast d id my p.1 p.2 = true := by
  obtain ⟨hvotes, hnd, hlen⟩ := h.votes p hp
  rw [Pequin.validateP1Group, Bool.and_eq_true, Bool.and_eq_true, decide_eq_true_eq, beq_iff_eq]
  refine ⟨⟨all_eq_true.mpr fun s hs => ?_, hnd⟩, hlen⟩
  obtain ⟨hgroup, hverify⟩ := hvotes s hs
  rw [hgroup, Bool.true_and]
  split
  · rename_i hme
    obtain ⟨hsome, hid⟩ := and_eq_true_iff.mp hme
    rcases hown with rfl | rfl | hown
    · cases hsome
    · exact beq_self_eq_true _
    · exact absurd (beq_iff_eq.mp hid) (hown p hp s hs)
  · exact hverify

theorem validateP1Replies (hown : OwnVote id my (ccrOf dec) gs) :
    validateP1Replies c dec fast txn d gs id my = true := by
  rw [Pequin.validateP1Replies, Bool.and_eq_true]
  refine ⟨all_eq_true.mpr fun p hp => h.validateP1Group hown hp, ?_⟩
  cases dec with
  | abort => rfl
  | commit =>
    refine all_eq_true.mpr fun g hg => ?_
    obtain ⟨p, hp, rfl⟩ := mem_map.mp ((h.covers rfl).mem g hg)
    exact contains_iff_mem.mpr (mem_map_of_mem hp)

theorem nodup_entries : (gs.entries.map entryKey).Nodup := by
  have hvotes := h.votes
  have hgroups := h.groups
  clear h
  induction gs with
  | nil => exact nodup_nil
  | cons p gs ih =>
    rw [map_cons, nodup_cons] at hgroups
    have hrest := ih (fun q hq => hvotes q (mem_cons_of_mem _ hq)) hgroups.2
    rw [GroupedSignatures.entries, flatMap_cons, map_append, nodup_append]
    refine ⟨?_, hrest, fun k hk k' hk' he => ?_⟩
    · rw [map_map]
      have hnd := (hvotes p mem_cons_self).nodup
      refine List.Nodup.of_map Prod.snd ?_
      rwa [map_map]
    · subst he
      obtain ⟨x, hx, rfl⟩ := mem_map.mp hk
      obtain ⟨s, hs, rfl⟩ := mem_map.mp hx
      obtain ⟨y, hy, hkey⟩ := mem_map.mp hk'
      obtain ⟨q, hq, hyq⟩ := mem_flatMap.mp hy
      obtain ⟨s', hs', rfl⟩ := mem_map.mp hyq
      have hfst : q.1 = p.1 := congrArg (fun k : Nat × Nat => k.1) hkey
      exact hgroups.1 (hfst ▸ mem_map_of_mem hq)

theorem quorum_le_count {p : Nat × List Signature} (hp : p ∈ gs) :
    p1QuorumSize c dec fast ≤ (gs.entries.map Prod.fst).count p.1 := by
  obtain ⟨as, bs, rfl⟩ := append_of_mem hp
  have hlen := (h.votes p hp).length
  have hself : ((p.2.map fun s => (p.1, s)).map Prod.fst).count p.1 = p.2.length := by
    rw [map_map, count_eq_length.mpr, length_map]
    intro g hg
    obtain ⟨s, -, rfl⟩ := mem_map.mp hg
    rfl
  rw [GroupedSignatures.entries, flatMap_append, flatMap_cons, map_append, map_append,
    count_append, count_append, hself]
  omega

theorem scan (hown : OwnVote id my (ccrOf dec) gs) {G : List Nat}
    (hG : G.Nodup) (hne : G ≠ []) (hmem : ∀ g ∈ G, g ∈ gs.map Prod.fst) :
    scanP1Replies c (fun i => my.isSome && i == id) (my == some (ccrOf dec))
      (fun g s => verify s.processId (SignedBody.concurrencyControl (ccrOf dec) d g).wire s.signature)
      (p1QuorumSize c dec fast) G.length gs.entries [] [] [] = true := by
  refine scanP1Replies_complete h.pos hG hne (fun x hx => ?_) h.nodup_entries fun g hg => ?_
  · obtain ⟨p, hp, hxp⟩ := mem_flatMap.mp hx
    obtain ⟨s, hs, rfl⟩ := mem_map.mp hxp
    obtain ⟨hgroup, hverify⟩ := (h.votes p hp).votes s hs
    refine ⟨hgroup, h.small p hp, fun ho => ?_, fun _ => hverify⟩
    obtain ⟨hsome, hid⟩ := and_eq_true_iff.mp ho
    rcases hown with rfl | rfl | hown
    · cases hsome
    · exact beq_self_eq_true _
    · exact absurd (beq_iff_eq.mp hid) (hown p hp s hs)
  · obtain ⟨p, hp, rfl⟩ := mem_map.mp (hmem g hg)
    exact h.quorum_le_count hp

theorem asyncValidateP1Replies (hown : OwnVote id my (ccrOf dec) gs) :
    asyncValidateP1Replies c dec fast txn d gs id my = true := by
  cases dec with
  | commit =>
    have hcov := h.covers rfl
    exact h.scan hown hcov.nodup hcov.nonempty hcov.mem
  | abort =>
    -- only the first group is looked at
    cases gs with
    | nil => exact absurd rfl h.nonempty
    | cons p gs =>
      have hfirst : P1Cert c .abort fast txn d [p] :=
        { pos := h.pos
          nonempty := cons_ne_nil _ _
          groups := nodup_singleton _
          small := fun q hq => h.small q (mem_singleton.mp hq ▸ mem_cons_self)
          votes := fun q hq => h.votes q (mem_singleton.mp hq ▸ mem_cons_self)
          covers := nofun }
      refine hfirst.scan (hown.imp_right fun ho => ho.imp_right fun ho q hq => ?_)
        (nodup_singleton p.1) (cons_ne_nil _ _) fun g hg => hg
      exact ho q (mem_singleton.mp hq ▸ mem_cons_self)

end

/-- What `ValidateP1Replies` leaves open: groups listed once and not cut to 32 bits, and involved once. -/
theorem of_validate (hpos : 0 < p1QuorumSize c .commit fast)
    (h : Pequin.validateP1Replies c .commit fast txn d gs id none = true)
    (hgroups : (gs.map Prod.fst).Nodup) (hsmall : ∀ p ∈ gs, p.1 < 2 ^ 32)
    (hcov : Covers txn txn.involvedGroups) : P1Cert c .commit fast txn d gs := by
  rw [Pequin.validateP1Replies, Bool.and_eq_true] at h
  obtain ⟨hvotes, hcovers⟩ := h
  have hmem : ∀ g ∈ txn.involvedGroups, g ∈ gs.map Prod.fst := by
    intro g hg
    have hc := all_eq_true.mp hcovers g hg
    obtain ⟨p, hp, hpg⟩ := mem_map.mp (contains_iff_mem.mp hc)
    rw [Nat.mod_eq_of_lt (hsmall p hp), Nat.mod_eq_of_lt (hcov.small g hg)] at hpg
    exact hpg ▸ mem_map_of_mem hp
  refine ⟨hpos, fun he => ?_, hgroups, hsmall, fun p hp => ?_, fun _ => { hcov with mem := hmem }⟩
  · obtain ⟨g, hg⟩ := exists_mem_of_ne_nil _ hcov.nonempty
    have := hmem g hg
    rw [he] at this
    cases this
  · have hp := all_eq_true.mp hvotes p hp
    rw [Pequin.validateP1Group, Bool.and_eq_true, Bool.and_eq_true, decide_eq_true_eq, beq_iff_eq] at hp
    obtain ⟨⟨hall, hnd⟩, hlen⟩ := hp
    refine ⟨fun s hs => ?_, hnd, hlen⟩
    have hs := all_eq_true.mp hall s hs
    rwa [Bool.and_eq_true] at hs

end P1Cert

/-- A decision certificate that leaves a validator nothing to reject. -/
structure P2Cert (c : Configuration) (dec : CommitDecision) (view : Nat) (d : Digest) (logGrp : Nat)
    (sigs : List Signature) : Prop where
  members : ∀ s ∈ sigs, isReplicaInGroup c s.processId logGrp = true
  signed : ∀ s ∈ sigs, verify s.processId (SignedBody.phase2Decision dec d logGrp view).wire s.signature = true
  nodup : (sigs.map Signature.processId).Nodup
  length : sigs.length = c.quorumSize

/-- If the replica is listed in the certificate, its decision on record is the one it is listed
with. -/
def OwnDecision (id : Nat) (my : Option CommitDecision) (dec : CommitDecision) (gs : GroupedSignatures) : Prop :=
  my = none ∨ my = some dec ∨ ∀ p ∈ gs, ∀ s ∈ p.2, s.processId ≠ id

namespace P2Cert

variable {view logGrp : Nat} {sigs : List Signature} {my : Option CommitDecision}

theorem validateP2Replies (h : P2Cert c dec view d logGrp sigs) (hlog : getLogGroup txn d = some logGrp)
    (hown : OwnDecision id my dec [(logGrp, sigs)]) :
    validateP2Replies c dec view txn d [(logGrp, sigs)] id my = true := by
  unfold Pequin.validateP2Replies
  simp only [hlog, Bool.and_eq_true, decide_eq_true_eq, beq_iff_eq]
  refine ⟨⟨all_eq_true.mpr fun s hs => ?_, h.nodup⟩, h.length⟩
  split
  · rename_i hme
    rcases hown with rfl | rfl | hown
    · cases hme.1
    · exact beq_self_eq_true _
    · exact absurd hme.2 (hown _ (mem_singleton_self _) s hs)
  · exact h.signed s hs

theorem asyncValidateP2Replies (h : P2Cert c dec view d logGrp sigs) (hlog : getLogGroup txn d = some logGrp) :
    asyncValidateP2Replies c dec view txn d [(logGrp, sigs)] id my = true := by
  have hfive : (c.f != 1 || sigs.length == 5) = true := by
    by_cases hf : c.f = 1
    · simp [h.length, Configuration.quorumSize, hf]
    · simp [hf]
  unfold Pequin.asyncValidateP2Replies
  simp only [hlog, beq_self_eq_true, Bool.true_and, hfive]
  exact scanReplies_complete (fun s hs => ⟨h.members s hs, fun _ => h.signed s hs⟩) h.nodup h.length.ge

end P2Cert

/-- What the validator of a commit proof on the calling thread leaves open. -/
def CommittedProof.plain (c : Configuration) (digestOf : Transaction → Digest) (proof : CommittedProof) : Bool :=
  match proof.sigs with
  | .p1 gs => decide ((gs.map Prod.fst).Nodup ∧ (∀ p ∈ gs, p.1 < 2 ^ 32) ∧
      proof.txn.involvedGroups ≠ [] ∧ proof.txn.involvedGroups.Nodup ∧
      ∀ g ∈ proof.txn.involvedGroups, g < 2 ^ 32)
  | .p2 gs _ => gs.all fun p => getLogGroup proof.txn (digestOf proof.txn) == some p.1 &&
      p.2.all fun s => isReplicaInGroup c s.processId p.1
  | .none => true

section

variable {digestOf : Transaction → Digest} {proof : CommittedProof} (hn : 0 < c.n)
  (hp : proof.plain c digestOf = true)
include hn hp

theorem asyncValidateCommittedProof_of_plain (h : validateCommittedProof c proof (digestOf proof.txn) = true) :
    asyncValidateCommittedProof c proof (digestOf proof.txn) = true := by
  unfold validateCommittedProof at h
  unfold asyncValidateCommittedProof
  rw [or_eq_true] at h ⊢
  refine h.imp_right fun h => ?_
  unfold CommittedProof.plain at hp
  split at h
  · rename_i gs hsigs
    rw [hsigs] at hp
    obtain ⟨hgroups, hsmall, hne, hnd, hsmall'⟩ := of_decide_eq_true hp
    have hpos : 0 < p1QuorumSize c .commit true := hn
    have hcert := P1Cert.of_validate hpos h hgroups hsmall ⟨hne, hnd, hsmall', fun _ hg => hg⟩
    exact hcert.asyncValidateP1Replies (.inl rfl)
  · rename_i gs view hsigs
    rw [hsigs] at hp
    unfold validateP2Replies at h
    split at h
    · rename_i g sigs logGrp hlog
      simp only [all_cons, all_nil, Bool.and_true, Bool.and_eq_true, beq_iff_eq, hlog, Option.some.injEq] at hp
      obtain ⟨rfl, hmembers⟩ := hp
      simp only [Option.isSome_none, Bool.false_and, Bool.false_eq_true, ↓reduceIte, Bool.and_eq_true,
        decide_eq_true_eq, beq_iff_eq] at h
      obtain ⟨⟨hsigned, hnodup⟩, hlen⟩ := h
      have hcert : P2Cert c .commit view (digestOf proof.txn) logGrp sigs :=
        ⟨all_eq_true.mp hmembers, all_eq_true.mp hsigned, hnodup, hlen⟩
      exact hcert.asyncValidateP2Replies hlog
    · cases h
  · cases h

/-- A plain proof that was accepted on the calling thread is accepted by the thread pool too. -/
theorem asyncValidateCommittedConflict_of_plain
    (h : validateCommittedConflict c proof (digestOf proof.txn) txn = true) :
    asyncValidateCommittedConflict c proof (digestOf proof.txn) txn = true := by
  rw [validateCommittedConflict, Bool.and_eq_true] at h
  rw [asyncValidateCommittedConflict, Bool.and_eq_true]
  exact ⟨h.1, asyncValidateCommittedProof_of_plain hn hp h.2⟩

end

end Pequin
