import Pequin.Model.Cluster
import Pequin.Proof.Scans

/-!
# What an accepted certificate contains

For each validator of `common.cc`, the entries that an accepted certificate must hold: their number, that no replica is
counted twice, and which entries were counted without a signature.
-/

namespace Pequin

open Countdown List

variable {d : Digest} {g myId view : Nat} {c : Configuration} {gs : GroupedSignatures} {dec : CommitDecision}
  {fast : Bool} {txn : Transaction} {my : Option CommitDecision}

theorem verify_iff {id : Nat} {data : Wire} {s : Sig} :
    verify id data s = true ↔ s.signer = id ∧ s.body.wire = data := by
  simp [verify]

theorem Result.toNat_injective : Function.Injective Result.toNat := by
  intro a b h
  cases a <;> cases b <;> first | rfl | cases h

theorem wire_eq_concurrencyControl {b : SignedBody} {r : Result}
    (h : b.wire = (SignedBody.concurrencyControl r d g).wire) : b = .concurrencyControl r d g := by
  cases b with
  | concurrencyControl r' d' g' =>
    simp only [SignedBody.wire, List.cons.injEq, Prod.mk.injEq, WireVal.varint.injEq, WireVal.bytes.injEq,
      true_and, and_true] at h
    rw [Result.toNat_injective h.1, h.2.1, h.2.2]
  | _ => simp [SignedBody.wire] at h

/-- The entries that an accepting scan has counted: `own` without a signature, `signed` with
one. -/
structure Counts (own : Nat → Bool) (ownMatches : Bool) (valid : Nat → Signature → Bool)
    (quorum needed : Nat) (l : List (Nat × Signature)) (seen : List (Nat × Nat)) (skips jobs : List Nat)
    (os ss : List (Nat × Signature)) : Prop where
  mem : ∀ x ∈ os ++ ss, x ∈ l ∧ entryKey x ∉ seen
  nodup : ((os ++ ss).map entryKey).Nodup
  own : ∀ x ∈ os, own x.2.processId = true ∧ ownMatches = true
  signed : ∀ x ∈ ss, valid x.1 x.2 = true
  enough : needed ≤ (groupsReached quorum (os.map Prod.fst ++ skips)
    (ss.map (fun x => x.1 % 2 ^ 32) ++ jobs)).length

section ScanP1

variable {own : Nat → Bool} {ownMatches : Bool} {valid : Nat → Signature → Bool} {quorum needed : Nat}
  {l m ss : List (Nat × Signature)}

theorem Passes.counts (h : Passes c own ownMatches [] m) (hm : m ⊆ l)
    (hss : ss.Sublist (m.filter fun x => !own x.2.processId)) (hvalid : ∀ x ∈ ss, valid x.1 x.2 = true)
    (henough : needed ≤ (complete quorum (ownGroups own m ++ ss.map fun x => x.1 % 2 ^ 32)).length) :
    Counts own ownMatches valid quorum needed l [] [] [] (m.filter fun x => own x.2.processId) ss where
  mem x hx := by
    refine ⟨hm ?_, not_mem_nil⟩
    rcases mem_append.mp hx with hx | hx
    · exact (mem_filter.mp hx).1
    · exact (mem_filter.mp (hss.subset hx)).1
  nodup := by
    have hsub := (List.Sublist.refl (m.filter fun x => own x.2.processId)).append hss
    exact (((filter_append_perm _ m).map entryKey).nodup_iff.mpr h.fresh.1).sublist (hsub.map entryKey)
  own x hx := by
    obtain ⟨hx, hown⟩ := mem_filter.mp hx
    exact ⟨hown, h.own x hx hown⟩
  signed := hvalid
  enough := by
    rw [groupsReached_eq, append_nil, append_nil]
    exact henough

theorem scanP1Replies_sound (h : scanP1Replies c own ownMatches valid quorum needed l [] [] [] = true) :
    ∃ os ss, Counts own ownMatches valid quorum needed l [] [] [] os ss := by
  rcases scanP1Replies_iff.mp h with ⟨pre, x, post, rfl, hpass, hown, hends⟩ | ⟨hpass, -, hle⟩
  · -- the callback runs at once: nothing of the rest is looked at
    have hperm : (ownGroups own (pre ++ [x]) ++ []).Perm (x.1 :: (ownGroups own pre ++ [])) := by
      rw [ownGroups, filter_append, filter_cons, if_pos hown, append_nil, append_nil, map_append]
      exact perm_append_singleton ..
    exact ⟨_, [], hpass.counts (by simp) (nil_sublist _) (by simp)
      (hends.2.symm.trans (complete_perm hperm).length_eq.symm).le⟩
  · rw [append_nil, append_nil] at hle
    refine ⟨_, _, hpass.counts (Subset.refl l) (monotone_filter_right l fun x hx => ?_) (fun x hx => ?_) hle⟩
    · exact (Bool.and_eq_true_iff.mp hx).1
    · exact (Bool.and_eq_true_iff.mp (mem_filter.mp hx).2).2

end ScanP1

def VotesInGroups (c : Configuration) (txn : Transaction) (gs : GroupedSignatures) : Prop :=
  ∀ p ∈ gs, p.1 ∈ txn.involvedGroups ∧ ∀ s ∈ p.2, s.processId / c.n = p.1
  deriving Decidable

/-- `q` replicas of group `g` voted `res`: the certificate has their vote, or it is known (`own`). -/
def VoteQuorum (c : Configuration) (d : Digest) (gs : GroupedSignatures) (own : Nat → Prop)
    (res : Result) (q g : Nat) : Prop :=
  ∃ l : List Signature, (l.map Signature.processId).Nodup ∧ q ≤ l.length ∧
    ∀ s ∈ l, s.processId / c.n = g ∧ s.signature ∈ gs.sigs ∧
      (own s.processId ∨ s.signature = ⟨s.processId, .concurrencyControl res d g⟩)

def Backed (c : Configuration) (txn : Transaction) (d : Digest) (gs : GroupedSignatures)
    (own : Nat → Prop) (q : Nat) : CommitDecision → Prop
  | .commit => ∀ g ∈ txn.involvedGroups, VoteQuorum c d gs own .commit q g
  | .abort => ∃ g ∈ txn.involvedGroups, VoteQuorum c d gs own .abstain q g

theorem mem_sigs_of_mem {p : Nat × List Signature} {s : Signature}
    (hp : p ∈ gs) (hs : s ∈ p.2) : s.signature ∈ gs.sigs :=
  mem_flatMap.mpr ⟨p, hp, mem_map.mpr ⟨s, hs, rfl⟩⟩

theorem Counts.voteQuorum {own : Nat → Bool}
    {ownMatches : Bool} {res : Result} {quorum needed : Nat} {l os ss : List (Nat × Signature)}
    (h : Counts own ownMatches (fun g s => verify s.processId (SignedBody.concurrencyControl res d g).wire s.signature)
      quorum needed l [] [] [] os ss)
    (hl : ∀ x ∈ l, x.1 < 2 ^ 32 ∧ x.2.processId / c.n = x.1 ∧ x.2.signature ∈ gs.sigs)
    (hg : g ∈ complete quorum (os.map Prod.fst ++ ss.map fun x => x.1 % 2 ^ 32)) :
    VoteQuorum c d gs (fun id => own id = true ∧ ownMatches = true) res quorum g := by
  have hmod : ss.map (fun x => x.1 % 2 ^ 32) = ss.map Prod.fst :=
    map_congr_left fun x hx =>
      Nat.mod_eq_of_lt (hl x (h.mem x (mem_append_right _ hx)).1).1
  rw [hmod, ← map_append, mem_complete] at hg
  refine ⟨((os ++ ss).filter fun x => x.1 == g).map Prod.snd, ?_, ?_, ?_⟩
  · have hnd := (h.nodup.sublist (List.Sublist.map entryKey (filter_sublist (p := fun x => x.1 == g))))
    rw [map_map]
    refine List.Nodup.map_on ?_ (List.Nodup.of_map entryKey hnd)
    intro x hx y hy hxy
    have hxg : x.1 = g := by simpa using (mem_filter.mp hx).2
    have hyg : y.1 = g := by simpa using (mem_filter.mp hy).2
    exact inj_on_of_nodup_map hnd hx hy (by simp only [entryKey, hxg, hyg, Prod.mk.injEq, true_and]; exact hxy)
  · rw [length_map, ← countP_eq_length_filter]
    refine hg.2.trans (le_of_eq ?_)
    rw [List.count, countP_map]
    rfl
  · intro s hs
    obtain ⟨x, hx, rfl⟩ := mem_map.mp hs
    obtain ⟨hx, hxg⟩ := mem_filter.mp hx
    rw [beq_iff_eq] at hxg
    obtain ⟨-, hdiv, hsig⟩ := hl x (h.mem x hx).1
    refine ⟨hdiv.trans hxg, hsig, ?_⟩
    rcases mem_append.mp hx with hx | hx
    · exact .inl (h.own x hx)
    · right
      obtain ⟨hsigner, hwire⟩ := verify_iff.mp (h.signed x hx)
      have hbody := wire_eq_concurrencyControl hwire
      rw [← hsigner, ← hxg, ← hbody]

theorem asyncValidateP1Replies_sound {my : Option Result}
    (hgs : VotesInGroups c txn gs) (h32 : ∀ g ∈ txn.involvedGroups, g < 2 ^ 32)
    (h : asyncValidateP1Replies c dec fast txn d gs myId my = true) :
    Backed c txn d gs (fun id => my = some (ccrOf dec) ∧ id = myId) (p1QuorumSize c dec fast) dec := by
  obtain ⟨os, ss, hc⟩ := scanP1Replies_sound h
  have hsub : ∀ p ∈ (if dec = .abort then gs.take 1 else gs), p ∈ gs := by
    intro p hp
    split at hp
    · exact mem_of_mem_take hp
    · exact hp
  have hl : ∀ x ∈ ((if dec = .abort then gs.take 1 else gs).flatMap fun p => p.2.map fun s => (p.1, s)),
      x.1 ∈ txn.involvedGroups ∧ x.2.processId / c.n = x.1 ∧ x.2.signature ∈ gs.sigs := by
    intro x hx
    obtain ⟨p, hp, hx⟩ := mem_flatMap.mp hx
    obtain ⟨s, hs, rfl⟩ := mem_map.mp hx
    obtain ⟨hinv, hmem⟩ := hgs p (hsub p hp)
    exact ⟨hinv, hmem s hs, mem_sigs_of_mem (hsub p hp) hs⟩
  have hquorum : ∀ g ∈ complete (p1QuorumSize c dec fast) (os.map Prod.fst ++ ss.map fun x => x.1 % 2 ^ 32),
      VoteQuorum c d gs (fun id => my = some (ccrOf dec) ∧ id = myId) (ccrOf dec)
        (p1QuorumSize c dec fast) g := by
    intro g hg
    obtain ⟨l, hnd, hlen, hall⟩ :=
      hc.voteQuorum (fun x hx => ⟨h32 _ (hl x hx).1, (hl x hx).2⟩) hg
    refine ⟨l, hnd, hlen, fun s hs => ?_⟩
    obtain ⟨hdiv, hsig, hvote⟩ := hall s hs
    refine ⟨hdiv, hsig, hvote.imp_left fun hown => ?_⟩
    simp only [Bool.and_eq_true, beq_iff_eq] at hown
    exact ⟨hown.2, hown.1.2⟩
  -- the groups reached are involved ones
  have hinv : complete (p1QuorumSize c dec fast) (os.map Prod.fst ++ ss.map fun x => x.1 % 2 ^ 32) ⊆
      txn.involvedGroups := by
    intro g hg
    rcases mem_append.mp (mem_complete.mp hg).1 with hg | hg
    · obtain ⟨x, hx, rfl⟩ := mem_map.mp hg
      exact (hl x (hc.mem x (mem_append_left _ hx)).1).1
    · obtain ⟨x, hx, rfl⟩ := mem_map.mp hg
      have hx' := (hl x (hc.mem x (mem_append_right _ hx)).1).1
      rwa [Nat.mod_eq_of_lt (h32 _ hx')]
  have henough := hc.enough
  rw [groupsReached_eq, append_nil, append_nil] at henough
  cases dec with
  | commit =>
    intro g hg
    -- as many different groups as there are entries: every involved one is among them
    have hperm := (subperm_of_subset (nodup_complete _ _) hinv).perm_of_length_le henough
    exact hquorum g (hperm.mem_iff.mpr hg)
  | abort =>
    obtain ⟨g, hg⟩ := exists_mem_of_length_pos henough
    exact ⟨g, hinv hg, hquorum g hg⟩

theorem validateP1Group_entries {my : Option Result} {sigs : List Signature}
    (h : validateP1Group c dec fast d myId my g sigs = true) : (∀ s ∈ sigs, (my.isSome = true ∧ s.processId = myId) ∨
        verify s.processId (SignedBody.concurrencyControl (ccrOf dec) d g).wire s.signature = true) ∧
      (sigs.map Signature.processId).Nodup ∧ sigs.length = p1QuorumSize c dec fast := by
  simp only [validateP1Group, Bool.and_eq_true, all_eq_true, decide_eq_true_eq, beq_iff_eq] at h
  refine ⟨fun s hs => ?_, h.1.2, h.2⟩
  have hs' := (h.1.1 s hs).2
  by_cases hown : my.isSome = true ∧ s.processId = myId
  · exact .inl hown
  · rw [if_neg hown] at hs'
    exact .inr hs'

theorem validateP1Replies_sound
    (hgs : VotesInGroups c txn gs) (hne : gs ≠ []) (h32 : ∀ g ∈ txn.involvedGroups, g < 2 ^ 32)
    (h : validateP1Replies c dec fast txn d gs myId none = true) :
    Backed c txn d gs (fun _ => False) (p1QuorumSize c dec fast) dec := by
  simp only [validateP1Replies, Bool.and_eq_true, all_eq_true, Bool.or_eq_true, beq_iff_eq] at h
  have hquorum : ∀ p ∈ gs, VoteQuorum c d gs (fun _ => False) (ccrOf dec) (p1QuorumSize c dec fast) p.1 := by
    intro p hp
    obtain ⟨hsig, hnd, hlen⟩ := validateP1Group_entries (h.1 p hp)
    refine ⟨p.2, hnd, hlen.ge, fun s hs => ⟨(hgs p hp).2 s hs, mem_sigs_of_mem hp hs, .inr ?_⟩⟩
    obtain ⟨hsigner, hwire⟩ := verify_iff.mp ((hsig s hs).resolve_left fun h => Bool.false_ne_true h.1)
    rw [← hsigner, ← wire_eq_concurrencyControl hwire]
  cases dec with
  | commit =>
    intro g hg
    have hcontains := h.2.resolve_left (by decide) g hg
    rw [contains_iff_mem] at hcontains
    obtain ⟨p, hp, hpg⟩ := mem_map.mp hcontains
    rw [Nat.mod_eq_of_lt (h32 _ (hgs p hp).1), Nat.mod_eq_of_lt (h32 _ hg)] at hpg
    exact hpg ▸ hquorum p hp
  | abort =>
    obtain ⟨p, hp⟩ := exists_mem_of_ne_nil gs hne
    exact ⟨p.1, (hgs p hp).1, hquorum p hp⟩

/-- `q` entries of different replicas, out of those in `S`. -/
def Distinct {α : Type} (pid : α → Nat) (S : α → Prop) (q : Nat) : Prop :=
  ∃ l : List α, (∀ e ∈ l, S e) ∧ (l.map pid).Nodup ∧ q ≤ l.length

theorem asyncValidateP2Replies_sound (h : asyncValidateP2Replies c dec view txn d gs myId my = true) :
    Distinct Signature.processId (fun s => ∃ p ∈ gs, s ∈ p.2) c.quorumSize := by
  unfold asyncValidateP2Replies at h
  split at h
  · simp only [Bool.and_eq_true] at h
    obtain ⟨l, hl, hnd, hq⟩ := scanReplies_sound h.2
    exact ⟨l, fun s hs => ⟨_, mem_singleton_self _, (hl s hs).1⟩, hnd, by omega⟩
  · cases h

theorem validateP2Replies_sound (h : validateP2Replies c dec view txn d gs myId my = true) :
    Distinct Signature.processId (fun s => ∃ p ∈ gs, s ∈ p.2) c.quorumSize := by
  unfold validateP2Replies at h
  split at h
  · rename_i sigs _ _ _
    simp only [Bool.and_eq_true, decide_eq_true_eq, beq_iff_eq] at h
    exact ⟨_, fun s hs => ⟨_, mem_singleton_self _, hs⟩, h.1.2, h.2.ge⟩
  · cases h

theorem asyncValidateFBDecision_sound {sigs : List Signature}
    (h : asyncValidateFBDecision c dec view txn d sigs myId my = true) :
    Distinct Signature.processId (fun s => s ∈ sigs) (2 * c.f + 1) := by
  unfold asyncValidateFBDecision at h
  split at h
  · obtain ⟨l, hl, hnd, hq⟩ := scanReplies_sound h
    exact ⟨l, fun s hs => (hl s hs).1, hnd, by omega⟩
  · cases h

theorem asyncValidateFBP2Replies_sound {replies : List SignedMessage}
    (h : asyncValidateFBP2Replies c dec txn d replies myId my = true) :
    Distinct SignedMessage.processId (fun m => m ∈ replies ∧ m.data.decision 1 = dec ∧ m.data.bytes 2 = d ∧
      (my = some dec ∧ m.processId = myId ∨ m.signature.signer = m.processId ∧ m.signature.body.wire = m.data))
      (c.f + 1) := by
  unfold asyncValidateFBP2Replies at h
  split at h
  · simp only [Bool.and_eq_true] at h
    obtain ⟨l, hl, hnd, hq⟩ := scanReplies_sound h.2
    refine ⟨l, fun m hm => ?_, hnd, by omega⟩
    obtain ⟨hmem, hok, hcounts⟩ := hl m hm
    simp only [Bool.and_eq_true, beq_iff_eq] at hok hcounts
    exact ⟨hmem, hok.1.1, hok.1.2, hcounts.imp_right verify_iff.mp⟩
  · cases h

end Pequin
