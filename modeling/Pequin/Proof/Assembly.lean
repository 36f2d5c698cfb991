import Pequin.Model.Client
import Pequin.Proof.Acceptance
import Pequin.Proof.CollectVotes

/-!
# Combining the groups

A client takes over the votes of one group after the other (`Phase1CallbackProcessing`), trims each to the quorum that
the validators ask for, and keeps one group if it aborts.
-/

namespace Pequin

open Bool GroupedSignatures List PendingRequest Signature

/-- What verifies as a vote names the group, and a conflict is one that every validator accepts. -/
def Phase1Reply.plain (c : Configuration) (digestOf : Transaction → Digest) (group : Nat)
    (reply : Phase1Reply) : Bool :=
  (reply.signedCC.all fun m => !verify m.processId m.data m.signature || match m.signature.body with
    | .concurrencyControl _ _ g => g == group
    | _ => true) &&
  reply.cc.all fun cc => cc.ccr != .abort || cc.committedConflict.plain c digestOf

/-- What verifies as a decision is one for the transaction, at the log group. -/
def Phase2Reply.plain (txn : Transaction) (d : Digest) (group : Nat) (reply : Phase2Reply) : Bool :=
  reply.signedP2Decision.all fun m => !verify m.processId m.data m.signature || match m.signature.body with
    | .phase2Decision _ d' g _ => d' == d && g == group && getLogGroup txn d == some group
    | _ => false

def Signature.Logs (c : Configuration) (txn : Transaction) (d : Digest) (group : Nat)
    (dec : CommitDecision) (view : Nat) (s : Signature) : Prop :=
  getLogGroup txn d = some group ∧ isReplicaInGroup c s.processId group = true ∧
    verify s.processId (SignedBody.phase2Decision dec d group view).wire s.signature = true

variable {c : Configuration} {digestOf : Transaction → Digest} {txn : Transaction} {d : Digest} {group : Nat}
  {O : Nat → Prop} {req : PendingRequest} {p1 : PendingPhase1} {fallback : Bool}

theorem parseCC_wire (r : Result) (g : Nat) :
    parseCC (SignedBody.concurrencyControl r d g).wire = some ⟨r, d, .empty⟩ := by
  cases r <;> rfl

theorem Phase1Reply.brings_of_plain {reply : Phase1Reply} (h : reply.plain c digestOf group = true) :
    reply.Brings c group d (Votes c group d) (fun x => x.plain c digestOf = true) := by
  rw [Phase1Reply.plain, and_eq_true] at h
  obtain ⟨hsigned, hunsigned⟩ := h
  refine ⟨fun m cc hm hgroup hverify hparse hd => ?_, fun cc hcc hccr => ?_⟩
  · obtain ⟨hsigner, hwire⟩ := verify_iff.mp hverify
    rw [hm, Option.all_some, hverify, Bool.not_true, Bool.false_or] at hsigned
    rw [← hwire] at hparse
    -- only a vote parses as a vote
    cases hbody : m.signature.body with
    | concurrencyControl r d' g =>
      rw [hbody] at hsigned hparse
      rw [parseCC_wire, Option.some.injEq] at hparse
      subst hparse
      rw [beq_iff_eq] at hsigned
      subst hsigned
      subst hd
      refine ⟨⟨hgroup, ?_⟩, rfl⟩
      rw [← hbody, hwire]
      exact hverify
    | phase2Decision _ _ _ _ | electMessage _ _ _ _ | currentView _ _ _ =>
      rw [hbody] at hparse
      cases hparse
  · rw [hcc, Option.all_some, hccr] at hunsigned
    simpa using hunsigned

theorem Phase2Reply.brings_of_plain {reply : Phase2Reply} (h : reply.plain txn d group = true) :
    reply.Brings c group (Signature.Logs c txn d group) := by
  intro m dec view hv
  obtain ⟨hm, hgroup, hverify, hparse⟩ := verifiedP2Decision_eq_some hv
  obtain ⟨hsigner, hwire⟩ := verify_iff.mp hverify
  rw [Phase2Reply.plain, hm, Option.all_some, hverify, Bool.not_true, Bool.false_or] at h
  split at h
  · rename_i dec' d' g view' hbody
    simp only [and_eq_true, beq_iff_eq] at h
    obtain ⟨⟨rfl, rfl⟩, hlog⟩ := h
    rw [← hwire, hbody, parsePhase2Decision_wire] at hparse
    cases hparse
    refine ⟨hlog, hgroup, ?_⟩
    show verify m.processId (SignedBody.phase2Decision dec d' g view').wire m.signature = true
    rw [← hbody, hwire]
    exact hverify
  · cases h

namespace GroupedSignatures

variable {gs : GroupedSignatures} {g : Nat} {sigs : List Signature} {q : Nat}

theorem set_of_notMem (h : g ∉ gs.map Prod.fst) : gs.set g sigs = gs ++ [(g, sigs)] := by
  rw [set, filter_eq_self.mpr]
  intro p hp
  simpa using fun he : p.1 = g => h (he ▸ mem_map_of_mem hp)

theorem only_set : (gs.set g sigs).only (some g) = [(g, sigs)] := by
  rw [set, only, filter_append, filter_filter, filter_eq_nil_iff.mpr]
  · simp
  · intro p _
    simp

@[simp] theorem map_fst_trim : (gs.trim q).map Prod.fst = gs.map Prod.fst := by
  rw [trim, map_map]
  rfl

theorem trim_trim : (gs.trim q).trim q = gs.trim q := by
  rw [trim, trim, map_map]
  refine map_congr_left fun p _ => ?_
  simp [take_take]

theorem only_trim (o : Option Nat) : ((gs.only o).trim q).only o = (gs.only o).trim q := by
  rw [only, filter_eq_self]
  intro p hp
  obtain ⟨p', hp', rfl⟩ := mem_map.mp hp
  exact (mem_filter.mp hp').2

end GroupedSignatures

theorem PendingRequest.phase2Processing_idem (c : Configuration) (req : PendingRequest) :
    (req.phase2Processing c).phase2Processing c = req.phase2Processing c := by
  unfold phase2Processing
  cases req.decision with
  | commit => simp only [trim_trim]
  | abort => simp only [only_trim, trim_trim]

/-- The votes of a group that commits. -/
structure CommitVotes (c : Configuration) (d : Digest) (fast : Bool) (group : Nat) (sigs : List Signature) : Prop where
  votes : ∀ s ∈ sigs, s.Votes c group d .commit
  nodup : (sigs.map Signature.processId).Nodup
  length : c.slowCommitQuorumSize ≤ sigs.length
  full : fast = true → sigs.length = c.n

/-- The request while groups are still to report. `O` holds of the groups that may report. -/
structure PendingRequest.Waiting (c : Configuration) (txn : Transaction) (d : Digest) (fallback : Bool)
    (O : Nat → Prop) (req : PendingRequest) : Prop where
  groups : (req.p1ReplySigsGrouped.map Prod.fst).Nodup
  involved : ∀ p ∈ req.p1ReplySigsGrouped, p.1 ∈ txn.involvedGroups
  votes : ∀ p ∈ req.p1ReplySigsGrouped, CommitVotes c d req.fast p.1 p.2
  outstanding : req.outstandingPhase1s + req.p1ReplySigsGrouped.length = txn.involvedGroups.length
  reported : ∀ g ∈ req.p1ReplySigsGrouped.map Prod.fst, ¬ O g
  /-- In a fallback another decision may have come in, from a group that will not report. -/
  decision : req.decision = .commit ∨
    fallback = true ∧ ∃ g ∈ txn.involvedGroups, g ∉ req.p1ReplySigsGrouped.map Prod.fst ∧ ¬ O g
  conflict : req.conflict = none

section Callback

variable {O' : Nat → Prop}

theorem groupVotes_take {r : Result} {heard : List Nat} {sigs : List Signature} {q : Nat}
    (h : Tally.Kept processId (Votes c group d r) heard sigs) (hq : q ≤ sigs.length) :
    GroupVotes c d r q group (sigs.take q) where
  votes s hs := h.proper s (mem_of_mem_take hs)
  nodup := by
    rw [map_take]
    exact h.nodup.sublist (take_sublist _ _)
  length := by rw [length_take, Nat.min_eq_left hq]

theorem P1Cert.single {fast : Bool} {heard : List Nat} {sigs : List Signature} (hsmall : group < 2 ^ 32)
    (h : Tally.Kept processId (Votes c group d .abstain) heard sigs) (hq : p1QuorumSize c .abort fast ≤ sigs.length) :
    P1Cert c .abort fast txn d [(group, sigs.take (p1QuorumSize c .abort fast))] where
  pos := by cases fast <;> exact Nat.succ_pos _
  nonempty := cons_ne_nil _ _
  groups := nodup_singleton _
  small p hp := mem_singleton.mp hp ▸ hsmall
  votes p hp := by
    rw [mem_singleton.mp hp]
    exact groupVotes_take h hq
  covers hd := by cases hd

namespace PendingRequest.Waiting

theorem new : Waiting c txn d fallback O { outstandingPhase1s := txn.involvedGroups.length } where
  groups := nodup_nil
  involved _ hp := by cases hp
  votes _ hp := by cases hp
  outstanding := rfl
  reported _ hg := by cases hg
  decision := .inl rfl
  conflict := rfl

theorem mono (h : req.Waiting c txn d fallback O) (hO : ∀ g, O' g → O g) : req.Waiting c txn d fallback O' :=
  { h with
    reported := fun g hg ho => h.reported g hg (hO g ho)
    decision := h.decision.imp_right fun ⟨hf, g, hg, hne, ho⟩ => ⟨hf, g, hg, hne, fun ho' => ho (hO g ho')⟩ }

theorem commit (hn : c.n = 5 * c.f + 1) (h : req.Waiting c txn d fallback O)
    (hgroup : group ∈ txn.involvedGroups) (ho : O group) (hO : ∀ g, O' g → O g ∧ g ≠ group)
    (hp : p1.Decided c digestOf txn (Votes c group d) fun x => x.plain c digestOf = true)
    (hdec : p1.decision = .commit) : (req.phase1CallbackProcessing group p1).Waiting c txn d fallback O' := by
  have hnew : group ∉ req.p1ReplySigsGrouped.map Prod.fst := fun hm => h.reported group hm ho
  have hgroups : ((req.p1ReplySigsGrouped ++ [(group, p1.p1ReplySigs .commit)]).map Prod.fst).Nodup := by
    rw [map_append, map_singleton, nodup_append]
    refine ⟨h.groups, nodup_singleton _, fun g hg g' hg' he => hnew ?_⟩
    have hgg : g = group := he.trans (mem_singleton.mp hg')
    exact hgg ▸ hg
  have hinvolved : ∀ p ∈ req.p1ReplySigsGrouped ++ [(group, p1.p1ReplySigs .commit)], p.1 ∈ txn.involvedGroups := by
    intro p hp
    rcases mem_append.mp hp with hp | hp
    · exact h.involved p hp
    · exact mem_singleton.mp hp ▸ hgroup
  have hlen : req.p1ReplySigsGrouped.length + 1 ≤ txn.involvedGroups.length := by
    have := (subperm_of_subset hgroups fun g hg => by
      obtain ⟨p, hp, rfl⟩ := mem_map.mp hg
      exact hinvolved p hp).length_le
    simpa using this
  have heq : req.phase1CallbackProcessing group p1 = { req with
        p1ReplySigsGrouped := req.p1ReplySigsGrouped ++ [(group, p1.p1ReplySigs .commit)]
        fast := req.fast && p1.fast
        outstandingPhase1s := req.outstandingPhase1s - 1 } := by
    unfold phase1CallbackProcessing takeSigs
    simp only [hdec, set_of_notMem hnew]
  rw [heq]
  refine ⟨hgroups, hinvolved, fun p hmem => ?_, ?_, fun g hg ho' => ?_, ?_, h.conflict⟩
  · rcases mem_append.mp hmem with hp' | hp'
    · have hv := h.votes p hp'
      exact { hv with full := fun hf => hv.full (and_eq_true_iff.mp hf).1 }
    rw [mem_singleton.mp hp']
    have hkept := hp.sigs .commit
    refine ⟨hkept.proper, hkept.nodup, ?_, fun hf => ?_⟩
    · cases hfast : p1.fast with
      | false => exact hp.slowCommit hdec hfast
      | true =>
        rw [hp.fastCommit hdec hfast, hn, Configuration.slowCommitQuorumSize]
        omega
    · exact hp.fastCommit hdec (and_eq_true_iff.mp hf).2
  · have := h.outstanding
    simp only [length_append, length_singleton]
    omega
  · obtain ⟨ho'', hne⟩ := hO g ho'
    rw [map_append] at hg
    rcases mem_append.mp hg with hg | hg
    · exact h.reported g hg ho''
    · exact hne (mem_singleton.mp hg)
  · refine h.decision.imp_right fun ⟨hf, g, hg, hnot, hclosed⟩ => ⟨hf, g, hg, ?_, fun ho' => hclosed (hO g ho').1⟩
    rw [map_append]
    intro hmem
    rcases mem_append.mp hmem with hm | hm
    · exact hnot hm
    · exact hclosed (mem_singleton.mp hm ▸ ho)

theorem complete (h : req.Waiting c txn d fallback O) (hzero : req.outstandingPhase1s = 0) :
    req.decision = .commit ∧ ∀ g ∈ txn.involvedGroups, g ∈ req.p1ReplySigsGrouped.map Prod.fst := by
  have hsub : req.p1ReplySigsGrouped.map Prod.fst ⊆ txn.involvedGroups := by
    intro g hg
    obtain ⟨p, hp, rfl⟩ := mem_map.mp hg
    exact h.involved p hp
  have hperm := (subperm_of_subset h.groups hsub).perm_of_length_le (by
    rw [length_map]
    have := h.outstanding
    omega)
  have hall : ∀ g ∈ txn.involvedGroups, g ∈ req.p1ReplySigsGrouped.map Prod.fst :=
    fun g hg => hperm.mem_iff.mpr hg
  refine ⟨h.decision.resolve_right ?_, hall⟩
  rintro ⟨-, g, hg, hnot, -⟩
  exact hnot (hall g hg)

theorem p1Cert {fast : Bool} (h : req.Waiting c txn d fallback O) (hzero : req.outstandingPhase1s = 0)
    (hcov : Covers txn txn.involvedGroups) (hpos : 0 < p1QuorumSize c .commit fast)
    {gs : GroupedSignatures} (hfst : gs.map Prod.fst = req.p1ReplySigsGrouped.map Prod.fst)
    (hvotes : ∀ p ∈ gs, GroupVotes c d .commit (p1QuorumSize c .commit fast) p.1 p.2) :
    P1Cert c .commit fast txn d gs := by
  have hall := (h.complete hzero).2
  have hmem : ∀ p ∈ gs, p.1 ∈ txn.involvedGroups := by
    intro p hp
    have : p.1 ∈ req.p1ReplySigsGrouped.map Prod.fst := hfst ▸ mem_map_of_mem hp
    obtain ⟨p', hp', he⟩ := mem_map.mp this
    exact he ▸ h.involved p' hp'
  refine ⟨hpos, fun he => ?_, hfst ▸ h.groups, fun p hp => hcov.small p.1 (hmem p hp), hvotes, fun _ => ?_⟩
  · obtain ⟨g, hg⟩ := exists_mem_of_ne_nil _ hcov.nonempty
    have := hall g hg
    rw [← hfst, he] at this
    cases this
  · exact { hcov with mem := fun g hg => hfst.symm ▸ hall g hg }

end PendingRequest.Waiting

end Callback

section

variable (c digestOf txn d)

def Sent.Good : Sent → Prop
  | .phase2 msg => P1Cert c msg.decision false txn d msg.groupedSigs
  | .writeback msg =>
    match msg.sigs with
    | .p1 gs => P1Cert c msg.decision true txn d gs
    | .p2 gs view => ∃ g sigs v, view = some v ∧ gs = [(g, sigs)] ∧ getLogGroup txn d = some g ∧
        P2Cert c msg.decision v d g sigs
    | .conflict proof => ValidConflict c digestOf txn (fun x => x.plain c digestOf = true) proof
    | .none => False
  | .phase2FB _ => True
  | .forward _ => True

/-- The certificate that is sent next is good. -/
structure PendingRequest.Ready (req : PendingRequest) : Prop where
  writeback : req.fast = true →
    Sent.Good c digestOf txn d (.writeback ⟨req.decision, some d, none, req.writebackSigs c⟩)
  phase2 : req.fast = false → P1Cert c req.decision false txn d (req.phase2Processing c).p1ReplySigsGrouped

end

theorem PendingRequest.Waiting.ready (hn : c.n = 5 * c.f + 1) (hcov : Covers txn txn.involvedGroups)
    (h : req.Waiting c txn d fallback O) (hzero : req.outstandingPhase1s = 0) : req.Ready c digestOf txn d := by
  have hdec := (h.complete hzero).1
  constructor
  · intro hfast
    have hpos : 0 < p1QuorumSize c .commit true := by
      show 0 < c.n
      omega
    simp only [writebackSigs, hfast, hdec, Sent.Good]
    refine h.p1Cert hzero hcov hpos rfl fun p hp => ?_
    have hv := h.votes p hp
    exact ⟨hv.votes, hv.nodup, hv.full hfast⟩
  · intro _
    have hgs : (req.phase2Processing c).p1ReplySigsGrouped = req.p1ReplySigsGrouped.trim c.slowCommitQuorumSize := by
      simp only [phase2Processing, hdec]
    have hpos : 0 < p1QuorumSize c .commit false := Nat.succ_pos _
    rw [hgs, hdec]
    refine h.p1Cert hzero hcov hpos map_fst_trim fun p hp => ?_
    obtain ⟨p', hp', rfl⟩ := mem_map.mp hp
    have hv := h.votes p' hp'
    exact groupVotes_take ⟨hv.nodup, fun s hs => mem_map_of_mem hs, hv.votes⟩ hv.length

theorem PendingRequest.Waiting.ready_abort (h : req.Waiting c txn d fallback O) (hsmall : group < 2 ^ 32)
    (hp : p1.Decided c digestOf txn (Votes c group d) fun x => x.plain c digestOf = true)
    (hdec : p1.decision = .abort) : (req.phase1CallbackProcessing group p1).Ready c digestOf txn d := by
  have hkept := hp.sigs .abstain
  unfold phase1CallbackProcessing takeSigs
  cases hfast : p1.fast with
  | false =>
    have hnone : p1.conflict = none := by
      cases hx : p1.conflict with
      | none => rfl
      | some x =>
        have := (hp.conflict x hx).2.1
        rw [hfast] at this
        cases this
    have hq := hp.abort hdec hnone
    rw [hfast] at hq
    simp only [hdec, Bool.and_false, Bool.false_eq_true, ↓reduceIte]
    refine ⟨nofun, fun _ => ?_⟩
    simp only [phase2Processing, only_set]
    exact P1Cert.single hsmall hkept hq
  | true =>
    cases hx : p1.conflict with
    | none =>
      have hq := hp.abort hdec hx
      rw [hfast] at hq
      simp only [hdec, ↓reduceIte]
      refine ⟨fun _ => ?_, nofun⟩
      simp only [writebackSigs, h.conflict, only_set, Sent.Good]
      exact P1Cert.single hsmall hkept hq
    | some x =>
      simp only [hdec, ↓reduceIte]
      refine ⟨fun _ => ?_, nofun⟩
      exact (hp.conflict x hx).2.2

end Pequin
