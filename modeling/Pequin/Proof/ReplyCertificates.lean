import Pequin.Proof.VoteCertificates

/-!
# Certificates of one group

The validators of Phase2 certificates (`ValidateP2Replies`, `asyncValidateP2Replies`,
`asyncBatchValidateP2Replies`) and of the fallback (`VerifyFBViews`, `ValidateFBDecision`, each with
its asynchronous version), compared with each other on every certificate and in every order of
the jobs.
-/

namespace Pequin

open Pequin.Configuration Dispatch List

variable {c : Configuration} {d : Digest} {g logGrp myId : Nat}

/-- The two validators agree in every order of the jobs. -/
def AgreeOn (verdict : Bool) (D : Dispatch) : Prop :=
  ∀ order : List (Nat × Bool), order.Perm D.verifications →
    (verdict = true ↔ D.outcome asyncValidateP2RepliesCallback order = some [true])

/-- Where the order of the jobs does not matter, agreement is an equivalence. -/
theorem agreeOn_iff {verdict : Bool} {D : Dispatch} {Q : Prop}
    (h : ∀ {order : List (Nat × Bool)}, order.Perm D.verifications →
      (D.outcome asyncValidateP2RepliesCallback order = some [true] ↔ Q)) : AgreeOn verdict D ↔ (verdict = true ↔ Q) :=
  ⟨fun hall => (hall _ (.refl _)).trans (h (.refl _)), fun hq _ hp => hq.trans (h hp).symm⟩

/-! ## Phase2 certificates -/

section Phase2Certificates

variable {dec : CommitDecision} {view : Nat} {txn : Transaction} {sigs : List Signature} {my : Option CommitDecision}
  {order : List (Nat × Bool)}

/-- The entry is our own, and we have a decision. -/
def IsOwnReply (myId : Nat) (my : Option CommitDecision) (s : Signature) : Prop :=
  my.isSome = true ∧ s.processId = myId

/-- As many entries as the quorum, of distinct processes, with valid signatures but for our own. -/
structure ReplyQuorum (c : Configuration) (dec : CommitDecision) (view : Nat) (d : Digest) (logGrp : Nat)
    (sigs : List Signature) (myId : Nat) (my : Option CommitDecision) : Prop where
  nodup : (sigs.map Signature.processId).Nodup
  length : sigs.length = c.quorumSize
  valid : ∀ s ∈ sigs, ¬IsOwnReply myId my s → verifyReply dec view d logGrp s = true

/-- Our own entry is for the decision we have made. -/
def OwnAgrees (dec : CommitDecision) (sigs : List Signature) (myId : Nat) (my : Option CommitDecision) : Prop :=
  ∀ s ∈ sigs, IsOwnReply myId my s → my = some dec

/-- Our own entry has a valid signature. -/
def OwnValid (dec : CommitDecision) (view : Nat) (d : Digest) (logGrp : Nat) (sigs : List Signature)
    (myId : Nat) (my : Option CommitDecision) : Prop :=
  ∀ s ∈ sigs, IsOwnReply myId my s → verifyReply dec view d logGrp s = true

/-- The entries are of members, and filed under the log group. -/
def FiledUnder (c : Configuration) (g logGrp : Nat) (sigs : List Signature) : Prop :=
  g = logGrp ∧ ∀ s ∈ sigs, isReplicaInGroup c s.processId g = true

/-- Our own entry, with our decision, is not verified. -/
def skipsReply (dec : CommitDecision) (myId : Nat) (my : Option CommitDecision) (s : Signature) : Bool :=
  my == some dec && s.processId == myId

theorem skipsReply_iff {s : Signature} : skipsReply dec myId my s = true ↔ IsOwnReply myId my s ∧ my = some dec := by
  rw [skipsReply, Bool.and_eq_true, beq_iff_eq, beq_iff_eq, IsOwnReply]
  constructor
  · rintro ⟨hmy, hid⟩
    exact ⟨⟨by rw [hmy]; rfl, hid⟩, hmy⟩
  · rintro ⟨⟨-, hid⟩, hmy⟩
    exact ⟨hmy, hid⟩

/-- The scan comes to an own entry that is a quorum alone. -/
def EndsWithOwn (c : Configuration) (dec : CommitDecision) (g : Nat) (sigs : List Signature) (myId : Nat)
    (my : Option CommitDecision) : Prop :=
  EndsSkipped Signature.processId (fun s => isReplicaInGroup c s.processId g) (skipsReply dec myId my)
    c.quorumSize [] 0 sigs

theorem validateP2Replies_iff (hlog : getLogGroup txn d = some logGrp) :
    validateP2Replies c dec view txn d [(g, sigs)] myId my = true ↔
      ReplyQuorum c dec view d logGrp sigs myId my ∧ OwnAgrees dec sigs myId my := by
  simp only [validateP2Replies, hlog, Bool.and_eq_true, all_eq_true, decide_eq_true_eq, beq_iff_eq]
  constructor
  · rintro ⟨⟨hall, hnodup⟩, hlen⟩
    refine ⟨⟨hnodup, hlen, fun s hs hown => ?_⟩, fun s hs hown => ?_⟩
    · have hs' := hall s hs
      rwa [if_neg (show ¬(my.isSome = true ∧ s.processId = myId) from hown)] at hs'
    · have hs' := hall s hs
      rwa [if_pos (show my.isSome = true ∧ s.processId = myId from hown), beq_iff_eq] at hs'
  · rintro ⟨⟨hnodup, hlen, hvalid⟩, hown⟩
    refine ⟨⟨fun s hs => ?_, hnodup⟩, hlen⟩
    split
    · rename_i h
      rw [beq_iff_eq]
      exact hown s hs h
    · rename_i h
      exact hvalid s hs h

theorem quorumSize_pos : 0 < c.quorumSize := by
  rw [quorumSize]
  omega

theorem EndsWithOwn.f_eq_zero (h : EndsWithOwn c dec g sigs myId my) : c.f = 0 := by
  have hle := h.quorum_eq_one fun s hs => (skipsReply_iff.mp hs).1.2
  rw [quorumSize] at hle
  omega

/-- It succeeds if own entries are enough, or with exactly the quorum of valid entries, all under the log group. -/
theorem asyncValidateP2Replies_iff (hlog : getLogGroup txn d = some logGrp)
    (hp : order.Perm (Dispatch.asyncValidateP2Replies c dec view txn d [(g, sigs)] myId my).verifications) :
    (Dispatch.asyncValidateP2Replies c dec view txn d [(g, sigs)] myId my).outcome
        asyncValidateP2RepliesCallback order = some [true] ↔ g = logGrp ∧ (EndsWithOwn c dec g sigs myId my ∨
        Good Signature.processId (fun s => isReplicaInGroup c s.processId g) (skipsReply dec myId my)
            (verifyReply dec view d logGrp) sigs ∧
          sigs.length = c.quorumSize ∧ (g < 2 ^ 32 ∨ ∀ s ∈ sigs, skipsReply dec myId my s = false)) := by
  simp only [Dispatch.asyncValidateP2Replies, hlog] at hp ⊢
  by_cases hg : g = logGrp
  swap
  · rw [if_pos hg]
    exact ⟨fun h => absurd (singleton_injective (Option.some.inj h)) Bool.false_ne_true, fun h => absurd h.1 hg⟩
  rw [if_neg (not_not_intro hg)] at hp ⊢
  by_cases hfive : c.f = 1 ∧ sigs.length ≠ 5
  · rw [if_pos hfive]
    refine ⟨fun h => absurd h (by simp [outcome]), ?_⟩
    rintro ⟨-, hends | ⟨-, hlen, -⟩⟩
    · have hf := hends.f_eq_zero
      omega
    · rw [quorumSize] at hlen
      omega
  · rw [if_neg hfive] at hp ⊢
    rw [and_iff_right hg]
    exact dispatchReplies_accepts quorumSize_pos hp

theorem asyncBatchValidateP2Replies_iff (hlog : getLogGroup txn d = some logGrp)
    (hp : order.Perm (asyncBatchValidateP2Replies c dec view txn d [(g, sigs)]).verifications) :
    (asyncBatchValidateP2Replies c dec view txn d [(g, sigs)]).outcome
        asyncValidateP2RepliesCallback order = some [true] ↔
      ReplyQuorum c dec view d logGrp sigs myId my ∧ FiledUnder c g logGrp sigs ∧
        OwnValid dec view d logGrp sigs myId my := by
  simp only [asyncBatchValidateP2Replies, hlog] at hp ⊢
  by_cases hg : g = logGrp
  swap
  · rw [if_pos hg]
    exact ⟨fun h => absurd (singleton_injective (Option.some.inj h)) Bool.false_ne_true, fun h => absurd h.2.1.1 hg⟩
  rw [if_neg (not_not_intro hg)] at hp ⊢
  rw [dispatchReplies_accepts quorumSize_pos hp]
  constructor
  · rintro (⟨pre, s, post, -, -, hskip, -⟩ | ⟨hgood, hlen, -⟩)
    · exact absurd hskip Bool.false_ne_true
    · have hvalid : ∀ s ∈ sigs, verifyReply dec view d logGrp s = true := fun s hs =>
        (hgood.verified s hs).resolve_left Bool.false_ne_true
      exact ⟨⟨hgood.clean.fresh.1, hlen, fun s hs _ => hvalid s hs⟩, ⟨hg, hgood.clean.ok⟩, fun s hs _ => hvalid s hs⟩
  · rintro ⟨hquorum, hfiled, hown⟩
    refine .inr ⟨⟨⟨hfiled.2, hquorum.nodup, fun _ _ => not_mem_nil⟩, fun s hs => .inr ?_⟩,
      hquorum.length, .inr fun _ _ => rfl⟩
    by_cases h : IsOwnReply myId my s
    · exact hown s hs h
    · exact hquorum.valid s hs h

/-- A quorum of valid replies of distinct members of the log group. -/
def LogQuorum (c : Configuration) (dec : CommitDecision) (view : Nat) (txn : Transaction) (d : Digest)
    (gs : GroupedSignatures) : Prop :=
  ∃ logGrp, getLogGroup txn d = some logGrp ∧ Tally.Attained Signature.processId
    (fun s => (∃ p ∈ gs, s ∈ p.2) ∧ s.processId / c.n = logGrp ∧ verifyReply dec view d logGrp s = true)
    c.quorumSize

theorem logQuorum_iff (hlog : getLogGroup txn d = some logGrp) (h : ReplyQuorum c dec view d logGrp sigs myId my) :
    LogQuorum c dec view txn d [(g, sigs)] ↔
      OwnValid dec view d logGrp sigs myId my ∧ ∀ s ∈ sigs, s.processId / c.n = logGrp := by
  constructor
  · rintro ⟨logGrp', hlog', l, hnodup, hl, hlen⟩
    obtain rfl : logGrp = logGrp' := Option.some.inj (hlog.symm.trans hlog')
    have hsub : l ⊆ sigs := by
      intro s hs
      obtain ⟨⟨p, hp, hsp⟩, -⟩ := hl s hs
      rwa [mem_singleton.mp hp] at hsp
    have hperm : l.Perm sigs :=
      (subperm_of_subset (List.Nodup.of_map _ hnodup) hsub).perm_of_length_le (h.length.trans_le hlen)
    exact ⟨fun s hs _ => (hl s (hperm.mem_iff.mpr hs)).2.2, fun s hs => (hl s (hperm.mem_iff.mpr hs)).2.1⟩
  · rintro ⟨hown, hmember⟩
    refine ⟨logGrp, hlog, sigs, h.nodup, fun s hs => ⟨⟨_, mem_singleton_self _, hs⟩, hmember s hs, ?_⟩, h.length.ge⟩
    by_cases hs' : IsOwnReply myId my s
    · exact hown s hs hs'
    · exact h.valid s hs hs'

/-- On a quorum, the asynchronous validator accepts if the filing is right. -/
theorem asyncValidateP2Replies_iff_of_quorum (hlog : getLogGroup txn d = some logGrp)
    (h : ReplyQuorum c dec view d logGrp sigs myId my)
    (hp : order.Perm (Dispatch.asyncValidateP2Replies c dec view txn d [(g, sigs)] myId my).verifications) :
    (Dispatch.asyncValidateP2Replies c dec view txn d [(g, sigs)] myId my).outcome
        asyncValidateP2RepliesCallback order = some [true] ↔ FiledUnder c g logGrp sigs ∧
        (∀ s ∈ sigs, skipsReply dec myId my s = true ∨ verifyReply dec view d logGrp s = true) ∧
        (g < 2 ^ 32 ∨ c.f = 0 ∨ ∀ s ∈ sigs, skipsReply dec myId my s = false) := by
  rw [asyncValidateP2Replies_iff hlog hp]
  constructor
  · rintro ⟨hg, hends | ⟨hgood, -, hkey⟩⟩
    · -- without faults the certificate is the own entry
      have hf := hends.f_eq_zero
      obtain ⟨pre, s, post, hsigs, hclean, hskip, -⟩ := hends
      have hlen := h.length
      rw [hsigs, quorumSize, hf, length_append, length_cons] at hlen
      obtain rfl : pre = [] := eq_nil_of_length_eq_zero (by omega)
      obtain rfl : post = [] := eq_nil_of_length_eq_zero (by omega)
      rw [hsigs]
      exact ⟨⟨hg, hclean.ok⟩, forall_mem_singleton.mpr (.inl hskip), .inr (.inl hf)⟩
    · exact ⟨⟨hg, hgood.clean.ok⟩, hgood.verified, hkey.imp_right .inr⟩
  · rintro ⟨⟨hg, hok⟩, hall, hkey⟩
    have hclean : Clean Signature.processId (fun s => isReplicaInGroup c s.processId g) [] sigs :=
      ⟨hok, h.nodup, fun _ _ => not_mem_nil⟩
    refine ⟨hg, ?_⟩
    by_cases hkey' : g < 2 ^ 32 ∨ ∀ s ∈ sigs, skipsReply dec myId my s = false
    · exact .inr ⟨⟨hclean, hall⟩, h.length, hkey'⟩
    rw [not_or] at hkey'
    have hf : c.f = 0 := by
      rcases hkey with hkey | hkey | hkey
      · exact absurd hkey hkey'.1
      · exact hkey
      · exact absurd hkey hkey'.2
    obtain ⟨s, hs⟩ := length_eq_one_iff.mp (h.length.trans (by rw [quorumSize, hf]))
    rw [hs, forall_mem_singleton, Bool.not_eq_false] at hkey'
    rw [hs] at hclean ⊢
    left
    exact endsSkipped_of_all quorumSize_pos hclean (forall_mem_singleton.mpr hkey'.2)
      (by rw [quorumSize, hf]; rfl)

/-- The three validators agree in every order of the jobs, and accept quorums of the log group only. -/
def ReplyValidatorsAgree (c : Configuration) (dec : CommitDecision) (view : Nat) (txn : Transaction)
    (d : Digest) (gs : GroupedSignatures) (myId : Nat) (my : Option CommitDecision) : Prop :=
  AgreeOn (validateP2Replies c dec view txn d gs myId my)
    (Dispatch.asyncValidateP2Replies c dec view txn d gs myId my) ∧
  AgreeOn (validateP2Replies c dec view txn d gs myId my) (asyncBatchValidateP2Replies c dec view txn d gs) ∧
  (validateP2Replies c dec view txn d gs myId my = true → LogQuorum c dec view txn d gs)

/-- For a certificate with one group. A quorum of otherwise valid entries agrees with our own decision, is filed under
the log group with members only, and our own entry is valid; or it contradicts our decision, and our own entry or the
filing is wrong. Without faults, nothing else has an own entry that is a quorum alone. -/
def AgreesOnReplies (c : Configuration) (dec : CommitDecision) (view : Nat) (d : Digest)
    (logGrp g : Nat) (sigs : List Signature) (myId : Nat) (my : Option CommitDecision) : Prop :=
  (ReplyQuorum c dec view d logGrp sigs myId my →
    (OwnAgrees dec sigs myId my ∧ FiledUnder c g logGrp sigs ∧ OwnValid dec view d logGrp sigs myId my ∧
        (∀ s ∈ sigs, s.processId / c.n = logGrp) ∧ (g < 2 ^ 32 ∨ c.f = 0 ∨ ∀ s ∈ sigs, ¬IsOwnReply myId my s)) ∨
      (¬OwnAgrees dec sigs myId my ∧ ¬(FiledUnder c g logGrp sigs ∧ OwnValid dec view d logGrp sigs myId my))) ∧
  (¬ReplyQuorum c dec view d logGrp sigs myId my → ¬(g = logGrp ∧ EndsWithOwn c dec g sigs myId my))

theorem OwnAgrees.skips (h : OwnAgrees dec sigs myId my) {s : Signature} (hs : s ∈ sigs) :
    skipsReply dec myId my s = true ↔ IsOwnReply myId my s := by
  rw [skipsReply_iff]
  exact ⟨And.left, fun hown => ⟨hown, h s hs hown⟩⟩

theorem not_skips_of_not_ownAgrees (h : ¬OwnAgrees dec sigs myId my) (s : Signature) :
    skipsReply dec myId my s = false := by
  rw [← Bool.not_eq_true]
  intro hskip
  exact h fun _ _ _ => (skipsReply_iff.mp hskip).2

theorem reply_validators_agree_single (hlog : getLogGroup txn d = some logGrp) :
    ReplyValidatorsAgree c dec view txn d [(g, sigs)] myId my ↔ AgreesOnReplies c dec view d logGrp g sigs myId my := by
  rw [ReplyValidatorsAgree, AgreesOnReplies, agreeOn_iff (asyncBatchValidateP2Replies_iff hlog)]
  by_cases hquorum : ReplyQuorum c dec view d logGrp sigs myId my
  · rw [agreeOn_iff (asyncValidateP2Replies_iff_of_quorum hlog hquorum), validateP2Replies_iff hlog,
      logQuorum_iff hlog hquorum]
    by_cases hagree : OwnAgrees dec sigs myId my
    · have hall : ∀ s ∈ sigs, skipsReply dec myId my s = true ∨ verifyReply dec view d logGrp s = true := by
        intro s hs
        by_cases hown : IsOwnReply myId my s
        · exact .inl ((hagree.skips hs).mpr hown)
        · exact .inr (hquorum.valid s hs hown)
      have hnone : (∀ s ∈ sigs, skipsReply dec myId my s = false) ↔ ∀ s ∈ sigs, ¬IsOwnReply myId my s :=
        forall_congr' fun s => forall_congr' fun hs => by rw [← Bool.not_eq_true, hagree.skips hs]
      rw [hnone]
      constructor
      · rintro ⟨hasync, -, hlogq⟩
        obtain ⟨hfiled, -, hkey⟩ := hasync.mp ⟨hquorum, hagree⟩
        obtain ⟨hvalid, hmember⟩ := hlogq ⟨hquorum, hagree⟩
        exact ⟨fun _ => .inl ⟨hagree, hfiled, hvalid, hmember, hkey⟩, fun hn => absurd hquorum hn⟩
      · rintro ⟨h, -⟩
        obtain ⟨-, hfiled, hvalid, hmember, hkey⟩ | ⟨hn, -⟩ := h hquorum
        · exact ⟨iff_of_true ⟨hquorum, hagree⟩ ⟨hfiled, hall, hkey⟩,
            iff_of_true ⟨hquorum, hagree⟩ ⟨hquorum, hfiled, hvalid⟩, fun _ => ⟨hvalid, hmember⟩⟩
        · exact absurd hagree hn
    · have hnone : ∀ s ∈ sigs, skipsReply dec myId my s = false := fun s _ =>
        not_skips_of_not_ownAgrees hagree s
      have hall : (∀ s ∈ sigs, skipsReply dec myId my s = true ∨ verifyReply dec view d logGrp s = true) ↔
          OwnValid dec view d logGrp sigs myId my := by
        refine forall_congr' fun s => forall_congr' fun hs => ?_
        rw [hnone s hs]
        by_cases hown : IsOwnReply myId my s
        · simp [hown]
        · simp [hown, hquorum.valid s hs hown]
      rw [hall]
      constructor
      · rintro ⟨-, hbatch, -⟩
        exact ⟨fun _ => .inr ⟨hagree, fun hfv => hagree (hbatch.mpr ⟨hquorum, hfv⟩).2⟩, fun hn => absurd hquorum hn⟩
      rintro ⟨h, -⟩
      obtain ⟨hag, -⟩ | ⟨-, hfv⟩ := h hquorum
      · exact absurd hag hagree
      · exact ⟨iff_of_false (fun h => hagree h.2) fun h => hfv ⟨h.1, h.2.1⟩,
          iff_of_false (fun h => hagree h.2) fun h => hfv h.2, fun h => absurd h.2 hagree⟩
  · have hends : ∀ {order : List (Nat × Bool)},
        order.Perm (Dispatch.asyncValidateP2Replies c dec view txn d [(g, sigs)] myId my).verifications →
        ((Dispatch.asyncValidateP2Replies c dec view txn d [(g, sigs)] myId my).outcome
          asyncValidateP2RepliesCallback order = some [true] ↔
          g = logGrp ∧ EndsWithOwn c dec g sigs myId my) := by
      intro order hp
      rw [asyncValidateP2Replies_iff hlog hp]
      refine and_congr_right fun _ => ⟨fun h => h.resolve_right fun hgood => hquorum ?_, .inl⟩
      refine ⟨hgood.1.clean.fresh.1, hgood.2.1, fun s hs hown => ?_⟩
      exact (hgood.1.verified s hs).resolve_left fun hskip => hown (skipsReply_iff.mp hskip).1
    rw [agreeOn_iff hends, validateP2Replies_iff hlog]
    have hsync : ¬(ReplyQuorum c dec view d logGrp sigs myId my ∧ OwnAgrees dec sigs myId my) :=
      fun h => hquorum h.1
    constructor
    · exact fun h => ⟨fun hq => absurd hq hquorum, fun _ hown => hsync (h.1.mpr hown)⟩
    · exact fun h => ⟨iff_of_false hsync (h.2 hquorum), iff_of_false hsync fun hc => hquorum hc.1,
        fun ha => absurd ha hsync⟩

/-- Without a log group or with several groups, nothing is accepted. -/
theorem reply_validators_agree_other {gs : GroupedSignatures}
    (h : ∀ logGrp g sigs, getLogGroup txn d = some logGrp → gs ≠ [(g, sigs)]) :
    ReplyValidatorsAgree c dec view txn d gs myId my := by
  unfold ReplyValidatorsAgree AgreeOn validateP2Replies Dispatch.asyncValidateP2Replies asyncBatchValidateP2Replies
  cases hlog : getLogGroup txn d with
  | none => simp [outcome]
  | some logGrp =>
    rcases gs with _ | ⟨⟨g, sigs⟩, _ | ⟨p, rest⟩⟩
    · simp [outcome]
    · exact absurd rfl (h logGrp g sigs hlog)
    · simp [outcome]

/-- The validators of Phase2 certificates agree, on quorums of the log group only, exactly if the condition is met. -/
theorem reply_validators_agree_iff (c : Configuration) (dec : CommitDecision) (view : Nat)
    (txn : Transaction) (d : Digest) (gs : GroupedSignatures) (myId : Nat) (my : Option CommitDecision) :
    ReplyValidatorsAgree c dec view txn d gs myId my ↔
      ∀ logGrp g sigs, getLogGroup txn d = some logGrp → gs = [(g, sigs)] →
        AgreesOnReplies c dec view d logGrp g sigs myId my := by
  by_cases h : ∀ logGrp g sigs, getLogGroup txn d = some logGrp → gs ≠ [(g, sigs)]
  · exact ⟨fun _ logGrp g sigs hlog hgs => absurd hgs (h logGrp g sigs hlog), fun _ => reply_validators_agree_other h⟩
  push Not at h
  obtain ⟨logGrp, g, sigs, hlog, rfl⟩ := h
  rw [reply_validators_agree_single hlog]
  constructor
  · intro hagree logGrp' g' sigs' hlog' hgs
    obtain rfl : logGrp = logGrp' := Option.some.inj (hlog.symm.trans hlog')
    obtain ⟨rfl, rfl⟩ : g = g' ∧ sigs = sigs' := by simpa using hgs
    exact hagree
  · exact fun hall => hall logGrp g sigs hlog rfl

end Phase2Certificates

def replyOf (id : Nat) : Signature := ⟨id, ⟨id, .phase2Decision .commit [7] 0 0⟩⟩

/-- Replies of group 0 under group 1 are accepted synchronously only; replies against our own decision, asynchronously
only. -/
theorem reply_validators_differ :
    (validateP2Replies twoGroups .commit 0 groupZeroTxn [7] [(1, [0, 1, 2, 3, 4].map replyOf)] 9 none = true ∧
      (Dispatch.asyncValidateP2Replies twoGroups .commit 0 groupZeroTxn [7]
        [(1, [0, 1, 2, 3, 4].map replyOf)] 9 none).outcome asyncValidateP2RepliesCallback [] = some [false]) ∧
    (validateP2Replies twoGroups .commit 0 groupZeroTxn [7] [(0, [0, 1, 2, 3, 4].map replyOf)] 0 (some .abort) = false ∧
      (Dispatch.asyncValidateP2Replies twoGroups .commit 0 groupZeroTxn [7]
        [(0, [0, 1, 2, 3, 4].map replyOf)] 0 (some .abort)).outcome asyncValidateP2RepliesCallback
          (List.replicate 5 (0, true)) = some [true] ∧
      (Dispatch.asyncValidateP2Replies twoGroups .commit 0 groupZeroTxn [7]
        [(0, [0, 1, 2, 3, 4].map replyOf)] 0 (some .abort)).verifications = List.replicate 5 (0, true)) := by
  decide

section Fallback

variable {α : Type} {pid : α → Nat} {ok skip valid : α → Bool} {q : Nat} {l : List α}

/-- The first entries up to the quorum are good. -/
def FirstGood (pid : α → Nat) (ok skip valid : α → Bool) (q : Nat) (l : List α) : Prop :=
  q ≤ l.length ∧ Good pid ok skip valid (l.take q)

/-- Stopping at the quorum is the same as looking at all entries: after good first ones there are no others (and a
skipped one counts for the same group), unless an unverified one ends the count, which is only after good ones. -/
def NoSurplus (pid : α → Nat) (ok skip valid : α → Bool) (g q : Nat) (l : List α) : Prop :=
  (FirstGood pid ok skip valid q l → EndsSkipped pid ok skip q [] 0 l ∨
    l.length = q ∧ (g < 2 ^ 32 ∨ ∀ e ∈ l, skip e = false)) ∧
  (EndsSkipped pid ok skip q [] 0 l → FirstGood pid ok skip valid q l)

theorem firstGood_iff_accepts : (FirstGood pid ok skip valid q l ↔ EndsSkipped pid ok skip q [] 0 l ∨
      Good pid ok skip valid l ∧ l.length = q ∧ (g < 2 ^ 32 ∨ ∀ e ∈ l, skip e = false)) ↔
    NoSurplus pid ok skip valid g q l := by
  constructor
  · intro h
    exact ⟨fun hf => (h.mp hf).imp_right And.right, fun he => h.mpr (.inl he)⟩
  rintro ⟨hfirst, hends⟩
  constructor
  · intro hf
    refine (hfirst hf).imp_right fun hlen => ⟨?_, hlen⟩
    have hgood := hf.2
    rwa [take_of_length_le hlen.1.le] at hgood
  · rintro (he | ⟨hgood, hlen, -⟩)
    · exact hends he
    · refine ⟨hlen.ge, ?_⟩
      rwa [take_of_length_le hlen.le]

theorem agreeOn_replies_iff (hq : 0 < q) {dec : CommitDecision} : AgreeOn (validateReplies pid ok skip valid q l [] 0)
      (dispatchReplies pid ok skip valid g (.ofReplies q dec) l [] []) ↔ NoSurplus pid ok skip valid g q l := by
  rw [agreeOn_iff (dispatchReplies_accepts hq), validateReplies_iff hq]
  exact firstGood_iff_accepts

end Fallback

theorem viewQuorum_pos (catchUp : Bool) : 0 < viewQuorum c catchUp := by
  rw [viewQuorum]
  split <;> omega

section Views

variable {proposedView myView : Nat} {catchUp : Bool} {views : List SignedMessage}

/-- The scan of `asyncVerifyFBViews`, before its assertion. -/
def scanViews (c : Configuration) (proposedView : Nat) (catchUp : Bool) (logGrp : Nat) (d : Digest)
    (views : List SignedMessage) (myId myView : Nat) : Dispatch :=
  dispatchReplies SignedMessage.processId (isViewVote c proposedView catchUp logGrp d)
    (isOwnView proposedView catchUp myId myView) (fun m => verify m.processId m.data m.signature) logGrp
    (.ofReplies (viewQuorum c catchUp) .commit) views [] []

/-- The assertion on the number of jobs: it fails only where the validation would fail later. -/
theorem asyncVerifyFBViews_eq : Dispatch.asyncVerifyFBViews c proposedView catchUp logGrp d views myId myView =
      scanViews c proposedView catchUp logGrp d views myId myView ∨
    Dispatch.asyncVerifyFBViews c proposedView catchUp logGrp d views myId myView = .panic ∧
      ∀ order : List (Nat × Bool),
        order.Perm (scanViews c proposedView catchUp logGrp d views myId myView).verifications →
        (scanViews c proposedView catchUp logGrp d views myId myView).outcome
          asyncValidateP2RepliesCallback order ≠ some [true] := by
  unfold Dispatch.asyncVerifyFBViews
  split
  · rename_i o js heq
    have hscan : scanViews c proposedView catchUp logGrp d views myId myView = .jobs o js := heq
    rw [hscan]
    by_cases hlen : js.length ≤ viewQuorum c catchUp
    · exact .inl (if_pos hlen)
    refine .inr ⟨if_neg hlen, fun order hp hacc => hlen ?_⟩
    rw [← hscan] at hp hacc
    obtain ⟨heq', -⟩ | ⟨heq', -⟩ | ⟨heq', hends, -⟩ :=
      dispatchReplies_ofReplies SignedMessage.processId (isViewVote c proposedView catchUp logGrp d)
        (isOwnView proposedView catchUp myId myView) (fun m => verify m.processId m.data m.signature) logGrp
        (viewQuorum c catchUp) .commit views
    · cases hscan.symm.trans heq'
    · cases hscan.symm.trans heq'
    · -- more jobs than the quorum, so more entries
      obtain hends' | ⟨-, hviews, -⟩ := (dispatchReplies_accepts (viewQuorum_pos catchUp) hp).mp hacc
      · exact absurd hends' hends
      · obtain ⟨-, rfl⟩ := jobs.inj (hscan.symm.trans heq')
        rw [← hviews]
        exact (Nat.le_add_right _ _).trans_eq length_replyJobs
  · exact .inl rfl

/-- The assertion makes no difference to whether `asyncVerifyFBViews` agrees with a verdict. -/
theorem agreeOn_views_iff {verdict : Bool} :
    AgreeOn verdict (Dispatch.asyncVerifyFBViews c proposedView catchUp logGrp d views myId myView) ↔
      AgreeOn verdict (scanViews c proposedView catchUp logGrp d views myId myView) := by
  rcases asyncVerifyFBViews_eq with heq | ⟨heq, hnever⟩
  · rw [heq]
  have hpanic : ∀ {order : List (Nat × Bool)}, order.Perm panic.verifications →
      (panic.outcome asyncValidateP2RepliesCallback order = some [true] ↔ False) :=
    fun _ => ⟨fun h => absurd h.symm (Option.some_ne_none _), False.elim⟩
  rw [heq, agreeOn_iff hpanic, agreeOn_iff fun hp => iff_false_intro (hnever _ hp)]

end Views

/-- The validators of the fallback agree in every order of the jobs exactly without surplus
entries. -/
theorem fallback_validators_agree_iff (c : Configuration) (d : Digest) (myId : Nat) :
    (∀ (proposedView : Nat) (catchUp : Bool) (logGrp : Nat) (views : List SignedMessage) (myView : Nat),
      AgreeOn (verifyFBViews c proposedView catchUp logGrp d views myId myView)
          (Dispatch.asyncVerifyFBViews c proposedView catchUp logGrp d views myId myView) ↔
        NoSurplus SignedMessage.processId (isViewVote c proposedView catchUp logGrp d)
          (isOwnView proposedView catchUp myId myView) (fun m => verify m.processId m.data m.signature)
          logGrp (viewQuorum c catchUp) views) ∧
    (∀ (dec : CommitDecision) (view : Nat) (txn : Transaction) (sigs : List Signature) (my : Option CommitDecision),
      AgreeOn (validateFBDecision c dec view txn d sigs myId my)
          (Dispatch.asyncValidateFBDecision c dec view txn d sigs myId my) ↔ ∀ logGrp, getLogGroup txn d = some logGrp →
          NoSurplus Signature.processId (fun s => isReplicaInGroup c s.processId logGrp)
            (fun s => my == some dec && s.processId == myId) (verifyElect dec view d) logGrp (2 * c.f + 1) sigs) := by
  refine ⟨fun _ _ _ _ _ => agreeOn_views_iff.trans (agreeOn_replies_iff (viewQuorum_pos _)),
    fun dec view txn sigs my => ?_⟩
  rw [validateFBDecision, Dispatch.asyncValidateFBDecision]
  cases hlog : getLogGroup txn d with
  | none =>
    refine ⟨fun _ logGrp h => absurd h.symm (Option.some_ne_none logGrp), fun _ order _ => ?_⟩
    exact iff_of_false Bool.false_ne_true fun h => absurd h.symm (Option.some_ne_none _)
  | some logGrp =>
    rw [agreeOn_replies_iff (by omega)]
    constructor
    · intro h logGrp' hlog'
      obtain rfl := Option.some.inj hlog'
      exact h
    · exact fun h => h logGrp rfl

def viewOf (id : Nat) : SignedMessage :=
  ⟨(SignedBody.currentView 1 [7] id).wire, id, ⟨id, .currentView 1 [7] id⟩⟩

/-- One valid entry too many: the synchronous validators accept, the asynchronous ones end the
process. -/
theorem surplus_ends_process :
    (validateFBDecision twoGroups .commit 1 groupZeroTxn [7] ([0, 1, 2, 3].map electOf) 9 none = true ∧
      (Dispatch.asyncValidateFBDecision twoGroups .commit 1 groupZeroTxn [7] ([0, 1, 2, 3].map electOf)
        9 none).outcome asyncValidateP2RepliesCallback (List.replicate 4 (0, true)) = none ∧
      (Dispatch.asyncValidateFBDecision twoGroups .commit 1 groupZeroTxn [7] ([0, 1, 2, 3].map electOf)
        9 none).verifications = List.replicate 4 (0, true)) ∧
    (verifyFBViews twoGroups 1 true 0 [7] ([0, 1, 2].map viewOf) 9 0 = true ∧
      (Dispatch.asyncVerifyFBViews twoGroups 1 true 0 [7] ([0, 1, 2].map viewOf) 9 0).outcome
        asyncValidateP2RepliesCallback [] = none) := by
  decide

end Pequin
