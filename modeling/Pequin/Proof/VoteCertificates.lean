import Pequin.Proof.Schedules
import Pequin.Framework.Tally

/-!
# Certificates of Phase1 votes

What the synchronous and the asynchronous validators of vote certificates accept, measured
against what a certificate is for (`Quorate`): for a commit a quorum of valid votes of members of
every involved group, for an abort of one involved group.
-/

namespace Pequin

open Bool Countdown List

variable {c : Configuration} {dec : CommitDecision} {fast b : Bool} {txn : Transaction} {d : Digest}
  {o o' : AsyncVerification} {counted : List Nat} {jobs order : List (Nat × Bool)} {Q : Prop}
  {gs : GroupedSignatures} {myId : Nat} {my : Option Result}

/-- Group `g` contributes `q` valid votes of distinct members, listed under its number. -/
def Contributes (c : Configuration) (dec : CommitDecision) (d : Digest) (gs : GroupedSignatures) (q g : Nat) : Prop :=
  ∃ p ∈ gs, p.1 = g ∧ Tally.Attained Signature.processId
    (fun s => s ∈ p.2 ∧ s.processId / c.n = g ∧ verifyVote dec d g s = true) q

def ofInvolved (dec : CommitDecision) (txn : Transaction) (P : Nat → Prop) : Prop :=
  match dec with
  | .commit => ∀ g ∈ txn.involvedGroups, P g
  | .abort => ∃ g ∈ txn.involvedGroups, P g

theorem ofInvolved_congr {P Q : Nat → Prop} (h : ∀ g, P g ↔ Q g) : ofInvolved dec txn P ↔ ofInvolved dec txn Q := by
  cases dec with
  | commit => exact forall_congr' fun g => imp_congr_right fun _ => h g
  | abort => exact exists_congr fun g => and_congr_right fun _ => h g

/-- The votes that the decision needs. -/
def Quorate (c : Configuration) (dec : CommitDecision) (fast : Bool) (txn : Transaction) (d : Digest)
    (gs : GroupedSignatures) : Prop :=
  ofInvolved dec txn (Contributes c dec d gs (p1QuorumSize c dec fast))

/-! ## The synchronous check -/

/-- Group `g` is listed under its number with members only, and our own entry among them is signed. -/
def ListsMembers (c : Configuration) (dec : CommitDecision) (d : Digest) (gs : GroupedSignatures)
    (myId : Nat) (my : Option Result) (g : Nat) : Prop :=
  ∃ p ∈ gs, p.1 = g ∧ ∀ s ∈ p.2, s.processId / c.n = g ∧
    (my.isSome = true → s.processId = myId → verifyVote dec d g s = true)

theorem contributes_iff (h : ∀ p ∈ gs, validateP1Group c dec fast d myId my p.1 p.2 = true) (g : Nat) :
    Contributes c dec d gs (p1QuorumSize c dec fast) g ↔ ListsMembers c dec d gs myId my g := by
  constructor
  · rintro ⟨p, hp, rfl, l, hnodup, hl, hlen⟩
    obtain ⟨-, hnd, hsize⟩ := validateP1Group_entries (h p hp)
    -- as many entries as the group has: they are all of them
    have hperm : l.Perm p.2 :=
      (subperm_of_subset (List.Nodup.of_map _ hnodup) fun s hs => (hl s hs).1).perm_of_length_le
        (hsize.trans_le hlen)
    refine ⟨p, hp, rfl, fun s hs => ?_⟩
    obtain ⟨-, hmember, hvalid⟩ := hl s (hperm.mem_iff.mpr hs)
    exact ⟨hmember, fun _ _ => hvalid⟩
  · rintro ⟨p, hp, rfl, hall⟩
    obtain ⟨hentries, hnd, hsize⟩ := validateP1Group_entries (h p hp)
    refine ⟨p, hp, rfl, p.2, hnd, fun s hs => ?_, hsize.ge⟩
    refine ⟨hs, (hall s hs).1, ?_⟩
    rcases hentries s hs with ⟨hsome, hid⟩ | hvalid
    · exact (hall s hs).2 hsome hid
    · exact hvalid

/-- An accepted certificate has the votes of every involved group (of one, for an abort) iff these are listed under
their numbers, with members only, and our own entry is signed. -/
theorem validateP1Replies_quorate_iff (h : validateP1Replies c dec fast txn d gs myId my = true) :
    Quorate c dec fast txn d gs ↔ ofInvolved dec txn (ListsMembers c dec d gs myId my) := by
  simp only [validateP1Replies, and_eq_true, all_eq_true] at h
  exact ofInvolved_congr (contributes_iff h.1)

/-! A cluster of two groups of six replicas, and a transaction of group 0. -/

def twoGroups : Configuration :=
  ⟨1, 6, [[[0], [1], [2], [3], [4], [5]], [[6], [7], [8], [9], [10], [11]]]⟩

def groupZeroTxn : Transaction := ⟨9, 1, [0], [], [], [], ⟨10, 9⟩, [], [], [], none⟩

def voteOf (dec : CommitDecision) (g id : Nat) : Signature :=
  ⟨id, ⟨id, .concurrencyControl (ccrOf dec) [7] g⟩⟩

def electOf (id : Nat) : Signature := ⟨id, ⟨id, .electMessage 0 [7] .commit 1⟩⟩

theorem validateP1Replies_quorate_iff_fourVotes : validateP1Replies twoGroups .commit false groupZeroTxn [7]
      [(0, [voteOf .commit 0 0, voteOf .commit 0 1, voteOf .commit 0 2, voteOf .commit 0 3])] 0
      (some .commit) = true ∧ Quorate twoGroups .commit false groupZeroTxn [7]
      [(0, [voteOf .commit 0 0, voteOf .commit 0 1, voteOf .commit 0 2, voteOf .commit 0 3])] := by
  have h : validateP1Replies twoGroups .commit false groupZeroTxn [7]
      [(0, [voteOf .commit 0 0, voteOf .commit 0 1, voteOf .commit 0 2, voteOf .commit 0 3])] 0
      (some .commit) = true := by decide
  refine ⟨h, (validateP1Replies_quorate_iff h).mpr fun g hg => ?_⟩
  obtain rfl : g = 0 := by simpa [groupZeroTxn] using hg
  exact ⟨_, mem_singleton_self _, rfl, by decide⟩

/-- An abort certificate without votes is accepted, and so is one with those of a group not involved. -/
theorem unbacked_abort_accepted : (validateP1Replies twoGroups .abort false groupZeroTxn [7] [] 0 none = true ∧
    ¬Quorate twoGroups .abort false groupZeroTxn [7] []) ∧ (validateP1Replies twoGroups .abort false groupZeroTxn [7]
      [(1, [voteOf .abort 1 6, voteOf .abort 1 7])] 0 none = true ∧
    ¬Quorate twoGroups .abort false groupZeroTxn [7] [(1, [voteOf .abort 1 6, voteOf .abort 1 7])]) := by
  refine ⟨⟨by decide, ?_⟩, by decide, ?_⟩
  · rintro ⟨g, hg, p, hp, -⟩
    cases hp
  · rintro ⟨g, hg, p, hp, rfl, -⟩
    rw [mem_singleton.mp hp] at hg
    exact absurd hg (by decide)

/-! ## The asynchronous check -/

section

variable (c dec fast txn d gs myId my)

/-- Our own entries: those of `myId`, once we have a vote. -/
def isOwn (id : Nat) : Bool := my.isSome && id == myId

def lookedAt : List (Nat × Signature) :=
  GroupedSignatures.entries (if dec = .abort then gs.take 1 else gs)

def neededGroups : Nat :=
  if dec = .commit then txn.involvedGroups.length else 1

/-- The count ends with the last job in every order: the entries pass the checks, those verified are valid, every group
with one has exactly the quorum, and as many groups as needed are complete. (Or our own entries are enough.) -/
def ExactVotes : Prop :=
  EndsOwn c (isOwn myId my) (my == some (ccrOf dec)) (p1QuorumSize c dec fast) (neededGroups dec txn) [] []
      (lookedAt dec gs) ∨ Passes c (isOwn myId my) (my == some (ccrOf dec)) [] (lookedAt dec gs) ∧
      Exact (p1QuorumSize c dec fast) (neededGroups dec txn) (ownGroups (isOwn myId my) (lookedAt dec gs))
        ((voteJobs (isOwn myId my) (verifyVote dec d) (lookedAt dec gs)).map jobKey)

def ExactBatch : Prop :=
  Exact (p1QuorumSize c dec fast) (neededGroups dec txn) []
    ((voteJobs (fun _ => false) (verifyVote dec d) gs.entries).map jobKey)

/-- The checks that the batched validator makes before it verifies. -/
def PassesBatch : Prop :=
  Passes c (fun _ => false) false [] gs.entries

end

theorem counting_ofVotes : Counting (.ofVotes c dec fast txn) :=
  ⟨rfl, fun _ => rfl, fun _ => rfl⟩

theorem forall_outcome_iff
    (h : Leaves o counted jobs o') (ho : o.groupCounts = []) : (∀ order : List (Nat × Bool), order.Perm jobs →
      (Dispatch.jobs o' jobs).outcome asyncValidateP1RepliesCallback order = some [true]) ↔
      Exact o.quorumSize o.needed counted (jobs.map jobKey) := by
  have hcounts := h.groupCounts
  rw [ho, append_nil] at hcounts
  rw [← exact_perm_counts hcounts]
  by_cases hne : jobs = []
  · subst hne
    refine ⟨fun hall => ?_, fun hexact => absurd rfl hexact.ne_nil⟩
    exact absurd (Option.some.inj (hall [] (List.Perm.refl []))) (cons_ne_nil _ _).symm
  have hfin : ∀ order : List (Nat × Bool), order.Perm jobs →
      ((Dispatch.jobs o' jobs).outcome asyncValidateP1RepliesCallback order = some [true] ↔
        finishes o.quorumSize o.needed o'.groupCounts (order.map jobKey) = true) := by
    intro order hp
    rw [outcome_leaves h hp hne, Option.ite_none_right_eq_some, and_iff_left rfl]
  constructor
  · intro hall
    refine forall_perm_finishes_iff.mp fun keyed hkeyed => ?_
    -- an order of the keyed jobs comes from an order of the jobs
    have hcomp : Relation.Comp (· = List.map jobKey ·) List.Perm keyed jobs := by
      rw [eq_map_comp_perm]
      exact hkeyed
    obtain ⟨order, rfl, hp⟩ := hcomp
    exact (hfin order hp).mp (hall order hp)
  · intro hexact order hp
    exact (hfin order hp).mpr (forall_perm_finishes_iff.mpr hexact _ (hp.map jobKey))

theorem asyncValidateP1Replies_cases :
    Scanned (Dispatch.asyncValidateP1Replies c dec fast txn d gs myId my) .panic
      (EndsOwn c (isOwn myId my) (my == some (ccrOf dec)) (p1QuorumSize c dec fast) (neededGroups dec txn) [] []
        (lookedAt dec gs))
      (Passes c (isOwn myId my) (my == some (ccrOf dec)) [] (lookedAt dec gs))
      (LeavesJobs (.ofVotes c dec fast txn) (ownGroups (isOwn myId my) (lookedAt dec gs))
        (voteJobs (isOwn myId my) (verifyVote dec d) (lookedAt dec gs))) :=
  dispatchP1_cases counting_ofVotes [] []

theorem forall_votes_iff : (∀ order : List (Nat × Bool),
    order.Perm (Dispatch.asyncValidateP1Replies c dec fast txn d gs myId my).verifications →
    (Dispatch.asyncValidateP1Replies c dec fast txn d gs myId my).outcome
      asyncValidateP1RepliesCallback order = some [true]) ↔ ExactVotes c dec fast txn d gs myId my := by
  obtain ⟨heq, hends⟩ | ⟨heq, hends, hpass⟩ | ⟨⟨o', heq, hleaves⟩, hends, hpass⟩ :=
    asyncValidateP1Replies_cases
  · rw [heq]
    exact ⟨fun _ => .inl hends, fun _ _ _ => rfl⟩
  · rw [heq]
    refine ⟨fun hall => ?_, fun h => ?_⟩
    · exact absurd (hall [] (List.Perm.refl [])) (by simp [Dispatch.outcome])
    · exact absurd (h.resolve_left hends).1 hpass
  · rw [heq]
    refine (forall_outcome_iff hleaves rfl).trans ⟨fun hexact => .inr ⟨hpass, hexact⟩, fun h => ?_⟩
    exact (h.resolve_left hends).2

theorem outcome_leaves_eq_true (h : Leaves o counted jobs o') (hp : order.Perm jobs)
    (hb : (Dispatch.jobs o' jobs).outcome asyncValidateP1RepliesCallback order = some [b]) : b = true := by
  by_cases hne : jobs = []
  · subst hne
    obtain rfl := hp.eq_nil
    exact absurd (Option.some.inj hb) (cons_ne_nil _ _).symm
  · rw [outcome_leaves h hp hne, Option.ite_none_right_eq_some] at hb
    exact (singleton_injective (Option.some.inj hb.2)).symm

theorem votes_outcome_eq_true
    (hp : order.Perm (Dispatch.asyncValidateP1Replies c dec fast txn d gs myId my).verifications)
    (h : (Dispatch.asyncValidateP1Replies c dec fast txn d gs myId my).outcome
      asyncValidateP1RepliesCallback order = some [b]) : b = true := by
  obtain ⟨heq, -⟩ | ⟨heq, -⟩ | ⟨⟨o', heq, hleaves⟩, -⟩ :=
    asyncValidateP1Replies_cases
  · rw [heq] at h
    exact (singleton_injective (Option.some.inj h)).symm
  · rw [heq] at h
    cases h
  · rw [heq] at h hp
    exact outcome_leaves_eq_true hleaves hp h

theorem asyncBatchValidateP1Replies_cases :
    Scanned (Dispatch.asyncBatchValidateP1Replies c dec fast txn d gs) (.report false) False (PassesBatch c gs)
      (LeavesJobs (.ofVotes c dec fast txn) [] (voteJobs (fun _ => false) (verifyVote dec d) gs.entries)) :=
  dispatchBatchP1_cases counting_ofVotes [] []

/-- In every order of the jobs there is exactly one callback, without a `Panic`, with whether `Q` holds. -/
def Settles (D : Dispatch) (Q : Prop) : Prop :=
  ∀ order : List (Nat × Bool), order.Perm D.verifications →
    ∃ b, D.outcome asyncValidateP1RepliesCallback order = some [b] ∧ (b = true ↔ Q)

theorem settles_iff_of_true {D : Dispatch}
    (htrue : ∀ {order : List (Nat × Bool)} {b : Bool}, order.Perm D.verifications →
      D.outcome asyncValidateP1RepliesCallback order = some [b] → b = true) :
    Settles D Q ↔ (∀ order : List (Nat × Bool), order.Perm D.verifications →
      D.outcome asyncValidateP1RepliesCallback order = some [true]) ∧ Q := by
  constructor
  · intro h
    have hall : ∀ order : List (Nat × Bool), order.Perm D.verifications →
        D.outcome asyncValidateP1RepliesCallback order = some [true] ∧ Q := by
      intro order hp
      obtain ⟨b, hb, hQ⟩ := h order hp
      obtain rfl := htrue hp hb
      exact ⟨hb, hQ.mp rfl⟩
    exact ⟨fun order hp => (hall order hp).1, (hall _ (List.Perm.refl _)).2⟩
  · rintro ⟨hall, hQ⟩ order hp
    exact ⟨true, hall order hp, fun _ => hQ, fun _ => rfl⟩

theorem asyncValidateP1Replies_settles : Settles (Dispatch.asyncValidateP1Replies c dec fast txn d gs myId my) Q ↔
    ExactVotes c dec fast txn d gs myId my ∧ Q := by
  rw [← forall_votes_iff]
  exact settles_iff_of_true votes_outcome_eq_true

theorem asyncBatchValidateP1Replies_settles : Settles (Dispatch.asyncBatchValidateP1Replies c dec fast txn d gs) Q ↔
    (¬PassesBatch c gs ∧ ¬Q) ∨ (PassesBatch c gs ∧ ExactBatch c dec fast txn d gs ∧ Q) := by
  obtain ⟨-, hf⟩ | ⟨heq, -, hpass⟩ | ⟨⟨o', heq, hleaves⟩, -, hpass⟩ :=
    asyncBatchValidateP1Replies_cases
  · exact hf.elim
  · rw [Settles, heq]
    constructor
    · intro h
      obtain ⟨b, hb, hQ⟩ := h [] (List.Perm.refl [])
      obtain rfl := singleton_injective (Option.some.inj hb)
      exact .inl ⟨hpass, fun hq => false_ne_true (hQ.mpr hq)⟩
    · rintro (⟨-, hQ⟩ | ⟨hpass', -⟩) order hp
      · exact ⟨false, rfl, fun h => absurd h false_ne_true, fun h => absurd h hQ⟩
      · exact absurd hpass' hpass
  · rw [heq, settles_iff_of_true (outcome_leaves_eq_true hleaves)]
    have hexact : _ ↔ ExactBatch c dec fast txn d gs := forall_outcome_iff hleaves rfl
    rw [Dispatch.verifications, hexact]
    constructor
    · exact fun h => .inr ⟨hpass, h⟩
    · rintro (⟨hpass', -⟩ | ⟨-, h⟩)
      · exact absurd hpass hpass'
      · exact h

def surplusVotes : GroupedSignatures :=
  [(0, [0, 1, 2, 3, 4].map (voteOf .commit 0)), (1, [6, 7, 8, 9].map (voteOf .commit 1))]

def mixedVotes : GroupedSignatures :=
  [(0, voteOf .abort 0 0 :: [1, 2, 3].map (voteOf .commit 0))]

def bothGroupsTxn : Transaction := { groupZeroTxn with involvedGroups := [0, 1] }

def surplusDispatch : Dispatch :=
  .asyncValidateP1Replies twoGroups .commit false bothGroupsTxn [7] surplusVotes 0 none

def mixedDispatch : Dispatch :=
  .asyncValidateP1Replies twoGroups .commit false groupZeroTxn [7] mixedVotes 0 none

theorem handlePhase2_dispatch {srv : Server} {st : TxnState} {msg : Phase2} :
    (∀ txn my, phase2Validated srv d st msg = some (txn, my) →
      handlePhase2 srv d st msg = (st.dispatch (.phase2 msg txn my), [])) ∧
    (phase2Validated srv d st msg = none → (handlePhase2 srv d st msg).1.tasks = st.tasks) := by
  rw [phase2Validated, handlePhase2, TxnState.finished]
  by_cases hp2 : st.p2.hasP2 = true
  · simp [hp2]
  by_cases hcommitted : st.committed.isSome = true
  · simp [hp2, hcommitted]
  by_cases haborted : st.aborted = true
  · simp [hp2, hcommitted, haborted]
  simp only [hp2, hcommitted, haborted, Bool.or_self, Bool.false_eq_true, if_false]
  cases msg.txnDigest with
  | none =>
    cases msg.txn with
    | none => simp
    | some txn => simp
  | some d' =>
    cases st.ongoing with
    | some txn => simp
    | none =>
      cases msg.txn with
      | none =>
        refine ⟨fun txn my h => absurd h (Option.some_ne_none _).symm, fun _ => ?_⟩
        dsimp only
        split <;> rfl
      | some txn =>
        by_cases hd : srv.digestOf txn = d
        · simp [hd]
        · simp [hd]

/-- `HandlePhase2CB` is called exactly once, without a `Panic`, in every order of the jobs, with the verdict of
`ValidateP1Replies`. -/
def CalledOnce (t : Threading) (srv : Server) (d : Digest) (st : TxnState) (msg : Phase2) : Prop :=
  ∃ txn my, phase2Validated srv d st msg = some (txn, my) ∧
    Settles (managePhase2Validation t srv.config msg txn d srv.id my)
      (validateP1Replies srv.config msg.decision false txn d msg.groupedSigs srv.id my = true)

/-- When this is so, for a message that is validated. -/
def ReportsVerdict (t : Threading) (c : Configuration) (msg : Phase2) (txn : Transaction) (d : Digest)
    (myId : Nat) (my : Option Result) : Prop :=
  if t.batchVerification then
    if validateP1Replies c msg.decision false txn d msg.groupedSigs myId my then
      PassesBatch c msg.groupedSigs ∧ ExactBatch c msg.decision false txn d msg.groupedSigs
    else ¬PassesBatch c msg.groupedSigs
  else if t.multiThreading then
    ExactVotes c msg.decision false txn d msg.groupedSigs myId my ∧
      validateP1Replies c msg.decision false txn d msg.groupedSigs myId my = true
  else validateP1Replies c msg.decision false txn d msg.groupedSigs myId my = false

def groupZeroServer : Server := ⟨twoGroups, 0, 4, false, false, fun _ => [7]⟩

def fourVotesMsg : Phase2 :=
  ⟨.commit, some groupZeroTxn, some [7], [(0, [0, 1, 2, 3].map (voteOf .commit 0))], false⟩

end Pequin
