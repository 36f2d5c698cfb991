import Mathlib.Data.Bool.Count
import Mathlib.Data.List.Infix
import Pequin.Model.ShardClient

/-!
# When the votes of a group decide

The votes `COMMIT` and `ABSTAIN` of distinct replicas, counted by `Phase1Validator`. Once they
support a slow decision and nothing better can follow, the validator should be in a final state
and stay there. `SLOW_ABORT_FINAL` stands behind two tests that cover it, so a split vote never
gets there, and an `ABSTAIN` that completes `f + 1` takes `SLOW_COMMIT_FINAL` back.
-/

namespace Pequin

open Pequin.Configuration List Option

namespace Phase1Validator

variable {c : Configuration} {digestOf : Transaction → Digest} {txn : Transaction} {d : Digest}
  {v : Phase1Validator} {votes past : List Bool}

section

variable (c digestOf txn d votes)

def validated : Option Phase1Validator :=
  votes.foldlM (fun v vote => v.processMessage c digestOf txn d ⟨if vote then .commit else .abstain, d, .empty⟩) {}

/-- A slow certificate is there, and the votes outstanding complete neither a fast one nor a slow `COMMIT`. -/
def Settled (v : Phase1Validator) : Prop :=
  (c.slowCommitQuorumSize ≤ v.commits ∨ c.slowAbortQuorumSize ≤ v.abstains) ∧
    v.commits + (c.n - (v.commits + v.abstains)) < c.fastQuorumSize ∧
    v.abstains + (c.n - (v.commits + v.abstains)) < c.fastAbortQuorumSize ∧
    (c.slowCommitQuorumSize ≤ v.commits ∨ v.commits + (c.n - (v.commits + v.abstains)) < c.slowCommitQuorumSize)

def Final (v : Phase1Validator) : Prop := v.state = .slowCommitFinal ∨ v.state = .slowAbortFinal

def Tentative (v : Phase1Validator) : Prop :=
  v.state = .slowCommitTentative ∨ v.state = .slowAbortTentative ∨ v.state = .slowAbortTentative2

/-- After each of the votes the validator is final if they are settled, and no vote takes it back. -/
def Decisive : Prop :=
  ∀ past, past <+: votes → ∃ v, validated c digestOf txn d past = some v ∧ (Settled c v → Final v) ∧
    ∀ vote, past ++ [vote] <+: votes → Final v →
      ∃ v', validated c digestOf txn d (past ++ [vote]) = some v' ∧ ¬ Tentative v'

/-- The votes are never split, `2f + 1` of both without a slow `COMMIT`, and no `ABSTAIN` completes `f + 1` after one.
-/
def Agreeing : Prop :=
  ∀ past, past <+: votes →
    (2 * c.f + 1 ≤ past.count true → 2 * c.f + 1 ≤ past.count false → 3 * c.f + 1 ≤ past.count true) ∧
      (past ++ [false] <+: votes → 3 * c.f + 1 ≤ past.count true → past.count false < c.f)

end

theorem commit_state (c : Configuration) (v : Phase1Validator) :
    (v.commits + 1 = c.n ∧ (v.commit c).state = .fastCommit) ∨
      (3 * c.f + 1 ≤ v.commits + 1 ∧ v.abstains = 0 ∧ (v.commit c).state = .slowCommitTentative) ∨
      (3 * c.f + 1 ≤ v.commits + 1 ∧ v.abstains ≠ 0 ∧ (v.commit c).state = .slowCommitFinal) ∨
      (v.commits + 1 < 3 * c.f + 1 ∧ (v.commit c).state = v.state) := by
  grind [commit, slowCommitQuorumSize]

/-- `SLOW_ABORT_FINAL` is not among them. -/
theorem abstain_state (c : Configuration) (v : Phase1Validator) :
    (c.f < v.abstains + 1 ∧ (v.abstain c).state = .fastAbstain) ∨
      (v.state = .slowCommitTentative ∧ (v.abstain c).state = .slowCommitFinal) ∨
      (c.f < v.abstains + 1 ∧ (v.abstain c).state = .slowAbortTentative) ∨
      (c.f < v.abstains + 1 ∧ (v.abstain c).state = .slowAbortTentative2) ∨
      (v.abstains + 1 ≤ c.f ∧ v.state ≠ .slowCommitTentative ∧ (v.abstain c).state = v.state) := by
  simp only [abstain, fastAbortQuorumSize, slowAbortQuorumSize]
  split_ifs <;> grind

def addVote (c : Configuration) (v : Phase1Validator) (vote : Bool) : Phase1Validator :=
  if vote then v.commit c else v.abstain c

/-- The counters and the state of the validator, by the votes. -/
structure Counted (c : Configuration) (votes : List Bool) (v : Phase1Validator) : Prop where
  commits : v.commits = votes.count true
  abstains : v.abstains = votes.count false
  fastCommit : v.state = .fastCommit → votes.count true = c.n
  slowCommit : v.state = .slowCommitFinal → 3 * c.f + 1 ≤ votes.count true
  unopposed : v.state = .slowCommitTentative → 3 * c.f + 1 ≤ votes.count true ∧ votes.count false = 0
  tentative : 3 * c.f + 1 ≤ votes.count true → votes.count false = 0 →
    v.state = .slowCommitTentative ∨ v.state = .fastCommit
  noAbort : v.state ≠ .fastAbort ∧ v.state ≠ .slowAbortFinal

theorem Counted.step (h : Counted c past v) (hlen : past.length < c.n) (vote : Bool) :
    Counted c (past ++ [vote]) (v.addVote c vote) := by
  obtain ⟨hc, ha, hfast, hslow, htent, hopen, hno⟩ := h
  cases vote with
  | true =>
    refine ⟨by simp [addVote, commit, hc], by simp [addVote, commit, ha], ?_, ?_, ?_, ?_, ?_⟩ <;>
      rcases commit_state c v with h | h | h | h <;> grind [addVote]
  | false =>
    refine ⟨by simp [addVote, abstain, hc], by simp [addVote, abstain, ha], ?_, ?_, ?_, ?_, ?_⟩ <;>
      rcases abstain_state c v with h | h | h | h | h <;> grind [addVote]

theorem counted (hlen : votes.length ≤ c.n) : Counted c votes (votes.foldl (addVote c) {}) := by
  induction votes using reverseRecOn with
  | nil => exact ⟨rfl, rfl, nofun, nofun, nofun, nofun, nofun, nofun⟩
  | append_singleton past vote ih =>
    rw [length_append, length_singleton] at hlen
    rw [foldl_append]
    exact (ih (Nat.le_of_succ_le hlen)).step hlen vote

theorem Counted.not_fastCommit (h : Counted c past v) (hlen : past.length < c.n) : v.state ≠ .fastCommit := by
  intro hs
  have hall := h.fastCommit hs
  have hsum := count_true_add_count_false past
  omega

theorem Counted.final (h : Counted c past v) (hf : Final v) :
    v.state = .slowCommitFinal ∧ 3 * c.f + 1 ≤ past.count true ∧ 1 ≤ past.count false := by
  have hs : v.state = .slowCommitFinal := hf.resolve_right h.noAbort.2
  have hcommit := h.slowCommit hs
  refine ⟨hs, hcommit, Nat.one_le_iff_ne_zero.mpr fun h0 => ?_⟩
  rcases h.tentative hcommit h0 with ht | ht <;> rw [hs] at ht <;> cases ht

theorem validated_eq (hlen : votes.length ≤ c.n) :
    validated c digestOf txn d votes = some (votes.foldl (addVote c) {}) := by
  induction votes using reverseRecOn with
  | nil => rfl
  | append_singleton past vote ih =>
    rw [length_append, length_singleton] at hlen
    have hcounted := counted (Nat.le_of_succ_le hlen)
    unfold validated at ih ⊢
    rw [foldlM_append, ih (Nat.le_of_succ_le hlen), foldl_append]
    cases vote <;> simp [processMessage, hcounted.not_fastCommit hlen, hcounted.noAbort.1, addVote]

theorem Agreeing.slowCommitFinal (hlen : votes.length ≤ c.n) (h : Agreeing c votes) (hpast : past <+: votes)
    (hcommit : 3 * c.f + 1 ≤ past.count true) (habstain : 1 ≤ past.count false) :
    (past.foldl (addVote c) {}).state = .slowCommitFinal := by
  induction past using reverseRecOn with
  | nil => cases habstain
  | append_singleton past vote ih =>
    have hprev : past <+: votes := (prefix_append past [vote]).trans hpast
    have hlt : past.length < c.n := by
      have hle := hpast.length_le.trans hlen
      rwa [length_append, length_singleton] at hle
    have hcounted := counted hlt.le
    have hsum := count_true_add_count_false past
    rw [foldl_append]
    cases vote with
    | true =>
      rw [count_append, count_singleton_self, ← hcounted.commits] at hcommit
      have ha : 1 ≤ (past.foldl (addVote c) {}).abstains := by simpa [hcounted.abstains] using habstain
      rw [← hcounted.commits, ← hcounted.abstains] at hsum
      rcases commit_state c (past.foldl (addVote c) {}) with ⟨hall, -⟩ | ⟨-, h0, -⟩ | ⟨-, -, hs⟩ | ⟨hfew, -⟩
      · omega
      · omega
      · exact hs
      · omega
    | false =>
      rw [count_append, count_singleton] at hcommit
      have hfew := (h past hprev).2 hpast hcommit
      rw [← hcounted.abstains] at hfew
      rcases abstain_state c (past.foldl (addVote c) {}) with
        ⟨hf, -⟩ | ⟨-, hs⟩ | ⟨hf, -⟩ | ⟨hf, -⟩ | ⟨-, hne, hs⟩
      · omega
      · exact hs
      · omega
      · omega
      · refine hs.trans (ih hprev hcommit (Nat.one_le_iff_ne_zero.mpr fun h0 => ?_))
        exact (hcounted.tentative hcommit h0).elim hne (hcounted.not_fastCommit hlt)

theorem Counted.late (h : Counted c past v) (hn : c.n = 5 * c.f + 1) (hlen : past.length < c.n)
    (hcommit : 3 * c.f + 1 ≤ past.count true) (hf : c.f ≤ past.count false) :
    (v.abstain c).state ≠ .slowCommitFinal := by
  intro hs
  have hsum := count_true_add_count_false past
  rw [← h.abstains] at hf
  rcases abstain_state c v with ⟨-, hs'⟩ | ⟨ht, -⟩ | ⟨-, hs'⟩ | ⟨-, hs'⟩ | ⟨hfew, -⟩
  · rw [hs] at hs'; cases hs'
  · have h0 := (h.unopposed ht).2
    rw [h.abstains] at hf
    omega
  · rw [hs] at hs'; cases hs'
  · rw [hs] at hs'; cases hs'
  · omega

theorem Counted.settled_iff (h : Counted c past v) (hn : c.n = 5 * c.f + 1) (hlen : past.length ≤ c.n) :
    Settled c v ↔ 1 ≤ past.count false ∧ 2 * c.f + 1 ≤ past.count true ∧
      (3 * c.f + 1 ≤ past.count true ∨ 2 * c.f + 1 ≤ past.count false) := by
  have hsum := count_true_add_count_false past
  unfold Settled slowCommitQuorumSize slowAbortQuorumSize
    fastAbortQuorumSize fastQuorumSize
  rw [h.commits, h.abstains]
  omega

/-- The votes decide exactly where they agree. -/
theorem decisive_iff (hn : c.n = 5 * c.f + 1) (hlen : votes.length ≤ c.n) :
    Decisive c digestOf txn d votes ↔ Agreeing c votes := by
  have hval : ∀ past, past <+: votes → validated c digestOf txn d past = some (past.foldl (addVote c) {}) :=
    fun past hpast => validated_eq (hpast.length_le.trans hlen)
  have hcounted : ∀ past, past <+: votes → Counted c past (past.foldl (addVote c) {}) :=
    fun past hpast => counted (hpast.length_le.trans hlen)
  have hsettled := fun past (hpast : past <+: votes) =>
    (hcounted past hpast).settled_iff hn (hpast.length_le.trans hlen)
  constructor
  · intro h past hpast
    have hfinal : ∀ past, past <+: votes → Settled c (past.foldl (addVote c) {}) →
        Final (past.foldl (addVote c) {}) := by
      intro past hpast
      obtain ⟨v, hv, hset, -⟩ := h past hpast
      rw [hval past hpast, some.injEq] at hv
      exact hv ▸ hset
    refine ⟨fun hc ha => ?_, fun hnext hc => ?_⟩
    · exact ((hcounted past hpast).final (hfinal past hpast ((hsettled past hpast).mpr ⟨by omega, hc, .inr ha⟩))).2.1
    by_contra hf
    have hlt : past.length < c.n := by
      have hle := hnext.length_le.trans hlen
      rwa [length_append, length_singleton] at hle
    have hset := (hsettled _ hnext).mpr (by simp; omega)
    have hs := ((hcounted _ hnext).final (hfinal _ hnext hset)).1
    rw [foldl_append] at hs
    exact (hcounted past hpast).late hn hlt hc (Nat.le_of_not_lt hf) hs
  · intro h past hpast
    refine ⟨_, hval past hpast, fun hset => .inl ?_, fun vote hnext hf => ⟨_, hval _ hnext, ?_⟩⟩
    · obtain ⟨ha, hc, hslow⟩ := (hsettled past hpast).mp hset
      exact h.slowCommitFinal hlen hpast (hslow.elim id ((h past hpast).1 hc)) ha
    · obtain ⟨-, hc, ha⟩ := (hcounted past hpast).final hf
      have hs := h.slowCommitFinal hlen hnext (hc.trans (by simp)) (ha.trans (by simp))
      rintro (ht | ht | ht) <;> rw [hs] at ht <;> cases ht

/-- Four `COMMIT` and one `ABSTAIN` are final, until the second `ABSTAIN`. Three of each have no final state at all. -/
theorem split_votes_undecided :
    ¬ Decisive ⟨1, 6, []⟩ (fun _ => []) CommittedProof.empty.txn [] [true, true, true, true, false, false] ∧
      ¬ Decisive ⟨1, 6, []⟩ (fun _ => []) CommittedProof.empty.txn [] [true, true, true, false, false, false] := by
  refine ⟨fun h => ?_, fun h => ?_⟩
  · obtain ⟨v, hv, -, hback⟩ := h [true, true, true, true, false] (by decide)
    rw [validated_eq (by decide), some.injEq] at hv
    obtain ⟨v', hv', hnot⟩ := hback false (by decide) (.inl (by rw [← hv]; decide))
    rw [validated_eq (by decide), some.injEq] at hv'
    exact hnot (.inr (.inl (by rw [← hv']; decide)))
  · obtain ⟨v, hv, hfinal, -⟩ := h [true, true, true, false, false, false] (prefix_refl _)
    rw [validated_eq (by decide), some.injEq] at hv
    subst hv
    rcases hfinal (by unfold Settled; decide) with hs | hs <;> revert hs <;> decide

theorem decisive_five_commits : Decisive ⟨1, 6, []⟩ (fun _ => []) CommittedProof.empty.txn []
    [true, true, false, true, true, true] := by
  refine (decisive_iff rfl (by decide)).mpr fun past hpast => ?_
  rw [← mem_inits] at hpast
  revert past
  decide

end Phase1Validator

end Pequin
