import Pequin.Proof.Handlers

/-!
# Votes and what they rest on

A replica votes COMMIT or ABSTAIN from its buffered vote, or from the sets of finished transactions. `Outcome.accepts`
and `Outcome.refuses` say what its own check has come to; they exclude each other and stay, under conditions on the
step that the source does not enforce (`Outcome.Steady`). What is voted otherwise rests on a certificate (`VoteInv`).
-/

namespace Pequin

open Outcome OutcomeEvent

variable {r : Result} {e : OutcomeEvent} {occ : OccOutcome} {o o' : Outcome} {srv : Server} {d : Digest}

/-- What holds in the cluster: votes for a decision were cast, a certificate for it exists, an election was won with it.
-/
structure Knowledge where
  voted : CommitDecision → Prop
  cert : CommitDecision → Prop
  elected : CommitDecision → Nat → Prop

/-- All of `K` is known in `K'`. -/
structure Knowledge.Le (K K' : Knowledge) : Prop where
  voted : ∀ dec, K.voted dec → K'.voted dec
  cert : ∀ dec, K.cert dec → K'.cert dec
  elected : ∀ dec v, K.elected dec v → K'.elected dec v

def Writeback.hasCert (wb : Writeback) : Bool :=
  match wb.sigs with
  | .p1 _ => true
  | .p2 _ _ => true
  | _ => false

namespace Outcome

def certAborted (o : Outcome) : Bool := o.writeback.any Writeback.hasCert

/-- Aborted without a certificate: after a conflict with a committed transaction, or because it was ignored. -/
def droppedLocally (o : Outcome) : Bool := o.aborted && !o.certAborted

/-- The check has not come to a vote. -/
def undecided (o : Outcome) : Bool := o.result == none || o.result == some .wait

def accepts (o : Outcome) : Prop := o.result = some .commit

def refuses (o : Outcome) : Prop :=
  (∃ r, o.result = some r ∧ r ≠ .commit ∧ r ≠ .wait) ∨ o.droppedLocally = true ∧ o.undecided = true

theorem not_accepts_of_refuses (h : o.refuses) : ¬ o.accepts := by
  intro ha
  rw [accepts] at ha
  rcases h with ⟨r, hr, hne, -⟩ | ⟨-, hu⟩
  · rw [ha, Option.some.injEq] at hr
    exact hne hr.symm
  · simp [undecided, ha] at hu

/-- The vote stays. A transaction is ignored only without a vote, and one dropped locally is not voted COMMIT. -/
def Steady (o : Outcome) : OutcomeEvent → Prop
  | .check occ exec => (occ = .ignore → exec = true → o.result = none) ∧
      (o.droppedLocally = true → o.undecided = true → occ ≠ .commit)
  | .resolve b => o.droppedLocally = true → o.undecided = true → o.resolution b ≠ some .commit
  | _ => True

theorem kept_eq {r' : Result} (hr : r ≠ .wait) : kept (some r) r' = r := by
  simp [kept, hr]

theorem kept_undecided {old : Option Result} (h : old = none ∨ old = some .wait) (hr : r ≠ .wait) : kept old r = r := by
  rcases h with rfl | rfl
  · rfl
  · simp [kept, hr]

theorem undecided_iff : o.undecided = true ↔ o.result = none ∨ o.result = some .wait := by
  simp [undecided]

theorem buffer_result {r' : Result} (h : o.result = some r) (hr : r ≠ .wait) : (o.buffer r').result = some r := by
  rw [buffer, h, kept_eq hr]

theorem check_result : (o.check d occ).result = o.result := by
  cases occ <;> rfl

theorem result_step (hs : o.Steady e) (h : o.step srv d e = some o') (hres : o.result = some r) (hr : r ≠ .wait) :
    o'.result = some r := by
  obtain ⟨-, rfl⟩ := step_eq h
  cases e with
  | track txn => exact hres
  | check occ exec =>
    simp only [next]
    split
    · rename_i hi
      split
      · rename_i hexec
        have := hs.1 hi hexec
        rw [hres] at this
        cases this
      · exact hres
    · exact buffer_result (check_result.trans hres) hr
  | resolve b =>
    simp only [next]
    cases o.resolution b with
    | none => exact hres
    | some r' => exact buffer_result hres hr
  | _ => exact hres

theorem accepts_step (hs : o.Steady e) (h : o.step srv d e = some o') (ha : o.accepts) : o'.accepts :=
  result_step hs h ha (by decide)

theorem certAborted_or_conflict {wb? : Option Writeback} {proof : CommittedProof}
    (h : wb?.any Writeback.hasCert = false) :
    (wb?.or (some ⟨.abort, some d, none, .conflict proof⟩)).any Writeback.hasCert = false := by
  cases wb? with
  | none => rfl
  | some wb => exact h

theorem droppedLocally_step
    (h : o.step srv d e = some o') (hd : o.droppedLocally = true) : o'.droppedLocally = true := by
  obtain ⟨hen, rfl⟩ := step_eq h
  rw [droppedLocally, Bool.and_eq_true, Bool.not_eq_true'] at hd
  obtain ⟨hab, hcert⟩ := hd
  have hfinish : ∀ o₁ : Outcome, o₁.aborted = true → o₁.certAborted = false →
      o₁.droppedLocally = true := fun o₁ h₁ h₂ => by rw [droppedLocally, h₁, h₂]; rfl
  cases e with
  | track txn => exact hfinish _ hab hcert
  | check occ exec =>
    simp only [next]
    split
    · split
      · exact hfinish _ (by simp [clean, hab]) hcert
      · exact hfinish _ hab hcert
    · cases occ with
      | conflict proof => exact hfinish _ rfl (certAborted_or_conflict hcert)
      | _ => exact hfinish _ hab hcert
  | resolve b =>
    simp only [next]
    cases o.resolution b with
    | none => exact hfinish _ hab hcert
    | some r => exact hfinish _ hab hcert
  | vote r => exact hfinish _ hab hcert
  | answer dec => exact hfinish _ hab hcert
  | commit proof => exact hfinish _ (by simp [next, clean, hab]) hcert
  | abort wb => simp [enabled, finished, hab] at hen
  | drop => exact hfinish _ (by simp [next, clean, hab]) hcert

theorem undecided_buffer (hu : o.undecided = true) (hd : o.droppedLocally = true)
    (hr : r ≠ .commit) : (o.buffer r).refuses := by
  rw [undecided_iff] at hu
  by_cases hw : r = .wait
  · right
    refine ⟨hd, ?_⟩
    subst hw
    rw [undecided_iff, buffer]
    rcases hu with hu | hu <;> simp [hu, kept]
  · left
    exact ⟨r, by rw [buffer, kept_undecided hu hw], hr, hw⟩

theorem voteOf_ne_commit (h : occ ≠ .commit) : voteOf srv occ ≠ .commit := by
  cases occ with
  | commit => exact absurd rfl h
  | conflict proof => simp only [voteOf]; split <;> decide
  | _ => simp [voteOf]

theorem refuses_step (hs : o.Steady e) (h : o.step srv d e = some o') (href : o.refuses) : o'.refuses := by
  rcases href with ⟨r, hr, hne, hw⟩ | ⟨hd, hu⟩
  · exact .inl ⟨r, result_step hs h hr hw, hne, hw⟩
  have hd' := droppedLocally_step h hd
  obtain ⟨-, rfl⟩ := step_eq h
  cases e with
  | check occ exec =>
    simp only [next] at hd' ⊢
    by_cases hi : occ = .ignore
    · rw [if_pos hi] at hd' ⊢
      refine .inr ⟨hd', ?_⟩
      split
      · rfl
      · exact hu
    · rw [if_neg hi] at hd' ⊢
      have hu' : (o.check d occ).undecided = true := by
        rw [undecided_iff, check_result, ← undecided_iff]
        exact hu
      exact undecided_buffer hu' hd' (voteOf_ne_commit (hs.2 hd hu))
  | resolve b =>
    simp only [next] at hd' ⊢
    have hne := hs hd hu
    cases hres : o.resolution b with
    | none => exact .inr ⟨hd, hu⟩
    | some r =>
      rw [hres] at hne
      exact undecided_buffer hu hd fun hr => hne (by rw [hr])
  | _ => exact .inr ⟨hd', hu⟩

end Outcome

/-- The votes signed, and the outcome, rest on the replica's own vote or on a certificate. -/
structure VoteInv (K : Knowledge) (d : Digest) (o : Outcome) : Prop where
  commit : ∀ g, .concurrencyControl .commit d g ∈ o.signed → o.accepts ∨ K.cert .commit
  abstain : ∀ g, .concurrencyControl .abstain d g ∈ o.signed → o.refuses ∨ K.cert .abort
  committed : o.committed.isSome = true → K.cert .commit
  aborted : o.certAborted = true → K.cert .abort

/-- An event that keeps `VoteInv`. ABSTAIN is no answer for a transaction dropped locally after a COMMIT vote. -/
def Outcome.Founded (K : Knowledge) (o : Outcome) : OutcomeEvent → Prop
  | .answer .abort => o.droppedLocally = true → ¬ o.accepts
  | .commit _ => K.cert .commit
  | .abort wb => wb.hasCert = true → K.cert .abort
  | _ => True

namespace VoteInv

variable {K K' : Knowledge}

theorem init (K : Knowledge) (d : Digest) : VoteInv K d (Node.outcome {}) :=
  ⟨nofun, nofun, nofun, nofun⟩

theorem mono (h : VoteInv K d o) (hK : K.Le K') : VoteInv K' d o where
  commit g hg := (h.commit g hg).imp_right (hK.cert _)
  abstain g hg := (h.abstain g hg).imp_right (hK.cert _)
  committed hc := hK.cert _ (h.committed hc)
  aborted ha := hK.cert _ (h.aborted ha)

theorem mem_signP1 {b : SignedBody} (h : b ∈ signP1 srv d r) :
    b = .concurrencyControl r d srv.groupIdx ∧ (r = .commit ∨ r = .abstain) := by
  rw [signP1] at h
  split at h
  · exact ⟨List.mem_singleton.mp h, ‹_›⟩
  · cases h

theorem sign (h : VoteInv K d o)
    (hc : r = .commit → o.accepts ∨ K.cert .commit) (ha : r = .abstain → o.refuses ∨ K.cert .abort) :
    VoteInv K d { o with signed := o.signed ++ signP1 srv d r } where
  commit g hg := by
    rcases List.mem_append.mp hg with hg | hg
    · exact h.commit g hg
    · have heq := (mem_signP1 hg).1
      simp only [SignedBody.concurrencyControl.injEq] at heq
      exact hc heq.1.symm
  abstain g hg := by
    rcases List.mem_append.mp hg with hg | hg
    · exact h.abstain g hg
    · have heq := (mem_signP1 hg).1
      simp only [SignedBody.concurrencyControl.injEq] at heq
      exact ha heq.1.symm
  committed := h.committed
  aborted := h.aborted

theorem of_votes (h : VoteInv K d o) (hs : o'.signed = o.signed)
    (ha : o.accepts → o'.accepts) (hr : o.refuses → o'.refuses)
    (hc : o'.committed.isSome = true → o.committed.isSome = true ∨ K.cert .commit)
    (hb : o'.certAborted = true → o.certAborted = true ∨ K.cert .abort) : VoteInv K d o' where
  commit g hg := (h.commit g (hs ▸ hg)).imp_left ha
  abstain g hg := (h.abstain g (hs ▸ hg)).imp_left hr
  committed h' := (hc h').elim h.committed id
  aborted h' := (hb h').elim h.aborted id

theorem certAborted_check (h : (o.check d occ).certAborted = true) : o.certAborted = true := by
  cases occ with
  | conflict proof =>
    by_contra hc
    rw [Bool.not_eq_true] at hc
    have : (o.check d (.conflict proof)).certAborted = false := certAborted_or_conflict hc
    rw [this] at h
    cases h
  | _ => exact h

theorem committed_check : (o.check d occ).committed = o.committed := by
  cases occ <;> rfl

theorem step (h : VoteInv K d o) (hs : o.Steady e) (hf : o.Founded K e)
    (hst : o.step srv d e = some o') : VoteInv K d o' := by
  have ha := accepts_step hs hst
  have hr := refuses_step hs hst
  obtain ⟨hen, rfl⟩ := step_eq hst
  cases e with
  | track txn => exact h.of_votes rfl ha hr .inl .inl
  | check occ exec =>
    refine h.of_votes ?_ ha hr (fun hc => .inl ?_) (fun hb => .inl ?_)
    · simp only [next]
      cases occ <;> cases exec <;> rfl
    · simp only [next] at hc
      split at hc
      · split at hc <;> exact hc
      · exact committed_check ▸ hc
    · simp only [next] at hb
      split at hb
      · split at hb <;> exact hb
      · exact certAborted_check hb
  | resolve b =>
    refine h.of_votes ?_ ha hr (fun hc => .inl ?_) (fun hb => .inl ?_)
    · simp only [next]
      cases o.resolution b <;> rfl
    · simp only [next] at hc
      cases hres : o.resolution b <;> rw [hres] at hc <;> exact hc
    · simp only [next] at hb
      cases hres : o.resolution b <;> rw [hres] at hb <;> exact hb
  | vote r =>
    simp only [enabled, beq_iff_eq] at hen
    refine h.sign (fun hc => .inl (hen.trans (congrArg some hc))) fun hab => .inl (.inl ⟨r, hen, ?_⟩)
    subst hab
    decide
  | answer dec =>
    cases dec with
    | commit => exact h.sign (fun _ => .inr (h.committed hen)) fun hd => by cases hd
    | abort =>
      refine h.sign (fun hd => by cases hd) fun _ => ?_
      simp only [enabled, Bool.and_eq_true] at hen
      by_cases hcert : o.certAborted = true
      · exact .inr (h.aborted hcert)
      rw [Bool.not_eq_true] at hcert
      have hd : o.droppedLocally = true := by rw [droppedLocally, hen.1, hcert]; rfl
      have hna := hf hd
      left
      by_cases hu : o.undecided = true
      · exact .inr ⟨hd, hu⟩
      rw [undecided_iff, not_or] at hu
      obtain ⟨r, hres⟩ := Option.ne_none_iff_exists'.mp hu.1
      refine .inl ⟨r, hres, ?_, ?_⟩
      · rintro rfl; exact hna hres
      · rintro rfl; exact hu.2 hres
  | commit proof => exact h.of_votes rfl ha hr (fun _ => .inr hf) .inl
  | abort wb =>
    refine h.of_votes rfl ha hr .inl fun hb => ?_
    cases hwb : o.writeback with
    | some wb' => exact .inl (by simpa [next, clean, certAborted, hwb] using hb)
    | none =>
      have hb' : wb.hasCert = true := by
        simpa [next, clean, certAborted, hwb] using hb
      exact .inr (hf hb')
  | drop => exact h.of_votes rfl ha hr .inl .inl

end VoteInv

end Pequin
