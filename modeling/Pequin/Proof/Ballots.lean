import Pequin.Proof.Equivocation
import Pequin.Proof.Votes

/-!
# Ballots and what they rest on

On the machine of the Phase2 record, a decision on record or signed was voted for
(`BallotsVoted`). In the client-driven mode, one of a later view than the first won the
election of that view, and an ElectFB for view `w` carries the decision of the last view
before `w` in which the replica has signed or recorded one (`BallotInv`, `ElectInv`). The last
is what locks a decision.
-/

namespace Pequin

open Bool List LogEvent

variable {dec : CommitDecision} {view : Nat} {K K' : Knowledge} {fwd : Prop} {srv : Server} {d : Digest} {l l' : Logger}

section

variable (K fwd srv d l)

/-- What an ElectFB with decision `dec` for view `w` says about the record and the decisions
signed. -/
structure ElectInv (dec : CommitDecision) (w : Nat) : Prop where
  entered : w ≤ l.p2.currentView
  recorded : l.p2.hasP2 = true
  locked : ∃ v < w, (1 ≤ v → K.elected dec v) ∧ (setP2 srv d dec v ∈ l.signed ∨ ∀ dec', setP2 srv d dec' v ∉ l.signed) ∧
    (∀ dec' v', setP2 srv d dec' v' ∈ l.signed → v' < w → v' ≤ v) ∧
    (l.p2.decisionView < w → l.p2.decisionView = v ∧ l.p2.p2Decision = dec)

/-- The record and the ballots signed rest on elections. `fwd` says whether a Writeback can be
forwarded. -/
structure BallotInv : Prop where
  view_le : l.p2.decisionView ≤ l.p2.currentView
  unrecorded : l.p2.hasP2 = false → l.p2.decisionView = 0
  elected : l.p2.hasP2 = true → 1 ≤ l.p2.decisionView → K.elected l.p2.p2Decision l.p2.decisionView
  signed : ∀ dec v, setP2 srv d dec v ∈ l.signed → v ≤ l.p2.decisionView ∧ (1 ≤ v → K.elected dec v)
  backed : l.p2.hasP2 = true → setP2 srv d l.p2.p2Decision l.p2.decisionView ∈ l.signed ∨
    l.p2.decisionView = 0 ∧ ∀ dec, setP2 srv d dec 0 ∉ l.signed
  finished : l.p2.hasP2 = false → ∀ dec v, setP2 srv d dec v ∈ l.signed → fwd
  elect : ∀ dec w, .electMessage 0 d dec w ∈ l.signed → ElectInv K srv d l dec w

/-- What is logged or signed is a decision that was voted for. -/
structure BallotsVoted : Prop where
  record : l.p2.hasP2 = true → K.voted l.p2.p2Decision
  signed : ∀ dec v, setP2 srv d dec v ∈ l.signed → K.voted dec
  elect : ∀ dec v, .electMessage 0 d dec v ∈ l.signed → K.voted dec

def Logger.Founded : LogEvent → Prop
  | .shortcut dec => K.voted dec ∧ fwd
  | .log dec _ => K.voted dec ∧ ¬ fwd
  | .record dec _ => K.voted dec
  | .adopt view dec => K.voted dec ∧ K.elected dec view
  | _ => True

end

theorem mem_signed_electMessage {dec' : CommitDecision} {w v : Nat} {signed : List SignedBody} :
    .electMessage 0 d dec w ∈ signed ++ [setP2 srv d dec' v] ↔ .electMessage 0 d dec w ∈ signed := by
  simp [setP2]

namespace BallotsVoted

theorem init (K : Knowledge) (srv : Server) (d : Digest) : BallotsVoted K srv d (Node.logger {}) where
  record h := by cases h
  signed _ _ h := by cases h
  elect _ _ h := by cases h

theorem mono (h : BallotsVoted K srv d l) (hK : K.Le K') : BallotsVoted K' srv d l where
  record hp := hK.voted _ (h.record hp)
  signed dec v hs := hK.voted _ (h.signed dec v hs)
  elect dec v hs := hK.voted _ (h.elect dec v hs)

theorem sign (h : BallotsVoted K srv d l) (hv : K.voted dec) (view : Nat)
    {p : P2MetaData} (hp : p.hasP2 = true → K.voted p.p2Decision) :
    BallotsVoted K srv d ⟨p, l.signed ++ [setP2 srv d dec view]⟩ where
  record := hp
  signed dec' v hs := by
    rcases mem_signed_concat.mp hs with hs | ⟨rfl, -⟩
    · exact h.signed dec' v hs
    · exact hv
  elect dec' v hs := h.elect dec' v (mem_signed_electMessage.mp hs)

theorem signElect (h : BallotsVoted K srv d l) (hp : l.p2.hasP2 = true) (view : Nat) {p : P2MetaData}
    (hrec : p.hasP2 = true → K.voted p.p2Decision) :
    BallotsVoted K srv d ⟨p, l.signed ++ [.electMessage 0 d l.p2.p2Decision view]⟩ where
  record := hrec
  signed dec v hs := h.signed dec v (mem_signed_elect.mp hs)
  elect dec v hs := by
    rcases mem_append.mp hs with hs | hs
    · exact h.elect dec v hs
    · rw [mem_singleton, SignedBody.electMessage.injEq] at hs
      rw [hs.2.2.1]
      exact h.record hp

theorem step (h : BallotsVoted K srv d l) {e : LogEvent} (hf : Logger.Founded K fwd e)
    (hst : l.step srv d e = some l') : BallotsVoted K srv d l' := by
  obtain ⟨hen, rfl⟩ := Logger.step_eq hst
  cases e with
  | reply => exact h.sign (h.record hen) _ h.record
  | shortcut dec => exact h.sign hf.1 _ h.record
  | log dec view =>
    simp only [signs, LogEvent.next, append_nil]
    exact ⟨fun _ => hf.1, h.signed, h.elect⟩
  | record dec view => exact h.sign hf _ fun _ => hf
  | enter view =>
    simp only [signs, LogEvent.next, append_nil]
    exact ⟨h.record, h.signed, h.elect⟩
  | elect view | campaign view =>
    simp only [enabled, and_eq_true] at hen
    exact h.signElect hen.1 _ h.record
  | adopt view dec =>
    refine h.sign hf.1 _ fun hp => ?_
    simp only [LogEvent.next, P2MetaData.adopt] at hp ⊢
    split
    · exact hf.1
    · rename_i hnot
      rw [if_neg hnot] at hp
      exact h.record hp

end BallotsVoted

namespace BallotInv

variable {fwd' : Prop}

theorem init (K : Knowledge) (fwd : Prop) (srv : Server) (d : Digest) : BallotInv K fwd srv d (Node.logger {}) where
  view_le := Nat.le_refl _
  unrecorded _ := rfl
  elected h := by cases h
  signed _ _ h := by cases h
  backed h := by cases h
  finished _ _ _ h := by cases h
  elect _ _ h := by cases h

section

variable (h : BallotInv K fwd srv d l)
include h

theorem mono (hK : K.Le K') (hf : fwd → fwd') : BallotInv K' fwd' srv d l where
  view_le := h.view_le
  unrecorded := h.unrecorded
  elected hp hv := hK.elected _ _ (h.elected hp hv)
  signed dec v hs :=
    ⟨(h.signed dec v hs).1, fun hv => hK.elected _ _ ((h.signed dec v hs).2 hv)⟩
  backed := h.backed
  finished hp dec v hs := hf (h.finished hp dec v hs)
  elect dec w hs := by
    obtain ⟨h₁, h₂, v, hv, h₄, h₅⟩ := h.elect dec w hs
    exact ⟨h₁, h₂, v, hv, fun hv => hK.elected _ _ (h₄ hv), h₅⟩

theorem signRecorded (hp : l.p2.hasP2 = true) :
    BallotInv K fwd srv d ⟨l.p2, l.signed ++ [setP2 srv d l.p2.p2Decision l.p2.decisionView]⟩ where
  view_le := h.view_le
  unrecorded := h.unrecorded
  elected := h.elected
  signed dec v hs := by
    rcases mem_signed_concat.mp hs with hs | ⟨rfl, rfl⟩
    · exact h.signed dec v hs
    · exact ⟨Nat.le_refl _, h.elected hp⟩
  backed _ := .inl (mem_append_right _ (mem_singleton_self _))
  finished hp' := by rw [hp] at hp'; cases hp'
  elect dec w hs := by
    obtain ⟨h₁, h₂, v, hv, h₄, h₅, h₆, h₇⟩ := h.elect dec w (mem_signed_electMessage.mp hs)
    refine ⟨h₁, h₂, v, hv, h₄, ?_, fun dec' v' hs' hv' => ?_, h₇⟩
    · by_cases hlt : l.p2.decisionView < w
      · obtain ⟨hview, hdec⟩ := h₇ hlt
        left
        rw [← hview, ← hdec]
        exact mem_append_right _ (mem_singleton_self _)
      · refine h₅.imp (mem_append_left _) fun hnone dec' hs' => ?_
        rcases mem_signed_concat.mp hs' with hs' | ⟨-, hv'⟩
        · exact hnone dec' hs'
        · omega
    · rcases mem_signed_concat.mp hs' with hs' | ⟨-, rfl⟩
      · exact h₆ dec' v' hs' hv'
      · exact (h₇ hv').1.le

theorem log (hp : l.p2.hasP2 = false) (hview : view = l.p2.decisionView ∨ view = 0)
    (hback : setP2 srv d dec view ∈ l.signed ∨ ∀ dec', setP2 srv d dec' 0 ∉ l.signed) : BallotInv K fwd srv d
      ⟨{ l.p2 with p2Decision := dec, hasP2 := true, decisionView := view }, l.signed⟩ := by
  have hzero : l.p2.decisionView = 0 := h.unrecorded hp
  have hv : view = 0 := by omega
  subst hv
  refine ⟨Nat.zero_le _, nofun, nofun, fun dec' v hs => ?_, fun _ => hback.imp_right fun h => ⟨rfl, h⟩, nofun,
    fun dec' w hs => ?_⟩
  · obtain ⟨hle, hrest⟩ := h.signed dec' v hs
    exact ⟨by dsimp only; omega, hrest⟩
  · have := (h.elect dec' w hs).recorded
    rw [hp] at this
    cases this

theorem move (hv : l.p2.currentView < view) : BallotInv K fwd srv d ⟨{ l.p2 with currentView := view }, l.signed⟩ := by
  have hle := h.view_le
  refine ⟨by dsimp only; omega, h.unrecorded, h.elected, h.signed, h.backed, h.finished, fun dec w hs => ?_⟩
  obtain ⟨h₁, h₂, h₃⟩ := h.elect dec w hs
  exact ⟨by dsimp only; omega, h₂, h₃⟩

theorem signElect (hp : l.p2.hasP2 = true) (hlt : l.p2.decisionView < l.p2.currentView) : BallotInv K fwd srv d
    ⟨l.p2, l.signed ++ [.electMessage 0 d l.p2.p2Decision l.p2.currentView]⟩ where
  view_le := h.view_le
  unrecorded := h.unrecorded
  elected := h.elected
  signed dec v hs := h.signed dec v (mem_signed_elect.mp hs)
  backed hp := (h.backed hp).imp mem_signed_elect.mpr
    fun hz => ⟨hz.1, fun dec hs => hz.2 dec (mem_signed_elect.mp hs)⟩
  finished hp dec v hs := h.finished hp dec v (mem_signed_elect.mp hs)
  elect dec w hs := by
    rcases mem_append.mp hs with hs | hs
    · obtain ⟨h₁, h₂, v, hv, h₄, h₅, h₆, h₇⟩ := h.elect dec w hs
      exact ⟨h₁, h₂, v, hv, h₄, h₅.imp mem_signed_elect.mpr fun hn dec' hs' => hn dec' (mem_signed_elect.mp hs'),
        fun dec' v' hs' => h₆ dec' v' (mem_signed_elect.mp hs'), h₇⟩
    rw [mem_singleton, SignedBody.electMessage.injEq] at hs
    obtain ⟨-, -, rfl, rfl⟩ := hs
    refine ⟨Nat.le_refl _, hp, l.p2.decisionView, hlt, h.elected hp, ?_, ?_, fun _ => ⟨rfl, rfl⟩⟩
    · refine (h.backed hp).imp mem_signed_elect.mpr fun hz dec' hs' => ?_
      have hs'' := mem_signed_elect.mp hs'
      rw [hz.1] at hs''
      exact hz.2 dec' hs''
    · exact fun dec' v' hs' _ => (h.signed dec' v' (mem_signed_elect.mp hs')).1

theorem adopt (hK : ∀ dec, ¬ K.elected dec 0) (hv : l.p2.currentView ≤ view) (helected : K.elected dec view) :
    BallotInv K fwd srv d ⟨l.p2.adopt view dec, l.signed ++ [setP2 srv d dec view]⟩ := by
  have hle := h.view_le
  have hpos : 1 ≤ view := by
    rcases Nat.eq_zero_or_pos view with rfl | hpos
    · exact absurd helected (hK dec)
    · exact hpos
  -- no ElectFB of the replica is for a later view, so what it locked is not touched
  have helect : ∀ (p : P2MetaData), p.currentView = view → p.hasP2 = true →
      (p.decisionView = view ∨ p.decisionView = l.p2.decisionView ∧ p.p2Decision = l.p2.p2Decision) →
      ∀ dec' w, .electMessage 0 d dec' w ∈ l.signed ++ [setP2 srv d dec view] →
        ElectInv K srv d ⟨p, l.signed ++ [setP2 srv d dec view]⟩ dec' w := by
    intro p hcv hp hdec dec' w hs
    obtain ⟨h₁, h₂, v, hvw, h₄, h₅, h₆, h₇⟩ := h.elect dec' w (mem_signed_electMessage.mp hs)
    refine ⟨by dsimp only; omega, hp, v, hvw, h₄, ?_, fun dec₁ v₁ hs₁ hv₁ => ?_, fun hlt => ?_⟩
    · refine h₅.imp (mem_append_left _) fun hnone dec₁ hs₁ => ?_
      rcases mem_signed_concat.mp hs₁ with hs₁ | ⟨-, hv₁⟩
      · exact hnone dec₁ hs₁
      · omega
    · rcases mem_signed_concat.mp hs₁ with hs₁ | ⟨-, rfl⟩
      · exact h₆ dec₁ v₁ hs₁ hv₁
      · omega
    · dsimp only at hlt ⊢
      rcases hdec with hdec | ⟨hdec, hdec'⟩
      · omega
      · rw [hdec, hdec']
        exact h₇ (by omega)
  rw [P2MetaData.adopt]
  split
  · rename_i hlt
    refine ⟨Nat.le_refl _, fun hp => (by cases hp), fun _ _ => helected,
      fun dec' v' hs => ?_, fun _ => .inl (mem_append_right _ (mem_singleton_self _)),
      fun hp => (by cases hp), helect _ rfl rfl (.inl rfl)⟩
    rcases mem_signed_concat.mp hs with hs | ⟨rfl, rfl⟩
    · obtain ⟨hle', hrest⟩ := h.signed dec' v' hs
      exact ⟨by dsimp only; omega, hrest⟩
    · exact ⟨Nat.le_refl _, fun _ => helected⟩
  · rename_i hnot
    have hp : l.p2.hasP2 = true := by
      by_contra hp
      rw [not_eq_true] at hp
      have := h.unrecorded hp
      omega
    refine ⟨by dsimp only; omega, h.unrecorded, h.elected, fun dec' v' hs => ?_, fun _ => ?_,
      fun hp' => (by rw [hp] at hp'; cases hp'), helect _ rfl hp (.inr ⟨rfl, rfl⟩)⟩
    · rcases mem_signed_concat.mp hs with hs | ⟨rfl, rfl⟩
      · exact h.signed dec' v' hs
      · exact ⟨by dsimp only; omega, fun _ => helected⟩
    · rcases h.backed hp with hs | ⟨hz, -⟩
      · exact .inl (mem_append_left _ hs)
      · omega

end

theorem signUnrecorded {fwd' : Prop} {dec : CommitDecision} (h : BallotInv K fwd srv d l) (hp : l.p2.hasP2 = false)
    (hfwd : fwd') : BallotInv K fwd' srv d ⟨l.p2, l.signed ++ [setP2 srv d dec 0]⟩ := by
  refine ⟨h.view_le, h.unrecorded, h.elected, fun dec' v hs => ?_, fun hp' => (by rw [hp] at hp'; cases hp'),
    fun _ _ _ _ => hfwd, fun dec' w hs => ?_⟩
  · rcases mem_signed_concat.mp hs with hs | ⟨rfl, rfl⟩
    · exact h.signed dec' v hs
    · exact ⟨Nat.zero_le _, nofun⟩
  · have := (h.elect dec' w (mem_signed_electMessage.mp hs)).recorded
    rw [hp] at this
    cases this

theorem step (h : BallotInv K fwd srv d l) (hK : ∀ dec, ¬ K.elected dec 0) {e : LogEvent}
    (hf : Logger.Founded K fwd e) (hne : ∀ view, e ≠ .elect view)
    (hst : l.step srv d e = some l') : BallotInv K fwd srv d l' := by
  obtain ⟨hen, rfl⟩ := Logger.step_eq hst
  cases e with
  | reply => exact h.signRecorded hen
  | shortcut dec =>
    have hp : l.p2.hasP2 = false := by simpa [enabled] using hen
    exact h.signUnrecorded hp hf.2
  | log dec view =>
    simp only [enabled, and_eq_true, not_eq_true', or_eq_true, beq_iff_eq] at hen
    simp only [signs, LogEvent.next, append_nil]
    exact h.log hen.1 hen.2 (.inr fun dec' hs => hf.2 (h.finished hen.1 dec' 0 hs))
  | record dec view =>
    simp only [enabled, and_eq_true, not_eq_true', or_eq_true, beq_iff_eq] at hen
    obtain ⟨hp, hview⟩ := hen
    have hzero := h.unrecorded hp
    have hv : view = 0 := by omega
    subst hv
    -- sign first: then the decision on record is a signed one
    have hsign : BallotInv K True srv d ⟨l.p2, l.signed ++ [setP2 srv d dec 0]⟩ := h.signUnrecorded hp trivial
    have hlog := hsign.log hp (.inr rfl) (.inl (mem_append_right _ (mem_singleton_self _)))
    exact ⟨hlog.view_le, hlog.unrecorded, hlog.elected, hlog.signed, hlog.backed, fun hp => (by cases hp), hlog.elect⟩
  | enter view =>
    simp only [enabled, decide_eq_true_eq] at hen
    simp only [signs, LogEvent.next, append_nil]
    exact h.move hen
  | elect view => exact absurd rfl (hne view)
  | campaign view =>
    simp only [enabled, and_eq_true, decide_eq_true_eq] at hen
    have hle := h.view_le
    exact (h.move hen.2).signElect hen.1 (by dsimp only; omega)
  | adopt view dec =>
    simp only [enabled, decide_eq_true_eq] at hen
    exact h.adopt hK hen hf.2

end BallotInv

end Pequin
