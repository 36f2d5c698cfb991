import Pequin.Proof.Agreement

/-!
# View changes in the all-to-all mode

A replica that is asked to invoke the fallback votes for its recorded decision in the election of the view after its
current one, and stays where it is until enough MoveView messages have arrived. Until then it can still adopt the
decision of the leader of its current view, and it votes again when it is asked again. So an ElectFB for view `v` binds
it only in part (`elect_then_signed`):

* the decision of a later ElectFB for `v` is the same, unless the replica has adopted another one for the view before
  `v` in between, which happens once at most;
* a Phase2 decision signed later for a view below `v` is the one it voted for, or of the view before `v`.
-/

namespace Pequin

open List LogEvent SignedBody World

variable {view u : Nat} {dec' : CommitDecision}

theorem concat_eq_append_cons {α : Type*} {l l₁ l₂ : List α} {a b : α} (h : l ++ [b] = l₁ ++ a :: l₂) :
    (l₂ = [] ∧ l = l₁ ∧ b = a) ∨ ∃ l₃, l₂ = l₃ ++ [b] ∧ l = l₁ ++ a :: l₃ := by
  rcases eq_nil_or_concat l₂ with rfl | ⟨l₃, b', rfl⟩
  · obtain ⟨h₁, h₂⟩ := append_inj' h rfl
    exact .inl ⟨rfl, h₁, singleton_inj.mp h₂⟩
  · rw [concat_eq_append, ← cons_append, ← append_assoc] at h
    obtain ⟨h₁, h₂⟩ := append_inj' h rfl
    rw [concat_eq_append, singleton_inj.mp h₂]
    exact .inr ⟨l₃, rfl, h₁⟩

section Machine

variable {srv : Server} {d : Digest}

/-- In the all-to-all mode, elections are of the view after the current one. -/
def LogEvent.AllToAll (l : Logger) : LogEvent → Prop
  | .campaign view => view = (l.p2.currentView + 1) % 2 ^ 64
  | _ => True

/-- What holds of the record `p` and the ballots `later` that follow an ElectFB for view `v` with `dec`, signed in view
`cv` with the decision of view `dv`. -/
structure Since (srv : Server) (d : Digest) (p : P2MetaData) (dec : CommitDecision) (v cv dv : Nat)
    (later : List SignedBody) : Prop where
  view : v = (cv + 1) % 2 ^ 64
  cv_le : cv ≤ p.currentView
  recorded : p.hasP2 = true
  stored : p.p2Decision = dec ∧ p.decisionView = dv ∨
    cv ≤ p.decisionView ∧ setP2 srv d p.p2Decision p.decisionView ∈ later
  decisions : ∀ dec' u, setP2 srv d dec' u ∈ later → dec' = dec ∧ u = dv ∨ cv ≤ u
  elects : p.currentView < 2 ^ 64 → ∀ m₁ dec' m₂, later = m₁ ++ .electMessage 0 d dec' v :: m₂ →
    dec' ≠ dec → setP2 srv d dec' cv ∈ m₁ ∧ ∀ dec'', .electMessage 0 d dec'' v ∈ m₂ → dec'' = dec'
  switched : p.currentView < 2 ^ 64 → ∀ dec' ≠ dec, .electMessage 0 d dec' v ∈ later →
    cv ≤ p.decisionView ∧ (p.decisionView = cv → p.p2Decision = dec')

/-- Since an election vote, the decision changed only in its view or later ones. -/
structure ViewInv (srv : Server) (d : Digest) (l : Logger) : Prop where
  view_le : l.p2.decisionView ≤ l.p2.currentView
  since : ∀ l₁ dec v later, l.signed = l₁ ++ .electMessage 0 d dec v :: later →
    ∃ cv dv, Since srv d l.p2 dec v cv dv later

namespace Since

variable {p p' : P2MetaData} {dec : CommitDecision} {v cv dv : Nat} {later : List SignedBody}

section

variable (h : Since srv d p dec v cv dv later)
include h

theorem move (hv : p.currentView ≤ view) : Since srv d { p with currentView := view } dec v cv dv later where
  view := h.view
  cv_le := h.cv_le.trans hv
  recorded := h.recorded
  stored := h.stored
  decisions := h.decisions
  elects hfit := h.elects (by dsimp only at hfit; omega)
  switched hfit := h.switched (by dsimp only at hfit; omega)

theorem decision (hd : dec' = dec ∧ u = dv ∨ cv ≤ u) : Since srv d p dec v cv dv (later ++ [setP2 srv d dec' u]) where
  view := h.view
  cv_le := h.cv_le
  recorded := h.recorded
  stored := h.stored.imp_right fun ⟨h₁, h₂⟩ => ⟨h₁, mem_append_left _ h₂⟩
  decisions dec₁ u₁ hm := by
    rcases mem_signed_concat.mp hm with hm | ⟨rfl, rfl⟩
    · exact h.decisions dec₁ u₁ hm
    · exact hd
  elects hfit m₁ dec₁ m₂ hl hne := by
    rcases concat_eq_append_cons hl with ⟨-, -, hbad⟩ | ⟨m₃, rfl, hl'⟩
    · cases hbad
    · obtain ⟨h₁, h₂⟩ := h.elects hfit m₁ dec₁ m₃ hl' hne
      exact ⟨h₁, fun dec₂ hm => h₂ dec₂ (mem_signed_electMessage.mp hm)⟩
  switched hfit dec₁ hne hm := h.switched hfit dec₁ hne (mem_signed_electMessage.mp hm)

theorem recorded_ok : p.p2Decision = dec ∧ p.decisionView = dv ∨ cv ≤ p.decisionView :=
  h.stored.imp_right fun h => h.1

theorem adopt (hu : p.currentView ≤ u) (hlt : p.decisionView < u) :
    Since srv d { p with currentView := u, decisionView := u, p2Decision := dec', hasP2 := true } dec v cv dv
      (later ++ [setP2 srv d dec' u]) := by
  have hcv := h.cv_le
  have hmove : Since srv d { p with currentView := u } dec v cv dv (later ++ [setP2 srv d dec' u]) :=
    (h.move hu).decision (.inr (by omega))
  refine ⟨h.view, by dsimp only; omega, rfl,
    .inr ⟨by dsimp only; omega, mem_append_right _ (mem_singleton_self _)⟩, hmove.decisions,
    hmove.elects, fun hfit dec₁ hne hm => ?_⟩
  -- what was switched to before is of an earlier view
  obtain ⟨hle, -⟩ := hmove.switched hfit dec₁ hne hm
  dsimp only at hle ⊢
  exact ⟨by omega, fun heq => by omega⟩

theorem view_eq (hfit : p.currentView < 2 ^ 64) (hv : v = (p.currentView + 1) % 2 ^ 64) : p.currentView = cv := by
  have h₁ := h.view
  have h₂ := h.cv_le
  omega

theorem elect (hle : p.decisionView ≤ p.currentView) (hview : view = (p.currentView + 1) % 2 ^ 64) :
    Since srv d p dec v cv dv (later ++ [.electMessage 0 d p.p2Decision view]) where
  view := h.view
  cv_le := h.cv_le
  recorded := h.recorded
  stored := h.stored.imp_right fun ⟨h₁, h₂⟩ => ⟨h₁, mem_append_left _ h₂⟩
  decisions dec₁ u₁ hm := h.decisions dec₁ u₁ (mem_signed_elect.mp hm)
  elects hfit m₁ dec₁ m₂ hl hne := by
    rcases concat_eq_append_cons hl with ⟨rfl, rfl, heq⟩ | ⟨m₃, rfl, hl'⟩
    · -- the new ElectFB is the first with another decision
      simp only [electMessage.injEq, true_and] at heq
      obtain ⟨rfl, rfl⟩ := heq
      have hcv := h.view_eq hfit hview
      obtain ⟨hcv', hmem⟩ := h.stored.resolve_left fun hs => hne hs.1
      have hdv : p.decisionView = cv := by omega
      rw [hdv] at hmem
      exact ⟨hmem, nofun⟩
    · obtain ⟨h₁, h₂⟩ := h.elects hfit m₁ dec₁ m₃ hl' hne
      refine ⟨h₁, fun dec₂ hm => ?_⟩
      rcases mem_append.mp hm with hm | hm
      · exact h₂ dec₂ hm
      have heq := mem_singleton.mp hm
      simp only [electMessage.injEq, true_and] at heq
      obtain ⟨rfl, rfl⟩ := heq
      have hcv := h.view_eq hfit hview
      have hmem : .electMessage 0 d dec₁ v ∈ later := by
        rw [hl']
        exact mem_append_right _ mem_cons_self
      obtain ⟨h₃, h₄⟩ := h.switched hfit dec₁ hne hmem
      exact h₄ (by omega)
  switched hfit dec₁ hne hm := by
    rcases mem_append.mp hm with hm | hm
    · exact h.switched hfit dec₁ hne hm
    · have heq := mem_singleton.mp hm
      simp only [electMessage.injEq, true_and] at heq
      obtain ⟨rfl, rfl⟩ := heq
      exact ⟨(h.stored.resolve_left fun hs => hne hs.1).1, fun _ => rfl⟩

end

theorem first (hp : p.hasP2 = true) :
    Since srv d p p.p2Decision ((p.currentView + 1) % 2 ^ 64) p.currentView p.decisionView [] where
  view := rfl
  cv_le := Nat.le_refl _
  recorded := hp
  stored := .inl ⟨rfl, rfl⟩
  decisions _ _ hm := by cases hm
  elects _ m₁ _ m₂ hl := by simp at hl
  switched _ _ _ hm := by cases hm

end Since

namespace ViewInv

variable {l l' : Logger}

theorem quiet (h : ViewInv srv d l) {p : P2MetaData} (hle : p.decisionView ≤ p.currentView)
    (hs : ∀ {dec v cv dv later}, Since srv d l.p2 dec v cv dv later → Since srv d p dec v cv dv later) :
    ViewInv srv d ⟨p, l.signed⟩ :=
  ⟨hle, fun l₁ dec v later hl =>
    have ⟨cv, dv, hsince⟩ := h.since l₁ dec v later hl
    ⟨cv, dv, hs hsince⟩⟩

theorem decision (h : ViewInv srv d l) {p : P2MetaData} (hle : p.decisionView ≤ p.currentView)
    (hs : ∀ {dec v cv dv later}, Since srv d l.p2 dec v cv dv later →
      Since srv d p dec v cv dv (later ++ [setP2 srv d dec' u])) :
    ViewInv srv d ⟨p, l.signed ++ [setP2 srv d dec' u]⟩ := by
  refine ⟨hle, fun l₁ dec v later hl => ?_⟩
  rcases concat_eq_append_cons hl with ⟨-, -, hbad⟩ | ⟨later', rfl, hl'⟩
  · cases hbad
  · obtain ⟨cv, dv, hsince⟩ := h.since l₁ dec v later' hl'
    exact ⟨cv, dv, hs hsince⟩

theorem elect (h : ViewInv srv d l) (hp : l.p2.hasP2 = true) (hview : view = (l.p2.currentView + 1) % 2 ^ 64) :
    ViewInv srv d ⟨l.p2, l.signed ++ [.electMessage 0 d l.p2.p2Decision view]⟩ := by
  refine ⟨h.view_le, fun l₁ dec v later hl => ?_⟩
  rcases concat_eq_append_cons hl with ⟨rfl, -, heq⟩ | ⟨later', rfl, hl'⟩
  · simp only [electMessage.injEq, true_and] at heq
    obtain ⟨rfl, rfl⟩ := heq
    rw [hview]
    exact ⟨_, _, Since.first hp⟩
  · obtain ⟨cv, dv, hsince⟩ := h.since l₁ dec v later' hl'
    exact ⟨cv, dv, hsince.elect h.view_le hview⟩

theorem step (h : ViewInv srv d l) {e : LogEvent} (ha : e.AllToAll l) (hst : l.step srv d e = some l') :
    ViewInv srv d l' := by
  obtain ⟨hen, rfl⟩ := Logger.step_eq hst
  -- before the first decision is on record there is no ElectFB
  have hfirst : l.p2.hasP2 = false → ∀ {p dec v cv dv later later'}, Since srv d l.p2 dec v cv dv later →
      Since srv d p dec v cv dv later' := fun hp _ _ _ _ _ _ _ hs => by
    rw [hs.recorded] at hp
    cases hp
  have hle := h.view_le
  cases e with
  | reply => exact h.decision hle fun hs => hs.decision hs.recorded_ok
  | shortcut dec => exact h.decision hle (hfirst (by simpa [enabled] using hen))
  | log dec view =>
    simp only [enabled, Bool.and_eq_true, Bool.not_eq_true', Bool.or_eq_true, beq_iff_eq] at hen
    simp only [signs, LogEvent.next, append_nil]
    exact h.quiet (by dsimp only; omega) (hfirst hen.1)
  | record dec view =>
    simp only [enabled, Bool.and_eq_true, Bool.not_eq_true', Bool.or_eq_true, beq_iff_eq] at hen
    exact h.decision (by dsimp only [LogEvent.next]; omega) (hfirst hen.1)
  | enter view =>
    simp only [enabled, decide_eq_true_eq] at hen
    simp only [signs, LogEvent.next, append_nil]
    exact h.quiet (by dsimp only; omega) fun hs => hs.move hen.le
  | elect view =>
    simp only [enabled, Bool.and_eq_true, beq_iff_eq] at hen
    exact h.elect hen.1 hen.2
  | campaign view =>
    simp only [enabled, Bool.and_eq_true, decide_eq_true_eq] at hen
    have helect := h.elect hen.1 ha
    exact helect.quiet (by dsimp only [LogEvent.next]; omega) fun hs => hs.move hen.2.le
  | adopt view dec =>
    simp only [enabled, decide_eq_true_eq] at hen
    simp only [signs, LogEvent.next, P2MetaData.adopt]
    split
    · exact h.decision (Nat.le_refl _) fun hs => hs.adopt hen ‹_›
    · refine h.decision (by dsimp only; omega) fun hs => (hs.move hen).decision (.inr ?_)
      exact hs.cv_le.trans hen

end ViewInv

end Machine

/-! ## In the cluster -/

section Runs

variable {c : Cluster} {es : List Event} {w : World}

theorem viewInv_of_allToAll (hmode : c.allToAllFb = true)
    (h : Run.exec (step c) init es = some w) (r : Nat) (d : Digest) : ViewInv (c.server r) d (w r d).logger := by
  refine logger_invariant (P := fun r d nd => ViewInv (c.server r) d nd.logger)
    (fun r d => ⟨Nat.le_refl _, fun l₁ dec v later hl => ?_⟩) ?_ (Run.meets_true _ _) h r d
  · have hnil : ([] : List SignedBody) = l₁ ++ .electMessage 0 d dec v :: later := hl
    simp at hnil
  intro w e nd nd' _ _ _ _ hreach hP
  refine hreach.invariant (fun hP ha hs => hP.step ?_ hs) hP
  rename_i ev _
  cases ev with
  | campaign view => exact ha.1 hmode
  | _ => trivial

theorem electMessage_own (h : Run.exec (step c) init es = some w) {r q v : Nat} {d : Digest}
    {dec : CommitDecision} (hb : .electMessage q d dec v ∈ (w r d).signed) : q = 0 := by
  have hmem : electMessage q d dec v ∈ (w r d).logger.signed := mem_filter.mpr ⟨hb, rfl⟩
  rcases ballots_own h r d _ hmem with ⟨dec', v', heq⟩ | ⟨dec', v', heq⟩
  · cases heq
  · simp only [electMessage.injEq] at heq
    exact heq.1

/-- What a replica signs after an ElectFB for view `v` with `dec`, in the all-to-all mode: another decision in an
ElectFB for `v` only after it has signed that for the view before, and never the first one again; no Phase2 decision for
a view below `v`, but for the view before it and the decision recorded at the time. -/
theorem elect_then_signed (hmode : c.allToAllFb = true)
    (h : Run.exec (World.step c) World.init es = some w) {r : Nat} {d : Digest}
    (hfit : (w r d).state.p2.currentView < 2 ^ 64) {q v : Nat} {dec : CommitDecision}
    {earlier later : List SignedBody} (hs : (w r d).signed = earlier ++ .electMessage q d dec v :: later) :
    (∀ q' dec' m₁ m₂, later = m₁ ++ .electMessage q' d dec' v :: m₂ → dec' ≠ dec →
      (∃ g u, .phase2Decision dec' d g u ∈ m₁ ∧ v = (u + 1) % 2 ^ 64) ∧
      ∀ q'' dec'', .electMessage q'' d dec'' v ∈ m₂ → dec'' = dec') ∧
    ∃ dv, ∀ dec' g u, .phase2Decision dec' d g u ∈ later → u < v → dec' = dec ∧ u = dv ∨ u + 1 = v := by
  have hown : ∀ {q₁ dec₁}, .electMessage q₁ d dec₁ v ∈ later → q₁ = 0 := fun hb =>
    electMessage_own h (by rw [hs]; exact mem_append_right _ (mem_cons_of_mem _ hb))
  have hown' : ∀ {dec₁ g₁ u₁}, .phase2Decision dec₁ d g₁ u₁ ∈ later → g₁ = (c.server r).groupIdx :=
    fun hb => (phase2Decision_own h (by
      rw [hs]; exact mem_append_right _ (mem_cons_of_mem _ hb))).2.2
  have hq : q = 0 := electMessage_own h (by rw [hs]; exact mem_append_right _ mem_cons_self)
  have hlog : (w r d).logger.signed = earlier.filter isBallot ++ .electMessage 0 d dec v :: later.filter isBallot := by
    rw [Node.logger, hs, hq, filter_append]
    rfl
  obtain ⟨cv, dv, hsince⟩ := (viewInv_of_allToAll hmode h r d).since _ dec v _ hlog
  refine ⟨fun q' dec' m₁ m₂ hl hne => ?_, dv, fun dec' g u hm hu => ?_⟩
  · have hq' : q' = 0 := hown (by rw [hl]; exact mem_append_right _ mem_cons_self)
    have hfilter : later.filter isBallot = m₁.filter isBallot ++ .electMessage 0 d dec' v :: m₂.filter isBallot := by
      rw [hl, hq', filter_append]
      rfl
    obtain ⟨hdec, hlast⟩ := hsince.elects hfit _ dec' _ hfilter hne
    refine ⟨⟨_, cv, (mem_filter.mp hdec).1, hsince.view⟩, fun q'' dec'' hm => ?_⟩
    have hq'' : q'' = 0 := hown (by
      rw [hl]; exact mem_append_right _ (mem_cons_of_mem _ hm))
    exact hlast dec'' (mem_filter.mpr ⟨hq'' ▸ hm, rfl⟩)
  · have hmem : setP2 (c.server r) d dec' u ∈ later.filter isBallot := by
      refine mem_filter.mpr ⟨?_, rfl⟩
      rw [setP2, ← hown' hm]
      exact hm
    have hview := hsince.view
    rcases hsince.decisions dec' u hmem with hstored | hle
    · exact .inl hstored
    · right
      have := Nat.mod_le (cv + 1) (2 ^ 64)
      omega

end Runs

/-! ## A replica that votes twice

In the all-to-all mode, replica 1 has recorded COMMIT and is moved to view 1. It votes COMMIT
in the election of view 2, adopts the ABORT of the leader of view 1, and votes ABORT in the
election of view 2. -/

def sixReplicasAllToAll : Cluster := { sixReplicas with allToAllFb := true }

/-- The election of view 1, three MoveViews and the leader's ABORT for replica 1. -/
def twoVotesRun : List Event :=
  splitDecisions ++
  [0, 1, 2, 3, 4].map (.deliver · (.invoke [4] 0 []) .commit) ++
  List.replicate 2 (.deliver 1 (.moveView [4] 1) .commit) ++
  [.deliver 1 (.invoke [4] 0 []) .commit] ++
  Event.handle [4] (.decide [4] .abort 1 [3, 4, 5]) .commit 1 ++
  [.deliver 1 (.invoke [4] 0 []) .commit]

theorem twoVotesRun_signed : ∃ w, Run.exec (step sixReplicasAllToAll) init twoVotesRun = some w ∧
    (w 1 [4]).state.p2.currentView = 1 ∧ (w 1 [4]).signed =
      [.concurrencyControl .commit [4] 0, .phase2Decision .commit [4] 0 0, .electMessage 0 [4] .commit 1] ++
      .electMessage 0 [4] .commit 2 :: [.phase2Decision .abort [4] 0 1, .electMessage 0 [4] .abort 2] := by
  have hany : (Run.exec (step sixReplicasAllToAll) init twoVotesRun).any (fun w =>
      decide ((w 1 [4]).state.p2.currentView = 1 ∧ (w 1 [4]).signed =
        [.concurrencyControl .commit [4] 0, .phase2Decision .commit [4] 0 0, .electMessage 0 [4] .commit 1,
          .electMessage 0 [4] .commit 2, .phase2Decision .abort [4] 0 1,
          .electMessage 0 [4] .abort 2])) = true := by decide +kernel
  obtain ⟨w, hw, hp⟩ := Run.exec_of_any hany
  exact ⟨w, hw, of_decide_eq_true hp⟩

theorem two_votes_run : sixReplicasAllToAll.Tolerant ∧ sixReplicasAllToAll.allToAllFb = true ∧
    sixReplicasAllToAll.byzantine 1 = false ∧
    ∃ w earlier later, Run.exec (World.step sixReplicasAllToAll) World.init twoVotesRun = some w ∧
      (w 1 [4]).signed = earlier ++ .electMessage 0 [4] .commit 2 :: later ∧
      .electMessage 0 [4] .abort 2 ∈ later ∧ .phase2Decision .abort [4] 0 1 ∈ later := by
  obtain ⟨w, hw, -, hs⟩ := twoVotesRun_signed
  exact ⟨⟨sixReplicas_tolerant.n_eq, sixReplicas_tolerant.faulty⟩, rfl, rfl, w, _, _, hw, hs, by decide, by decide⟩

/-- Replica 1 votes ABORT in the election of view 2 because it has adopted ABORT for view 1. -/
theorem elect_then_signed_twoVotesRun : ∃ w, Run.exec (World.step sixReplicasAllToAll) World.init twoVotesRun = some w ∧
    (w 1 [4]).state.p2.currentView < 2 ^ 64 ∧
    ∃ g u, SignedBody.phase2Decision .abort [4] g u ∈ [SignedBody.phase2Decision .abort [4] 0 1] ∧
      2 = (u + 1) % 2 ^ 64 := by
  obtain ⟨w, hw, hcv, hs⟩ := twoVotesRun_signed
  have hfit : (w 1 [4]).state.p2.currentView < 2 ^ 64 := by rw [hcv]; decide
  have h := elect_then_signed rfl hw hfit hs
  exact ⟨w, hw, hfit, (h.1 0 .abort [.phase2Decision .abort [4] 0 1] [] rfl (by decide)).1⟩

/-! ## Leaders of consecutive views -/

/-- Consecutive numbers stay apart unless they wrap around in between and that matters. -/
theorem wrapped_injective_iff {n x : Nat} (hn : n ≤ 2 ^ 64) :
    (∀ i < n, ∀ j < n, (x + i) % 2 ^ 64 % n = (x + j) % 2 ^ 64 % n → i = j) ↔
      (∀ k < n, 0 < k → (x + k) % 2 ^ 64 ≠ 0) ∨ n ∣ 2 ^ 64 := by
  constructor
  · intro h
    by_contra! hnot
    obtain ⟨⟨k, hk, hpos, hzero⟩, hdvd⟩ := hnot
    have hr : 2 ^ 64 % n ≠ 0 := fun hr => hdvd (Nat.dvd_of_mod_eq_zero hr)
    have hr' : 2 ^ 64 % n < n := Nat.mod_lt _ (by omega)
    -- `m` before the wrap meets `q` after it
    obtain ⟨m, q, hm, hmk, hq, hsum⟩ : ∃ m q, 0 < m ∧ m ≤ k ∧ k + q < n ∧ m + q = 2 ^ 64 % n := by
      rcases le_total (2 ^ 64 % n) k with hle | hle
      · exact ⟨2 ^ 64 % n, 0, by omega, hle, by omega, rfl⟩
      · exact ⟨k, 2 ^ 64 % n - k, hpos, le_rfl, by omega, by omega⟩
    have hmeet : (2 ^ 64 - m) % n = q % n := by
      have := Nat.div_add_mod (2 ^ 64) n
      rw [show 2 ^ 64 - m = n * (2 ^ 64 / n) + q by omega, Nat.mul_add_mod]
    have := h (k - m) (by omega) (k + q) hq (by
      rwa [show (x + (k - m)) % 2 ^ 64 = 2 ^ 64 - m by omega, show (x + (k + q)) % 2 ^ 64 = q by omega])
    omega
  · intro h i hi j hj heq
    wlog hij : i ≤ j generalizing i j
    · exact (this j hj i hi heq.symm (by omega)).symm
    have hmod : (j - i) % n = 0 := by
      rcases h with hwrap | hdvd
      · have hstep : (x + j) % 2 ^ 64 = (x + i) % 2 ^ 64 + (j - i) := by
          have := hwrap (i + (2 ^ 64 - (x + i) % 2 ^ 64))
          omega
        rw [hstep] at heq
        simpa using Nat.sub_mod_eq_zero_of_mod_eq heq.symm
      · rw [Nat.mod_mod_of_dvd _ hdvd, Nat.mod_mod_of_dvd _ hdvd] at heq
        simpa [Nat.add_sub_add_left] using Nat.sub_mod_eq_zero_of_mod_eq heq.symm
    rw [Nat.mod_eq_of_lt (by omega)] at hmod
    omega

/-- What the first byte of a digest adds to a view. -/
def signedByte (d : Digest) : Nat :=
  if (d.headD 0).toNat < 128 then (d.headD 0).toNat else 2 ^ 64 - 256 + (d.headD 0).toNat

/-- As many views as replicas elect different leaders iff no sum but the first wraps around to 0, or the number of
replicas divides `2 ^ 64`. The leader a vote is sent to takes it for its own. -/
theorem leaders_rotate_iff (srv : Server) (d : Digest) (view : Nat) (hn : 0 < srv.config.n)
    (hview : view + srv.config.n ≤ 2 ^ 64) : (∀ v, leaderIdx srv d v < srv.config.n) ∧
    (∀ srv', srv'.config = srv.config → ∀ dec v,
      leaderIdx srv' d ((electMessage 0 d dec v).wire.varint 4) = leaderIdx srv d v) ∧
    ((∀ i < srv.config.n, ∀ j < srv.config.n, leaderIdx srv d (view + i) = leaderIdx srv d (view + j) → i = j) ↔
      (∀ k < srv.config.n, 0 < k → (view + k + signedByte d) % 2 ^ 64 ≠ 0) ∨ srv.config.n ∣ 2 ^ 64) := by
  have heq v : leaderIdx srv d v = (v + signedByte d) % 2 ^ 64 % srv.config.n := rfl
  refine ⟨fun v => Nat.mod_lt _ hn, fun srv' hc dec v => by rw [leaderIdx, hc]; rfl, ?_⟩
  simpa only [heq, Nat.add_right_comm view (signedByte d)] using
    wrapped_injective_iff (x := view + signedByte d) (show srv.config.n ≤ 2 ^ 64 by omega)

theorem leaders_rotate_iff_six : leaderIdx (sixReplicas.server 0) [255] 1 ≠ leaderIdx (sixReplicas.server 0) [255] 5 ∧
    leaderIdx (sixReplicas.server 0) [255] 1 < 6 := by
  obtain ⟨hlt, -, hiff⟩ := leaders_rotate_iff (sixReplicas.server 0) [255] 1 (by decide) (by decide)
  exact ⟨fun h => absurd (hiff.mpr (.inl (by decide)) 0 (by decide) 4 (by decide) h) (by decide), hlt 1⟩

/-- A digest that starts with -2 makes replica 3 the leader of views 1 and 5. -/
theorem leader_repeated : leaderIdx (sixReplicas.server 0) [254] 1 = 3 ∧
    leaderIdx (sixReplicas.server 0) [254] 5 = 3 := by decide

end Pequin
