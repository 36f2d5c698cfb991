import Pequin.Model.Elections
import Pequin.Proof.VoteCertificates

/-!
# MoveView quorums

A replica counts the MoveView messages for a view, with its own, and keeps no senders. In a run without repeated
senders, a view is entered with `2f + 1` and an own MoveView sent with `f + 1` distinct senders (`moveView_quorums`).
-/

namespace Pequin

open Bool Function List

variable {srv : Server} {d : Digest} {st st' : TxnState} {view : Nat} {es : List MoveEvent}

def TxnState.moveCount (st : TxnState) (view : Nat) : Nat × Bool := (st.elect.getD {}).moveViewCounts view

/-- What one MoveView, or the own one, changes. -/
structure MoveStep (srv : Server) (view : Nat) (own : Bool) (st st' : TxnState) : Prop where
  other : ∀ v, v ≠ view → st'.moveCount v = st.moveCount v
  closes : (st'.moveCount view).2 = true → (st.moveCount view).2 = true
  /-- The count grows by the message, and by the own MoveView when it is sent. -/
  count : (st'.moveCount view).1 = (st.moveCount view).1 + (if own then 0 else 1) +
    (if (st.moveCount view).2 && !(st'.moveCount view).2 then 1 else 0)
  /-- Without an InvokeFB the own MoveView is sent on the message that makes the count `f + 1`. -/
  amplify : own = false → (st.moveCount view).2 = true → (st'.moveCount view).2 = false →
    (st.moveCount view).1 = srv.config.f
  enter : st'.p2.currentView = st.p2.currentView ∨
    st'.p2.currentView = view ∧ (st'.moveCount view).1 = 2 * srv.config.f + 1

theorem MoveStep.of_update (n' : Nat) (o' : Bool) {n : Nat} {own o : Bool} {p2 : P2MetaData}
    (hc : st.moveCount view = (n, o)) (heq : st' = { st with
      elect := some { st.elect.getD {} with
        moveViewCounts := update (st.elect.getD {}).moveViewCounts view (n', o') }
      p2 := p2 })
    (hcloses : o' = true → o = true) (hcount : n' = n + (if own then 0 else 1) + (if o && !o' then 1 else 0))
    (hamplify : own = false → o = true → o' = false → n = srv.config.f)
    (henter : p2.currentView = st.p2.currentView ∨ p2.currentView = view ∧ n' = 2 * srv.config.f + 1) :
    MoveStep srv view own st st' := by
  have hat : st'.moveCount view = (n', o') := by
    rw [heq]
    exact update_self ..
  refine ⟨fun v hv => ?_, ?_, ?_, ?_, ?_⟩
  · rw [heq]
    exact update_of_ne hv ..
  · rw [hat, hc]
    exact hcloses
  · rw [hat, hc]
    exact hcount
  · rw [hat, hc]
    exact hamplify
  · rw [hat, heq]
    exact henter

theorem enter_of_count (ahead : Bool) (count : Nat) {n' : Nat} (hn : count = 2 * srv.config.f + 1 → n' = count) :
    (if ahead && count == 2 * srv.config.f + 1 then { st.p2 with currentView := view } else st.p2).currentView =
        st.p2.currentView ∨
      (if ahead && count == 2 * srv.config.f + 1 then { st.p2 with currentView := view }
        else st.p2).currentView = view ∧ n' = 2 * srv.config.f + 1 := by
  split
  · rename_i h
    simp only [and_eq_true, beq_iff_eq] at h
    exact .inr ⟨rfl, (hn h.2).trans h.2⟩
  · exact .inl rfl

theorem processMoveView_moves (self : Bool) : MoveStep srv view self st (processMoveView srv st view self) := by
  cases hc : st.moveCount view with
  | mk n o =>
    have horg : (st.elect.getD {}).moveViewCounts view = (n, o) := hc
    cases self with
    | true =>
      cases o with
      | true =>
        -- our own vote is counted
        refine .of_update (n + 1) false hc ?_ nofun rfl nofun
          (enter_of_count (decide (st.p2.currentView < view)) (n + 1) fun _ => rfl)
        simp only [processMoveView, horg, if_true, Bool.and_false, Bool.false_eq_true, if_false]
      | false =>
        refine .of_update n false hc ?_ nofun rfl nofun
          (enter_of_count (decide (st.p2.currentView < view)) 0 fun h => by omega)
        simp only [processMoveView, horg, if_true, Bool.and_false, Bool.false_eq_true, if_false]
    | false =>
      by_cases hamplify : (decide (st.p2.currentView < view) && n + 1 == srv.config.f + 1 && o) = true
      · -- the message makes the count `f + 1`, and ours is counted too
        have h := hamplify
        simp only [and_eq_true, beq_iff_eq, Nat.add_right_cancel_iff] at h
        obtain ⟨⟨-, hf⟩, rfl⟩ := h
        refine .of_update (n + 1 + 1) false hc ?_ nofun rfl (fun _ _ _ => hf)
          (enter_of_count (decide (st.p2.currentView < view)) (n + 1 + 1) fun _ => rfl)
        simp only [processMoveView, horg, hamplify, Bool.false_eq_true, if_true, if_false]
      · refine .of_update (n + 1) o hc ?_ id (by cases o <;> rfl) (fun _ h h' => ?_)
          (enter_of_count (decide (st.p2.currentView < view)) (n + 1) fun _ => rfl)
        · simp only [processMoveView, horg, hamplify, Bool.false_eq_true, if_false]
        · rw [h] at h'
          cases h'

def MoveEvent.received? : MoveEvent → Option (Nat × Nat)
  | .moveView sender view => some (sender, view)
  | _ => none

def received (es : List MoveEvent) : List (Nat × Nat) := es.filterMap MoveEvent.received?

/-- Each other replica is heard once for a view. -/
structure DistinctMoves (srv : Server) (es : List MoveEvent) : Prop where
  nodup : (received es).Nodup
  others : ∀ m ∈ received es, m.1 ≠ srv.idx

def senders (es : List MoveEvent) (view : Nat) : List Nat :=
  ((received es).filter fun m => m.2 = view).map Prod.fst

/-- The count is at most the number of senders and the own MoveView. -/
def MovesTallied (es : List MoveEvent) (st : TxnState) : Prop :=
  ∀ view, (st.moveCount view).1 ≤ (senders es view).length + if (st.moveCount view).2 then 0 else 1

structure SameMoves (st st' : TxnState) : Prop where
  elect : st'.elect = st.elect
  view : st'.p2.currentView = st.p2.currentView

theorem SameMoves.moveCount (h : SameMoves st st') (view : Nat) : st'.moveCount view = st.moveCount view := by
  rw [TxnState.moveCount, h.elect, TxnState.moveCount]

theorem MoveStep.congr {st₁ st₁' : TxnState} {own : Bool} (h : MoveStep srv view own st st')
    (hst : SameMoves st₁ st) (hst' : SameMoves st' st₁') : MoveStep srv view own st₁ st₁' where
  other v hv := by rw [hst'.moveCount, ← hst.moveCount, h.other v hv]
  closes := by rw [hst'.moveCount, ← hst.moveCount]; exact h.closes
  count := by rw [hst'.moveCount, ← hst.moveCount]; exact h.count
  amplify := by rw [hst'.moveCount, ← hst.moveCount]; exact h.amplify
  enter := by rw [hst'.moveCount, hst'.view, ← hst.view]; exact h.enter

theorem sameMoves_sendElectFB (dec : CommitDecision) : SameMoves st (sendElectFB srv d st view dec).1 := by
  rw [sendElectFB]
  constructor
  · simp only
    split <;> rfl
  · simp only
    split <;> rfl

theorem moveAndElect_moves : ∃ view, MoveStep srv view true st (moveAndElect srv d st).1 :=
  ⟨_, (processMoveView_moves true).congr ⟨rfl, rfl⟩ (sameMoves_sendElectFB _)⟩

/-- A step calls `ProcessMoveView`, or leaves its entries alone but for the view that `InvokeFBcallback` sets. -/
inductive MoveCase (srv : Server) (st st' : TxnState) : MoveEvent → Prop
  | invoked {e : MoveEvent} (view : Nat) (he : e.received? = none) (h : MoveStep srv view true st st') :
    MoveCase srv st st' e
  | moved (sender view : Nat) (h : MoveStep srv view false st st') : MoveCase srv st st' (.moveView sender view)
  | same {e : MoveEvent} (h : SameMoves st st') : MoveCase srv st st' e
  | campaigned (view : Nat) (h : st'.elect = st.elect) : MoveCase srv st st' (.viewsValidated view)

theorem moveStep_cases (srv : Server) (d : Digest) (st : TxnState) (e : MoveEvent) :
    MoveCase srv st (moveStep srv d st e) e := by
  cases e with
  | invokeFB msg =>
    rw [moveStep, handleInvokeFB]
    split
    · exact .same ⟨rfl, rfl⟩
    split
    · exact .same ⟨rfl, rfl⟩
    split
    · exact .same ⟨rfl, rfl⟩
    split
    · exact .same ⟨rfl, rfl⟩
    split
    · split
      · obtain ⟨view, h⟩ := moveAndElect_moves
        exact .invoked view rfl h
      · rw [verifyViews]
        split <;> exact .same ⟨rfl, rfl⟩
    · split
      · exact .same ⟨rfl, rfl⟩
      · split <;> exact .same ⟨rfl, rfl⟩
  | p2fbValidated msg p2fb =>
    rw [moveStep, invokeFBProcessP2FBCallback]
    split
    · exact .same ⟨rfl, rfl⟩
    -- the decision is recorded, if there is none
    extract_lets _ st₁
    have hst₁ : SameMoves st st₁ := by
      constructor
      · simp only [st₁]
        split <;> rfl
      · simp only [st₁]
        split <;> rfl
    split
    · obtain ⟨view, h⟩ := moveAndElect_moves
      exact .invoked view rfl (h.congr hst₁ ⟨rfl, rfl⟩)
    · rw [verifyViews]
      split
      · exact .same hst₁
      · exact .same ⟨hst₁.elect, hst₁.view⟩
  | viewsValidated view =>
    refine .campaigned view ?_
    rw [moveStep, invokeFBcallback]
    split
    · rfl
    split
    · rfl
    split
    · rfl
    · rw [sendElectFB]
      split <;> rfl
  | moveView sender view =>
    rw [moveStep, handleMoveView]
    split
    · rename_i st₁ hforward
      rw [TxnState.forwardWritebackMulti] at hforward
      split at hforward
      · cases hforward
        exact .same ⟨rfl, rfl⟩
      · cases hforward
    · exact .moved sender view (processMoveView_moves false)

theorem received_append (e : MoveEvent) : received (es ++ [e]) = received es ++ e.received?.toList := by
  rw [received, filterMap_append, ← received]
  cases he : e.received? with
  | none => rw [filterMap_cons_none he]; rfl
  | some m => rw [filterMap_cons_some he]; rfl

theorem senders_append (es : List MoveEvent) (sender view v : Nat) :
    senders (es ++ [.moveView sender view]) v = senders es v ++ if view = v then [sender] else [] := by
  rw [senders, received_append, filter_append, map_append, ← senders]
  congr 1
  by_cases h : view = v
  · simp [MoveEvent.received?, h]
  · simp [MoveEvent.received?, h]

theorem senders_le (es : List MoveEvent) (e : MoveEvent) (v : Nat) :
    (senders es v).length ≤ (senders (es ++ [e]) v).length := by
  rw [senders, senders, received_append, filter_append, map_append, length_append]
  exact Nat.le_add_right _ _

theorem MovesTallied.step (h : MovesTallied es st) (e : MoveEvent) :
    MovesTallied (es ++ [e]) (moveStep srv d st e) := by
  intro v
  have hv := h v
  have hle := senders_le es e v
  cases moveStep_cases srv d st e with
  | invoked view he hstep =>
    by_cases hview : v = view
    · subst hview
      have hcount := hstep.count
      have hcloses := hstep.closes
      revert hv hcount hcloses
      cases (st.moveCount v).2 <;> cases ((moveStep srv d st e).moveCount v).2 <;> simp <;> omega
    · rw [hstep.other v hview]
      omega
  | moved sender view hstep =>
    by_cases hview : v = view
    · subst hview
      have hcount := hstep.count
      have hcloses := hstep.closes
      rw [senders_append, if_pos rfl, length_append, length_singleton]
      revert hv hcount hcloses
      cases (st.moveCount v).2 <;> cases ((moveStep srv d st (.moveView sender v)).moveCount v).2 <;> simp <;> omega
    · rw [hstep.other v hview]
      omega
  | same hsame =>
    rw [hsame.moveCount]
    omega
  | campaigned view helect =>
    have hsame : (moveStep srv d st (.viewsValidated view)).moveCount v = st.moveCount v := by
      rw [TxnState.moveCount, helect, TxnState.moveCount]
    rw [hsame]
    omega

def Unmoved (st : TxnState) : Prop := ∀ view, st.moveCount view = (0, true)

theorem moveRun_append (es : List MoveEvent) (e : MoveEvent) :
    moveRun srv d st (es ++ [e]) = moveStep srv d (moveRun srv d st es) e := foldl_append

theorem movesTallied_run (h : Unmoved st) (es : List MoveEvent) : MovesTallied es (moveRun srv d st es) := by
  induction es using List.reverseRecOn with
  | nil =>
    intro view
    rw [moveRun, foldl_nil, h view]
    exact Nat.zero_le _
  | append_singleton es e ih =>
    rw [moveRun_append]
    exact ih.step e

/-- A replica has issued a MoveView: we when our own was sent, another when it was received. -/
def IssuedMove (srv : Server) (es : List MoveEvent) (st : TxnState) (view r : Nat) : Prop :=
  r = srv.idx ∧ (st.moveCount view).2 = false ∨ r ≠ srv.idx ∧ (r, view) ∈ received es

/-- A step of a run that moves on quorums of distinct replicas only. -/
structure QuorumMove (srv : Server) (d : Digest) (st : TxnState) (es : List MoveEvent) (e : MoveEvent) : Prop where
  /-- A view that is not entered by `InvokeFBcallback`. -/
  enters : (∀ view, e ≠ .viewsValidated view) →
    (moveRun srv d st (es ++ [e])).p2.currentView ≠ (moveRun srv d st es).p2.currentView →
      Tally.Attained id (IssuedMove srv (es ++ [e]) (moveRun srv d st (es ++ [e]))
        (moveRun srv d st (es ++ [e])).p2.currentView) (2 * srv.config.f + 1)
  /-- An own MoveView that is not sent for an InvokeFB. -/
  amplifies : e.received?.isSome = true → ∀ view, ((moveRun srv d st es).moveCount view).2 = true →
    ((moveRun srv d st (es ++ [e])).moveCount view).2 = false →
      Tally.Attained id (fun r => r ≠ srv.idx ∧ (r, view) ∈ received (es ++ [e])) (srv.config.f + 1)

theorem DistinctMoves.senders (h : DistinctMoves srv es) (view : Nat) :
    (senders es view).Nodup ∧ ∀ r ∈ Pequin.senders es view, r ≠ srv.idx ∧ (r, view) ∈ received es := by
  refine ⟨?_, fun r hr => ?_⟩
  · refine List.Nodup.map_on ?_ (h.nodup.filter _)
    intro x hx y hy hxy
    have hx' : x.2 = view := of_decide_eq_true (mem_filter.mp hx).2
    have hy' : y.2 = view := of_decide_eq_true (mem_filter.mp hy).2
    exact Prod.ext hxy (hx'.trans hy'.symm)
  · obtain ⟨x, hx, rfl⟩ := mem_map.mp hr
    obtain ⟨hmem, hview⟩ := mem_filter.mp hx
    have hx' : x.2 = view := of_decide_eq_true hview
    exact ⟨h.others x hmem, hx' ▸ hmem⟩

theorem attained_count (h : DistinctMoves srv es) (ht : MovesTallied es st) (view : Nat) :
    Tally.Attained id (IssuedMove srv es st view) (st.moveCount view).1 := by
  obtain ⟨hnodup, hsenders⟩ := h.senders view
  have hle := ht view
  cases hown : (st.moveCount view).2 with
  | true =>
    rw [hown, if_pos rfl, Nat.add_zero] at hle
    exact ⟨senders es view, by rwa [map_id], fun r hr => .inr (hsenders r hr), hle⟩
  | false =>
    rw [hown, if_neg Bool.false_ne_true] at hle
    refine ⟨srv.idx :: senders es view, ?_, fun r hr => ?_, hle⟩
    · rw [map_id, nodup_cons]
      exact ⟨fun hmem => (hsenders _ hmem).1 rfl, hnodup⟩
    · rcases mem_cons.mp hr with rfl | hr
      · exact .inl ⟨rfl, hown⟩
      · exact .inr (hsenders r hr)

theorem quorumMove_of_distinct (hst : Unmoved st) {e : MoveEvent}
    (h : DistinctMoves srv (es ++ [e])) : QuorumMove srv d st es e := by
  have ht : MovesTallied (es ++ [e]) (moveRun srv d st (es ++ [e])) := movesTallied_run hst _
  have hbefore : MovesTallied es (moveRun srv d st es) := movesTallied_run hst es
  have hcase := moveStep_cases srv d (moveRun srv d st es) e
  rw [← moveRun_append] at hcase
  -- a view that was entered has the count `2f + 1`
  have henters : ∀ {view own}, MoveStep srv view own (moveRun srv d st es) (moveRun srv d st (es ++ [e])) →
      (moveRun srv d st (es ++ [e])).p2.currentView ≠ (moveRun srv d st es).p2.currentView →
        Tally.Attained id (IssuedMove srv (es ++ [e]) (moveRun srv d st (es ++ [e]))
          (moveRun srv d st (es ++ [e])).p2.currentView) (2 * srv.config.f + 1) := by
    intro view own hstep hne
    obtain ⟨hview, hcount⟩ := hstep.enter.resolve_left hne
    rw [hview, ← hcount]
    exact attained_count h ht view
  constructor
  · intro hnot hne
    cases hcase with
    | invoked view he hstep => exact henters hstep hne
    | moved sender view hstep => exact henters hstep hne
    | same hsame => exact absurd hsame.view hne
    | campaigned view helect => exact absurd rfl (hnot view)
  · intro hreceived v hopen hclosed
    cases hcase with
    | invoked view he hstep =>
      rw [he] at hreceived
      cases hreceived
    | moved sender view hstep =>
      by_cases hv : v = view
      · subst hv
        obtain ⟨hnodup, hsenders⟩ := h.senders v
        refine ⟨Pequin.senders _ v, by rwa [map_id], hsenders, ?_⟩
        have hle := hbefore v
        rw [hopen, if_pos rfl, hstep.amplify rfl hopen hclosed] at hle
        rw [senders_append, if_pos rfl, length_append, length_singleton]
        exact Nat.succ_le_succ hle
      · rw [hstep.other v hv, hopen] at hclosed
        cases hclosed
    | same hsame =>
      rw [hsame.moveCount, hopen] at hclosed
      cases hclosed
    | campaigned view helect => cases hreceived

theorem DistinctMoves.of_append {fs : List MoveEvent} (h : DistinctMoves srv (es ++ fs)) : DistinctMoves srv es := by
  have happ : received (es ++ fs) = received es ++ received fs := filterMap_append
  refine ⟨?_, fun m hm => h.others m ?_⟩
  · have hnodup := h.nodup
    rw [happ] at hnodup
    exact (nodup_append.mp hnodup).1
  · rw [happ]
    exact mem_append_left _ hm

/-- In a run in which no MoveView of a sender for a view, nor our own, is received twice, all moves are on quorums of
distinct replicas. -/
theorem moveView_quorums (srv : Server) (d : Digest) (st : TxnState) (hst : Unmoved st)
    (es : List MoveEvent) (hes : DistinctMoves srv es) :
    ∀ pre e post, es = pre ++ e :: post → QuorumMove srv d st pre e := by
  rintro pre e post rfl
  rw [← singleton_append, ← append_assoc] at hes
  exact quorumMove_of_distinct hst hes.of_append

theorem moveView_quorums_twoSenders : Unmoved {} ∧ DistinctMoves groupZeroServer [.moveView 1 1, .moveView 2 1] ∧
    QuorumMove groupZeroServer [7] {} [.moveView 1 1] (.moveView 2 1) := by
  have hdistinct : DistinctMoves groupZeroServer [.moveView 1 1, .moveView 2 1] :=
    ⟨by decide, by decide⟩
  exact ⟨fun _ => rfl, hdistinct,
    moveView_quorums groupZeroServer [7] {} (fun _ => rfl) _ hdistinct [.moveView 1 1] _ [] rfl⟩

/-- One sender that repeats its MoveView makes a replica issue its own, and move to the view. -/
theorem repeated_moveView_moves : (moveRun groupZeroServer [7] {} [.moveView 1 1, .moveView 1 1]).p2.currentView = 1 ∧
    ((moveRun groupZeroServer [7] {} [.moveView 1 1, .moveView 1 1]).moveCount 1).2 = false ∧
    ¬QuorumMove groupZeroServer [7] {} [.moveView 1 1] (.moveView 1 1) := by
  refine ⟨by decide, by decide, fun h => ?_⟩
  have hissued := h.amplifies rfl 1 rfl rfl
  have hle : 2 ≤ [1].length := hissued.le_length fun r hr => by
    have hmem : (r, 1) ∈ [(1, 1), (1, 1)] := hr.2
    simpa using hmem
  exact absurd hle (by decide)

end Pequin
