import Pequin.Proof.Outcome

/-!
# Handler by handler

What a step does is seen from four sides: the Phase2 record (`Refines`), the vote and the outcome (`Evolves`), the work
dispatched (`TasksFrom`) and the digest things are filed under (`Filed`). An act that is right from all four is a
`Trail`. Every handler is one, put together from single events (`act_trail`). `World.logger_invariant`: what the record
of a node keeps in all runs.
-/

namespace Pequin

open List LogEvent Message Option TxnState

variable {srv : Server} {d : Digest} {reason : Outcome → OutcomeEvent → Prop} {st₀ st st' : TxnState} {inp : Input}
  {a : Act} {out : List SignedBody} {t : Task} {r : Result} {txn : Transaction} {view : Nat} {dec : CommitDecision}
  {proof : CommittedProof} {sig : Signature} {e : Event} {w : World}
  {occ : OccOutcome}

/-! ## The digest a transaction is filed under -/

/-- What is ongoing or committed by a task has the digest of the entries, and a Writeback that waits names it. -/
structure Filed (srv : Server) (d : Digest) (st : TxnState) : Prop where
  ongoing : ∀ x, st.ongoing = some x → srv.digestOf x = d
  oo : ∀ msg, st.oo = some (.writeback msg) → msg.txnDigest ≠ none
  tasks : ∀ t ∈ st.tasks, ∀ p, t.commits = some p → srv.digestOf p.txn = d

theorem Filed.of_same (h : Filed srv d st) (hs : SameTasks st' st) : Filed srv d st' where
  ongoing x hx := by
    rcases hs.ongoing with hg | hg
    · exact h.ongoing x (hg ▸ hx)
    · rw [hg] at hx
      cases hx
  oo := hs.oo ▸ h.oo
  tasks t ht := h.tasks t (hs.tasks ▸ ht)

theorem Filed.dispatch (h : Filed srv d st) (ht : ∀ p, t.commits = some p → srv.digestOf p.txn = d) :
    Filed srv d (st.dispatch t) where
  ongoing := h.ongoing
  oo := h.oo
  tasks u hu := by
    rcases mem_append.mp hu with hu | hu
    · exact h.tasks u hu
    · exact mem_singleton.mp hu ▸ ht

/-! ## Trails -/

/-- A task that verifies the views of an InvokeFB is run in the client-driven mode only. -/
def ClientDriven (srv : Server) (st₀ : TxnState) (inp : Input) : Prop :=
  ∀ t, inp.task? st₀ = some t → t.isVerifyViews = true → srv.allToAllFb = false

/-- A message is handled under its own digest, in entries that are filed under theirs. -/
structure Addressed (srv : Server) (d : Digest) (st₀ : TxnState) (inp : Input) : Prop where
  message : ∀ msg occ, inp = .message msg occ → msg.digest srv.digestOf = d
  filed : Filed srv d st₀

/-- An act from `st`, in a step on the input `inp` in the state `st₀`. -/
structure Trail (srv : Server) (d : Digest) (reason : Outcome → OutcomeEvent → Prop) (st₀ : TxnState) (inp : Input)
    (st : TxnState) (a : Act) : Prop where
  refines : ClientDriven srv st₀ inp → Refines srv d (Allowed srv d st₀ inp) st a
  evolves : Evolves srv d reason st a
  tasks : (∀ d' proof occ, inp = .message (.supply d' proof) occ → d' = d) → TasksFrom srv d st₀ inp st a
  filed : Addressed srv d st₀ inp → Filed srv d st → Filed srv d a.1

/-- What is seen from none of the sides. -/
structure Unseen (st st' : TxnState) : Prop where
  p2 : st'.p2 = st.p2
  outcome : ∀ s, st'.outcome s = st.outcome s
  same : SameTasks st' st

namespace Trail

theorem trans (h : Trail srv d reason st₀ inp st (st', out)) (h' : Trail srv d reason st₀ inp st' a) :
    Trail srv d reason st₀ inp st (a.1, out ++ a.2) where
  refines hv := (h.refines hv).trans (h'.refines hv)
  evolves := h.evolves.append h'.evolves
  tasks hd := (h.tasks hd).trans (h'.tasks hd)
  filed ha hf := h'.filed ha (h.filed ha hf)

theorem quiet (h : Unseen st a.1) (hb : a.2.filter SignedBody.isBallot = [])
    (hv : a.2.filter SignedBody.isVote = []) : Trail srv d reason st₀ inp st a where
  refines _ := .idle h.p2 hb
  evolves := .idle h.outcome hv
  tasks _ := h.same.tasksFrom
  filed _ hf := hf.of_same h.same

theorem same : Trail srv d reason st₀ inp st (st, []) := quiet ⟨rfl, fun _ => rfl, .rfl' st⟩ rfl rfl

theorem minor (h : Unseen st st') : Trail srv d reason st₀ inp st (st', []) := quiet h rfl rfl

theorem attached : Trail srv d reason st₀ inp st (st, attachedView srv d st) :=
  quiet ⟨rfl, fun _ => rfl, .rfl' st⟩ (attachedView_filter srv d st) (attachedView_votes srv d st)

theorem log (e : LogEvent) (hr : ClientDriven srv st₀ inp → Allowed srv d st₀ inp st.p2 e)
    (he : e.enabled st.p2 = true) :
    Trail srv d reason st₀ inp st ({ st with p2 := e.next st.p2 }, e.signs srv d st.p2) where
  refines hv := .one e (hr hv) he rfl (by cases e <;> rfl)
  evolves := .idle (fun _ => rfl) (by cases e <;> rfl)
  tasks _ := SameTasks.tasksFrom ⟨rfl, rfl, .inl rfl, fun _ _ _ h => h⟩
  filed _ hf := ⟨hf.ongoing, hf.oo, hf.tasks⟩

theorem reply (hp2 : st.p2.hasP2 = true) : Trail srv d reason st₀ inp st (st, [storedP2 srv d st]) :=
  log .reply (fun _ => trivial) hp2

theorem stored (hp2 : st.p2.hasP2 = true) :
    Trail srv d reason st₀ inp st (st, [storedP2 srv d st] ++ attachedView srv d st) :=
  (reply hp2).trans attached

theorem event (e : OutcomeEvent) (hr : ∀ s, reason (st.outcome s) e) (he : ∀ s, e.enabled (st.outcome s) = true)
    (hn : ∀ s, e.next srv d (st.outcome s) = st'.outcome s) (hp : st'.p2 = st.p2) (hs : SameTasks st' st) :
    Trail srv d reason st₀ inp st (st', []) where
  refines _ := .idle hp rfl
  evolves := .one e hr he hn rfl
  tasks _ := hs.tasksFrom
  filed _ hf := hf.of_same hs

theorem sign (h : Evolves srv d reason st (st, signP1 srv d r)) :
    Trail srv d reason st₀ inp st (st, signP1 srv d r) where
  refines _ := .idle rfl (signP1_filter srv d r)
  evolves := h
  tasks _ := .same
  filed _ hf := hf

theorem track (hr : ∀ o, reason o (.track txn)) (hx : TxnAtHand d st₀ inp txn)
    (hd : Addressed srv d st₀ inp → srv.digestOf txn = d) {oo : Option OoMsg} (ho : oo = st.oo ∨ oo = none) :
    Trail srv d reason st₀ inp st ({ st with ongoing := some txn, oo := oo }, []) where
  refines _ := .idle rfl rfl
  evolves := .one (.track txn) (fun _ => hr _) (fun _ => rfl) (fun _ => rfl) rfl
  tasks _ := by
    refine ⟨fun _ => .inl, fun o h => .inl ?_, fun _ h => .inr (some.inj h ▸ hx), fun _ _ _ => .inl⟩
    rcases ho with rfl | rfl
    · exact h
    · cases h
  filed ha hf := by
    refine ⟨fun x h => some.inj h ▸ hd ha, fun msg h => ?_, hf.tasks⟩
    rcases ho with rfl | rfl
    · exact hf.oo msg h
    · cases h

theorem dispatch (hf : (∀ d' proof occ, inp = .message (.supply d' proof) occ → d' = d) → Fresh srv d st₀ inp [] t)
    (hc : Addressed srv d st₀ inp → Filed srv d st → ∀ p, t.commits = some p → srv.digestOf p.txn = d) :
    Trail srv d reason st₀ inp st (st.dispatch t, []) where
  refines _ := .idle rfl rfl
  evolves := .idle (fun _ => rfl) rfl
  tasks hd := .dispatch (hf hd)
  filed ha h := h.dispatch (hc ha h)

theorem hold {o : OoMsg} (hm : AtHand d st₀ inp o.message) (hf : ∀ msg, o = .writeback msg → msg.txnDigest ≠ none) :
    Trail srv d reason st₀ inp st ({ st with oo := some o }, []) where
  refines _ := .idle rfl rfl
  evolves := .idle (fun _ => rfl) rfl
  tasks _ := ⟨fun _ => .inl, fun _ h => .inr (some.inj h ▸ hm), fun _ => .inl, fun _ _ _ => .inl⟩
  filed _ h := ⟨h.ongoing, fun msg hm => hf msg (some.inj hm), h.tasks⟩

end Trail

/-- Votes and decisions are those at the start of the step. -/
structure Agrees (st₀ st : TxnState) : Prop where
  p1 : st.p1 = st₀.p1
  p2 : st.p2 = st₀.p2
  prepared : st.prepared = st₀.prepared
  committed : st.committed = st₀.committed
  aborted : st.aborted = st₀.aborted
  writeback : st.writeback = st₀.writeback
  elect : st.elect = st₀.elect

namespace Agrees

variable (h : Agrees st₀ st)
include h

theorem vote : st.lookupP1Decision = st₀.lookupP1Decision := by
  rw [lookupP1Decision, h.p1, lookupP1Decision]

theorem decision : st.lookupP2Decision = st₀.lookupP2Decision := by
  rw [lookupP2Decision, h.p2, lookupP2Decision]

theorem forward : st.forwardWriteback = st₀.forwardWriteback := by
  rw [forwardWriteback, h.committed, h.writeback, forwardWriteback]

theorem finished : st.finished = st₀.finished := by
  rw [TxnState.finished, h.committed, h.aborted, TxnState.finished]

theorem sigs (view : Nat) (dec : CommitDecision) : st.electSigs view dec = st₀.electSigs view dec := by
  rw [electSigs, h.elect, electSigs]

theorem of (s : List SignedBody) : (st.outcome s).Of st₀ :=
  ⟨congrArg P1MetaData.result h.p1, h.prepared, h.committed, h.aborted, h.writeback⟩

end Agrees

/-! ## Phase1 -/

theorem unseen_forwardWritebackMulti (h : st.forwardWritebackMulti = some st') : Unseen st st' := by
  rw [forwardWritebackMulti] at h
  split at h
  · cases h
    exact ⟨rfl, fun _ => rfl, rfl, rfl, .inl rfl, fun _ _ _ h => h⟩
  · cases h

section Votes

variable (hv : ∀ o r, reason o (.vote r))
include hv

theorem Trail.vote (h : r = .wait ∨ st.p1.result = some r) (p : Prop) [Decidable p] :
    Trail srv d reason st₀ inp st (st, if p then signP1 srv d r else []) := by
  split
  · exact .sign (evolves_signP1 (fun o => hv o r) h)
  · exact .same

theorem trail_wakeAll (h : r = .wait ∨ st.p1.result = some r) :
    Trail srv d reason st₀ inp st (wakeAllInterestedFallbacks srv d st r) := by
  rw [wakeAllInterestedFallbacks]
  split
  · split
    · exact .minor (unseen_forwardWritebackMulti ‹_›)
    have hstored : Trail srv d reason st₀ inp st (st, if st.p2.hasP2 then [storedP2 srv d st] else []) := by
      split
      · exact .reply ‹_›
      · exact .same
    exact ((Trail.sign (evolves_signP1 (fun o => hv o r) h)).trans hstored).trans .attached
  · exact .same

theorem trail_handlePhase1CB (hr : r ≠ .ignore) (isGossip : Bool) :
    Trail srv d reason st₀ inp (bufferP1Result st r isGossip 0).state (handlePhase1CB srv d st r isGossip) := by
  have hb := bufferP1Result_result st hr isGossip 0
  rw [handlePhase1CB, if_neg hr]
  dsimp only
  split
  · exact (Trail.vote hv hb _).trans (trail_wakeAll hv hb)
  · exact Trail.vote hv hb _

omit hv in
theorem trail_check (hi : occ ≠ .ignore) {exec : Bool} (hc : ∀ s, reason (st.outcome s) (.check occ exec))
    (isGossip : Bool) (fb : Nat) : Trail srv d reason st₀ inp st
      ((bufferP1Result (doOCCCheck srv d st occ).1 (Outcome.voteOf srv occ) isGossip fb).state, []) := by
  refine .event (.check occ exec) hc (fun _ => rfl) (fun s => ?_) (by simp)
    ((sameTasks_bufferP1Result _ _ _ _).trans (sameTasks_doOCCCheck srv d st occ))
  rw [bufferP1Result_outcome _ fun h => hi (voteOf_eq_ignore.mp h), doOCCCheck_outcome]
  simp [OutcomeEvent.next, hi]

theorem trail_tryPrepare (ha : ∀ s dec, st.ongoing = none → reason (st.outcome s) (.answer dec))
    (hc : ∀ s, st.ongoing.isSome = true → reason (st.outcome s) (.check occ false)) (isGossip : Bool) :
    Trail srv d reason st₀ inp st (tryPrepare srv d st isGossip occ) := by
  rw [tryPrepare]
  split
  · rename_i hon
    have hon' : st.ongoing = none := isNone_iff_eq_none.mp hon
    split
    · rename_i hcom
      exact .sign (evolves_answer .commit (fun s => ha s _ hon') fun _ => hcom)
    rename_i hcom
    split
    · rename_i hab
      refine .sign (evolves_answer .abort (fun s => ha s _ hon') fun _ => ?_)
      simpa [OutcomeEvent.enabled, outcome, hab] using hcom
    · exact .same
  · rename_i hon
    have hon' : st.ongoing.isSome = true := by
      cases h : st.ongoing with
      | none => simp [h] at hon
      | some txn => rfl
    dsimp only
    rw [doOCCCheck_result]
    by_cases hi : occ = .ignore
    · subst hi
      exact .same
    · have hr : Outcome.voteOf srv occ ≠ .ignore := fun h => hi (voteOf_eq_ignore.mp h)
      exact (trail_check hi (fun s => hc s hon') isGossip 0).trans (trail_handlePhase1CB hv hr isGossip)

theorem trail_execP1 (srv : Server) (d : Digest) (st₀ : TxnState) (inp : Input)
    (hc : ∀ s, reason (st.outcome s) (.check occ true)) :
    Trail srv d reason st₀ inp st ((execP1 srv d st occ).1, (execP1 srv d st occ).2.2) ∧
      ∀ r, (execP1 srv d st occ).2.1 = some r → (execP1 srv d st occ).1.p1.result = some r := by
  unfold execP1
  dsimp only
  rw [doOCCCheck_result]
  by_cases hi : occ = .ignore
  · subst hi
    exact ⟨.event (.check .ignore true) hc (fun _ => rfl) (fun _ => rfl) rfl (sameTasks_clean st true), nofun⟩
  have hr : Outcome.voteOf srv occ ≠ .ignore := fun h => hi (voteOf_eq_ignore.mp h)
  have hb := bufferP1Result_result (doOCCCheck srv d st occ).1 hr false 1
  refine ⟨(trail_check hi hc false 1).trans (Trail.vote hv hb _), fun r h => ?_⟩
  split at h
  · cases h
  · rename_i hne
    cases h
    exact hb.resolve_left fun hw => hne (.inr hw)

theorem trail_tryExec (hc : ∀ s, reason (st.outcome s) (.check occ true)) :
    Trail srv d reason st₀ inp st (tryExec srv d st occ) := by
  obtain ⟨hexec, hres⟩ := trail_execP1 hv srv d st₀ inp hc
  rw [tryExec]
  split
  · rename_i h
    rw [h] at hexec
    exact hexec
  · rename_i st' r out h
    rw [h] at hexec hres
    exact (hexec.trans (.sign (evolves_signP1 (fun o => hv o r) (.inr (hres r rfl))))).trans .attached

theorem trail_handlePhase1FB (hm : AtHand d st₀ inp (.phase1FB txn)) (ht : ∀ o, reason o (.track txn))
    (hd : Addressed srv d st₀ inp → srv.digestOf txn = d) (hc : st.forwardWriteback = false → st.p1.result = none →
      ∀ s, reason ({ st.outcome s with ongoing := some txn }) (.check occ true)) :
    Trail srv d reason st₀ inp st (handlePhase1FB srv d st txn occ) := by
  have hx : TxnAtHand d st₀ inp txn := .inr ⟨_, hm, by simp [txns]⟩
  let st₁ := { st with interested := true }
  have hwait : Unseen st { st₁ with p1 := { st.p1 with fallbacksInterested := true } } :=
    ⟨rfl, fun _ => rfl, rfl, rfl, .inl rfl, fun _ _ _ h => h⟩
  have hin : Trail srv d reason st₀ inp st (st₁, []) :=
    .minor ⟨rfl, fun _ => rfl, rfl, rfl, .inl rfl, fun _ _ _ h => h⟩
  have htrack : Trail srv d reason st₀ inp st₁ ({ st₁ with ongoing := some txn }, []) := .track ht hx hd (.inl rfl)
  have hvote : ∀ r, st.p1.result = some r → Trail srv d reason st₀ inp st₁ (st₁, signP1 srv d r) :=
    fun r hres => .sign (evolves_signP1 (fun o => hv o r) (.inr hres))
  rw [handlePhase1FB]
  split
  · exact .same
  rename_i hfw
  rw [Bool.not_eq_true] at hfw
  dsimp only
  split
  · rename_i hp2
    let st₂ := { st with interested := true, p1 := { st.p1 with fallbacksInterested := true } }
    have hreply : Trail srv d reason st₀ inp st₂ (st₂, [storedP2 srv d st₂] ++ attachedView srv d st₂) := .stored hp2
    exact (Trail.minor hwait).trans hreply
  · rename_i r _ hres hp2
    exact hin.trans (((hvote r hres).trans (.reply hp2)).trans .attached)
  · exact .minor hwait
  · rename_i r _ hres _
    exact hin.trans ((hvote r hres).trans .attached)
  · rename_i hres hp2
    have hc' : ∀ s, reason ({ st₁ with ongoing := some txn }.outcome s) (.check occ true) := hc hfw hres
    obtain ⟨hexec, hres'⟩ := trail_execP1 hv srv d st₀ inp hc'
    -- the check leaves the record alone
    have hp := execP1_p2 srv d { st₁ with ongoing := some txn } occ
    refine hin.trans (htrack.trans ?_)
    split
    · rename_i st' out h
      rw [h] at hexec hp
      have hreply : Trail srv d reason st₀ inp st' (st', [storedP2 srv d st₁]) := by
        rw [storedP2, ← hp]
        exact .reply (hp ▸ hp2)
      exact (hexec.trans hreply).trans .attached
    · rename_i st' r out h
      rw [h] at hexec hres' hp
      have hreply : Trail srv d reason st₀ inp st' (st', [storedP2 srv d st₁]) := by
        rw [storedP2, ← hp]
        exact .reply (hp ▸ hp2)
      have hvote' : Trail srv d reason st₀ inp st' (st', signP1 srv d r) :=
        .sign (evolves_signP1 (fun o => hv o r) (.inr (hres' r rfl)))
      exact ((hexec.trans hvote').trans hreply).trans .attached
  · have hf : Fresh srv d st₀ inp [] (.tryExec txn) := .plain rfl hm trivial rfl rfl rfl nofun nofun
    exact (hin.trans htrack).trans (.dispatch (fun _ => hf) fun _ _ => nofun)

theorem trail_checkDependents {b : Bool} (hr : ∀ s, reason (st.outcome s) (.resolve b)) :
    Trail srv d reason st₀ inp st (checkDependents srv d st b) := by
  unfold checkDependents
  dsimp only
  split
  · exact .same
  rename_i r h
  have hne : r ≠ .ignore := by
    rintro rfl
    split_ifs at h <;> simp at h
  have hb := bufferP1Result_result st hne false 2
  have hresolve : Trail srv d reason st₀ inp st ((bufferP1Result st r false 2).state, []) := by
    refine .event (.resolve b) hr (fun _ => rfl) (fun s => ?_) (by simp) (sameTasks_bufferP1Result _ _ _ _)
    rw [bufferP1Result_outcome _ hne]
    have hres : (st.outcome s).resolution b = some r := h
    simp [OutcomeEvent.next, hres]
  exact hresolve.trans ((Trail.vote hv hb _).trans (trail_wakeAll hv hb))

end Votes

/-! ## Phase2 -/

section Decisions

variable (hs : Agrees st₀ st) (hg : ∀ txn, st.ongoing = some txn → TxnAtHand d st₀ inp txn)

section

include hs hg

theorem trail_handlePhase2 {msg : Phase2} (hm : AtHand d st₀ inp (.phase2 msg)) (ha : inp.asksPhase2 st₀ = true) :
    Trail srv d reason st₀ inp st (handlePhase2 srv d st msg) := by
  have hx : ∀ txn, msg.txn = some txn → TxnAtHand d st₀ inp txn := fun txn h =>
    .inr ⟨_, hm, by simp [txns, h]⟩
  have hdispatch : ∀ txn, TxnAtHand d st₀ inp txn → Trail srv d reason st₀ inp st
      (st.dispatch (.phase2 msg txn (if msg.simulatedEquiv then none else st.lookupP1Decision)), []) := by
    intro txn h
    refine .dispatch (fun _ => .certificate rfl hm trivial rfl h ?_ (.inl rfl) nofun) fun _ _ => nofun
    rw [hs.vote]
    exact ite_eq_or_eq _ _ _
  unfold handlePhase2
  split
  · exact .reply ‹_›
  rename_i hp2
  split
  · exact .log (.shortcut .commit) (fun _ => ⟨hs.p2, hs.committed ▸ ‹_›⟩) (by simp [enabled, hp2])
  rename_i hcom
  split
  · rename_i hab
    refine .log (.shortcut .abort) (fun _ => ⟨hs.p2, ha, hs.aborted ▸ hab, ?_⟩) (by simp [enabled, hp2])
    rw [← hs.committed]
    simpa using hcom
  · dsimp only
    split
    · exact hdispatch _ (hg _ ‹_›)
    · split
      · exact hdispatch _ (hx _ ‹_›)
      · exact .same
    · split
      · exact .same
      · exact .hold hm nofun
    · exact hdispatch _ (hx _ ‹_›)
    · exact .same

theorem trail_handlePhase2FB {msg : Phase2FB} (hm : AtHand d st₀ inp (.phase2FB msg)) :
    Trail srv d reason st₀ inp st (handlePhase2FB srv d st msg) := by
  unfold handlePhase2FB
  split
  · exact .same
  split
  · exact .stored ‹_›
  split
  · exact .same
  rename_i txn h
  have hx : TxnAtHand d st₀ inp txn := by
    rcases or_eq_some_iff.mp h with h | ⟨-, h⟩
    · exact hg txn h
    · exact .inr ⟨_, hm, by simp [txns, h]⟩
  split
  · exact .dispatch (fun _ => .certificate rfl hm ‹_› rfl hx (.inl rfl) (.inr hs.decision) nofun) fun _ _ => nofun
  · exact .dispatch (fun _ => .certificate rfl hm ‹_› rfl hx (.inr hs.vote) (.inl rfl) nofun) fun _ _ => nofun
  · exact .same

theorem trail_handleDecisionFB {msg : DecisionFB} (hm : AtHand d st₀ inp (.decisionFB msg)) :
    Trail srv d reason st₀ inp st (handleDecisionFB st msg) := by
  rw [handleDecisionFB]
  split
  · exact .minor (unseen_forwardWritebackMulti ‹_›)
  split
  · exact .same
  · split
    · exact .same
    · exact .dispatch (fun _ => .certificate rfl hm trivial rfl (hg _ ‹_›) (.inl rfl) (.inr hs.decision) nofun)
        fun _ _ => nofun

end

/-- A certificate for the decision has been accepted. -/
def Logs (srv : Server) (d : Digest) (st₀ : TxnState) (inp : Input) (dec : CommitDecision) : Prop :=
  ∃ t, inp.task? st₀ = some t ∧ t.accepted srv d = true ∧ t.logs = some dec

theorem trail_handlePhase2CB (hp : st.p2 = st₀.p2) {msg : Phase2} (hl : Logs srv d st₀ inp msg.decision) :
    Trail srv d reason st₀ inp st (handlePhase2CB srv d st msg) := by
  rw [handlePhase2CB]
  split
  · exact .reply ‹_›
  · rename_i hp2
    exact .log (.record msg.decision st.p2.decisionView) (fun _ => ⟨hp, hl⟩) (by simp [enabled, hp2])

theorem trail_processP2FBCallback (hp : st.p2 = st₀.p2) {msg : Phase2FB} (hl : Logs srv d st₀ inp msg.decision) :
    Trail srv d reason st₀ inp st (processP2FBCallback srv d st msg) := by
  rw [processP2FBCallback]
  split
  · exact .same
  split
  · exact .stored ‹_›
  · rename_i hp2
    exact (Trail.log (.record msg.decision 0) (fun _ => ⟨hp, hl⟩) (by simp [enabled, hp2])).trans .attached

/-! ## View changes -/

theorem trail_adoptDecision (hr : Allowed srv d st₀ inp st.p2 (.adopt view dec)) :
    Trail srv d reason st₀ inp st (adoptDecision srv d st view dec) := by
  unfold adoptDecision
  split
  · exact .same
  · rename_i hv
    exact (Trail.log (.adopt view dec) (fun _ => hr) (by simpa [enabled] using hv)).trans .attached

theorem trail_fbDecisionCallback {msg : DecisionFB} (hr : Allowed srv d st₀ inp st.p2 (.adopt msg.view msg.decision)) :
    Trail srv d reason st₀ inp st (fbDecisionCallback srv d st msg) := by
  rw [fbDecisionCallback]
  split
  · exact .minor (unseen_forwardWritebackMulti ‹_›)
  · exact trail_adoptDecision hr

theorem trail_handleMoveView : Trail srv d reason st₀ inp st (handleMoveView srv st view) := by
  rw [handleMoveView]
  split
  · exact .minor (unseen_forwardWritebackMulti ‹_›)
  refine ⟨fun _ => ?_, .idle (fun _ => rfl) rfl, fun _ => (sameTasks_processMoveView srv st view false).tasksFrom,
    fun _ hf => hf.of_same (sameTasks_processMoveView srv st view false)⟩
  rcases processMoveView_p2 srv st view false with h | ⟨hv, h⟩
  · exact .idle h rfl
  · exact .one (.enter view) trivial (by simp [enabled, hv]) h rfl

theorem trail_sendElectFB {st₁ : TxnState} (e : LogEvent)
    (he : ClientDriven srv st₀ inp → Allowed srv d st₀ inp st.p2 e ∧ e.enabled st.p2 = true)
    (hp : st₁.p2 = e.next st.p2) (ho : ∀ s, st₁.outcome s = st.outcome s) (hs : SameTasks st₁ st)
    (hsign : e.signs srv d st.p2 = [.electMessage 0 d dec view]) :
    Trail srv d reason st₀ inp st (sendElectFB srv d st₁ view dec) where
  refines hv := .one e (he hv).1 (he hv).2 ((sendElectFB_p2 _ _ _).trans hp) hsign.symm
  evolves := .idle (fun s => by rw [← ho s, sendElectFB]; dsimp only; split <;> rfl) rfl
  tasks _ := by
    have h : TasksFrom srv d st₀ inp st (st₁, []) := hs.tasksFrom
    exact h.trans (tasksFrom_sendElectFB view dec)
  filed _ hf := by
    have h := hf.of_same hs
    rw [sendElectFB]
    split
    · exact h.dispatch nofun
    · exact h

theorem trail_moveAndElect (hi : Invoked srv d st₀ inp) (ha : srv.allToAllFb = true) (hp2 : st.p2.hasP2 = true) :
    Trail srv d reason st₀ inp st (moveAndElect srv d st) := by
  have hsame := sameTasks_processMoveView srv st ((st.p2.currentView + 1) % 2 ^ 64) true
  rcases processMoveView_p2 srv st ((st.p2.currentView + 1) % 2 ^ 64) true with h | ⟨hv, h⟩
  · exact trail_sendElectFB (.elect _) (fun _ => ⟨⟨ha, hi⟩, by simp [enabled, hp2]⟩) h (fun _ => rfl) hsame rfl
  · exact trail_sendElectFB (.campaign _)
      (fun _ => ⟨⟨fun _ => rfl, hi⟩, by rw [enabled, hp2, decide_eq_true hv]; rfl⟩) h (fun _ => rfl) hsame rfl

section Invoke

variable {msg : InvokeFB} (hm : AtHand d st₀ inp (.invokeFB msg)) (hi : Invoked srv d st₀ inp)
include hm hi

theorem trail_moveOrVerify (hp2 : st.p2.hasP2 = true) : Trail srv d reason st₀ inp st
    (if srv.allToAllFb then moveAndElect srv d st else verifyViews st msg srv.groupIdx) := by
  split
  · exact trail_moveAndElect hi ‹_› hp2
  rename_i ha
  rw [Bool.not_eq_true] at ha
  rw [verifyViews]
  split
  · exact .same
  · exact .dispatch (fun _ => .plain rfl hm trivial rfl rfl rfl (fun _ => ha) fun _ => hi) fun _ _ => nofun

theorem trail_invokeFBProcessP2FBCallback (hs : Agrees st₀ st) {p2fb : Phase2FB}
    (hl : Logs srv d st₀ inp p2fb.decision) :
    Trail srv d reason st₀ inp st (invokeFBProcessP2FBCallback srv d st msg p2fb) := by
  rw [invokeFBProcessP2FBCallback]
  split
  · exact .same
  rename_i hfw
  rw [Bool.not_eq_true] at hfw
  cases hp2 : st.p2.hasP2 with
  | true => exact trail_moveOrVerify hm hi hp2
  | false =>
    have hlog : Trail srv d reason st₀ inp st ({ st with p2 := { st.p2 with
        p2Decision := p2fb.decision, hasP2 := true } }, []) :=
      .log (.log p2fb.decision st.p2.decisionView) (fun _ => ⟨hs.p2, hs.forward ▸ hfw, hl⟩)
        (by simp [enabled, hp2])
    exact hlog.trans (trail_moveOrVerify hm hi rfl)

end Invoke

theorem trail_handleInvokeFB {msg : InvokeFB} :
    Trail srv d reason st (.message (.invokeFB msg) occ) st (handleInvokeFB srv d st msg) := by
  have hm : AtHand d st (.message (.invokeFB msg) occ) (.invokeFB msg) := .inl ⟨occ, rfl⟩
  rw [handleInvokeFB]
  split
  · exact .same
  split
  · exact .quiet ⟨rfl, fun _ => rfl, .rfl' st⟩ rfl rfl
  split
  · exact .same
  rename_i txn htxn
  have hx : TxnAtHand d st (.message (.invokeFB msg) occ) txn := by
    rcases or_eq_some_iff.mp htxn with h | ⟨-, h⟩
    · exact .inl h
    · exact .inr ⟨_, hm, by simp [txns, h]⟩
  split
  · exact .same
  rename_i hgroup
  rw [not_not] at hgroup
  have hinv : Invoked srv d st (.message (.invokeFB msg) occ) := .inl ⟨msg, occ, txn, rfl, htxn, hgroup⟩
  split
  · exact trail_moveOrVerify hm hinv ‹_›
  split
  · exact .same
  rename_i p2fb hp
  split
  · exact .dispatch (fun _ => .certificate rfl hm ⟨hp, ‹_›⟩ rfl hx (.inl rfl) (.inr rfl) fun _ => hinv)
      fun _ _ => nofun
  · exact .dispatch (fun _ => .certificate rfl hm ⟨hp, ‹_›⟩ rfl hx (.inr rfl) (.inl rfl) fun _ => hinv)
      fun _ _ => nofun
  · exact .same

theorem trail_invokeFBcallback (hi : Invoked srv d st₀ inp)
    (ha : ClientDriven srv st₀ inp → srv.allToAllFb = false) :
    Trail srv d reason st₀ inp st (invokeFBcallback srv d st view) := by
  rw [invokeFBcallback]
  split
  · exact .same
  split
  · exact .same
  rename_i hp2
  rw [Bool.not_eq_true, Bool.not_eq_false'] at hp2
  split
  · exact .quiet ⟨rfl, fun _ => rfl, .rfl' st⟩ rfl rfl
  rename_i hv
  refine trail_sendElectFB (.campaign view) (fun hc => ⟨⟨fun ha' => ?_, hi⟩, ?_⟩) rfl (fun _ => rfl)
    ⟨rfl, rfl, .inl rfl, fun _ _ _ h => h⟩ rfl
  · rw [ha hc] at ha'
    cases ha'
  · have hlt : st.p2.currentView < view := Nat.lt_of_not_le fun hle => hv ⟨ha hc, hle⟩
    simp [enabled, hp2, hlt]

theorem unseen_preProcessElectFB {pid : Nat} (h : preProcessElectFB st view dec pid = some st') : Unseen st st' := by
  refine ⟨(preProcessElectFB_some h).1, fun s => ?_, sameTasks_preProcessElectFB h⟩
  unfold preProcessElectFB at h
  dsimp only at h
  split at h
  · cases h
  · cases h
    rfl

theorem Trail.collect {org org' : ElectFBorganizer} (hc : Counted srv d st₀ inp view dec sig)
    (horg : st.elect = some org) (horg' : org'.viewQuorums = Function.update org.viewQuorums view
      (Function.update (org.viewQuorums view) dec
        ((org.viewQuorums view dec).1, (org.viewQuorums view dec).2 ++ [sig]))) :
    Trail srv d reason st₀ inp st ({ st with elect := some org' }, []) where
  refines _ := .idle rfl rfl
  evolves := .idle (fun _ => rfl) rfl
  tasks _ := by
    refine ⟨fun _ => .inl, fun _ => .inl, fun _ => .inl, fun v e s hs => ?_⟩
    have hget : st.elect.getD {} = org := by rw [horg]; rfl
    rw [electSigs_update st hget horg'] at hs
    split at hs
    · rename_i hve
      rw [hve.1, hve.2]
      rcases mem_append.mp hs with hs | hs
      · left
        rw [electSigs, hget]
        exact hs
      · right
        rw [mem_singleton.mp hs]
        exact hc
    · exact .inl hs
  filed _ hf := ⟨hf.ongoing, hf.oo, hf.tasks⟩

theorem trail_processElectFB (hc : Counted srv d st₀ inp view dec sig)
    (hr : (st.electSigs view dec).length = 2 * srv.config.f → Allowed srv d st₀ inp st.p2 (.adopt view dec)) :
    Trail srv d reason st₀ inp st (processElectFB srv d st view dec sig) := by
  unfold processElectFB
  split
  · exact .same
  rename_i org horg
  split
  · exact .same
  dsimp only
  split
  · rename_i hlen
    have had := hr (by simpa [electSigs, horg] using hlen)
    exact (Trail.collect hc horg rfl).trans (trail_adoptDecision had)
  · exact .collect hc horg rfl

theorem trail_ownElect (hc : Counted srv d st₀ inp view dec ⟨srv.id, ⟨srv.id, .electMessage 0 d dec view⟩⟩)
    (hr : (st.electSigs view dec).length = 2 * srv.config.f → Allowed srv d st₀ inp st.p2 (.adopt view dec)) :
    Trail srv d reason st₀ inp st (ownElect srv d st view dec) := by
  rw [ownElect]
  split
  · exact .same
  · rename_i hpre
    obtain ⟨hp, hsigs⟩ := preProcessElectFB_some hpre
    exact (Trail.minor (unseen_preProcessElectFB hpre)).trans (trail_processElectFB hc (by rw [hsigs, hp]; exact hr))

theorem trail_handleElectFB {msg : SignedMessage} (hm : AtHand d st₀ inp (.electFB msg)) :
    Trail srv d reason st₀ inp st (handleElectFB srv d st msg) := by
  rw [handleElectFB]
  split
  · exact .same
  split
  · exact .same
  split
  · exact .minor (unseen_forwardWritebackMulti ‹_›)
  · split
    · exact .same
    · have hf : Fresh srv d st₀ inp [] (.elect msg) := .plain rfl hm trivial rfl rfl rfl nofun nofun
      exact (Trail.minor (unseen_preProcessElectFB ‹_›)).trans (.dispatch (fun _ => hf) fun _ _ => nofun)

theorem trail_electFBcallback {msg : SignedMessage}
    (hc : Counted srv d st₀ inp (msg.data.varint 4) (msg.data.decision 3) ⟨msg.processId, msg.signature⟩)
    (hr : (st.electSigs (msg.data.varint 4) (msg.data.decision 3)).length = 2 * srv.config.f →
      Allowed srv d st₀ inp st.p2 (.adopt (msg.data.varint 4) (msg.data.decision 3))) :
    Trail srv d reason st₀ inp st (electFBcallback srv d st msg) := by
  rw [electFBcallback]
  split
  · exact .minor (unseen_forwardWritebackMulti ‹_›)
  · exact trail_processElectFB hc hr

/-! ## Writeback -/

theorem trail_manageWriteback (hs : Agrees st₀ st) {msg : Writeback} (hm : AtHand d st₀ inp (.writeback msg))
    (hx : TxnAtHand d st₀ inp txn) (hd : Addressed srv d st₀ inp → Filed srv d st → srv.digestOf txn = d) :
    Trail srv d reason st₀ inp st (manageWritebackValidation st msg txn) := by
  have hcommits : ∀ (dec : CommitDecision) (sigs : ProofSigs), Addressed srv d st₀ inp → Filed srv d st →
      ∀ p, (if dec = .commit then some (⟨txn, sigs⟩ : CommittedProof) else none) = some p → srv.digestOf p.txn = d := by
    intro dec sigs ha hf p hp
    simp only [ite_none_right_eq_some, some.injEq] at hp
    rw [← hp.2]
    exact hd ha hf
  unfold manageWritebackValidation
  split
  · exact .dispatch (fun _ => .certificate rfl hm ‹_› rfl hx (.inr hs.vote) (.inl rfl) nofun) (hcommits _ _)
  · exact .dispatch (fun _ => .certificate rfl hm ‹_› rfl hx (.inl rfl) (.inr hs.decision) nofun) (hcommits _ _)
  · exact .same
  · split
    · exact .dispatch (fun _ => .certificate rfl hm ⟨‹_›, ‹_›⟩ rfl hx (.inl rfl) (.inl rfl) nofun) (hcommits _ _)
    · exact .same
  · exact .same

theorem trail_handleWriteback (hs : Agrees st₀ st) (hg : ∀ txn, st.ongoing = some txn → TxnAtHand d st₀ inp txn)
    {msg : Writeback} (hm : AtHand d st₀ inp (.writeback msg)) (hr : ∀ s, reason (st.outcome s) .drop)
    (hd : Addressed srv d st₀ inp → msg.txnDigest = none → ∀ txn, msg.txn = some txn → srv.digestOf txn = d) :
    Trail srv d reason st₀ inp st (handleWriteback srv d st msg) := by
  have hx : ∀ txn, msg.txn = some txn → TxnAtHand d st₀ inp txn := fun txn h =>
    .inr ⟨_, hm, by simp [txns, h]⟩
  unfold handleWriteback
  split
  · exact .event .drop hr (fun _ => ‹_›) (fun _ => rfl) rfl (sameTasks_clean st false)
  split
  · exact trail_manageWriteback hs hm (hg _ ‹_›) fun _ hf => hf.ongoing _ ‹_›
  · split
    · exact trail_manageWriteback hs hm (hx _ ‹_›) fun _ _ => ‹_›
    · exact .same
  · rename_i hdigest _ _
    split
    · exact .same
    · refine .hold hm fun m he hnone => ?_
      cases he
      rw [hdigest] at hnone
      cases hnone
  · exact trail_manageWriteback hs hm (hx _ ‹_›) fun ha _ => hd ha ‹_› _ ‹_›
  · exact .same

theorem trail_commit (hr : ∀ s, reason (st.outcome s) (.commit proof)) :
    Trail srv d reason st₀ inp st (st.commit proof, []) := by
  rw [commit]
  split
  · exact .same
  · rename_i hcom
    exact .event (.commit proof) hr (fun s => by simpa [OutcomeEvent.enabled, outcome] using hcom)
      (fun s => rfl) rfl ⟨rfl, rfl, .inr rfl, nofun⟩

theorem trail_writebackCallback {msg : Writeback}
    (hc : st.finished = false → msg.decision = .commit → ∀ s, reason (st.outcome s) (.commit proof))
    (ha : st.finished = false → msg.decision = .abort → ∀ s, reason (st.outcome s) (.abort msg)) :
    Trail srv d reason st₀ inp st (writebackCallback st msg proof) := by
  unfold writebackCallback
  split
  · exact .same
  rename_i hf
  rw [Bool.not_eq_true] at hf
  split
  · exact trail_commit (hc hf ‹_›)
  · refine .event (.abort msg) (ha hf ‹_›) (fun s => ?_) (fun _ => rfl) rfl ⟨rfl, rfl, .inr rfl, nofun⟩
    simpa [OutcomeEvent.enabled, Outcome.finished, outcome, TxnState.finished] using hf

theorem trail_processSuppliedTxn
    (hm : (∀ d' proof occ, inp = .message (.supply d' proof) occ → d' = d) → AtHand d st₀ inp (.supply d proof)) :
    Trail srv d reason st₀ inp st (processSuppliedTxn srv d st proof) := by
  have hin : Trail srv d reason st₀ inp st ({ st with supplied := true }, []) :=
    .minor ⟨rfl, fun _ => rfl, rfl, rfl, .inl rfl, fun _ _ _ h => h⟩
  rw [processSuppliedTxn]
  split
  · exact .same
  dsimp only
  split
  · exact hin
  rename_i hguard
  simp only [Bool.or_eq_true, decide_eq_true_eq, not_or, not_not, Bool.not_eq_true] at hguard
  have hf : ∀ h, Fresh srv d st₀ inp [] (.supply proof) := fun h =>
    .plain rfl (hm h) hguard.1.2 rfl rfl rfl nofun nofun
  refine hin.trans (.dispatch hf fun _ _ p hp => ?_)
  cases hp
  exact hguard.2

/-! ## Steps of a node -/

theorem trail_handlePhase1 {isGossip : Bool} : Trail srv d (Justified srv d st (.message (.phase1 txn isGossip) occ)) st
    (.message (.phase1 txn isGossip) occ) st (handlePhase1 srv d st txn isGossip) := by
  have hm : AtHand d st (.message (.phase1 txn isGossip) occ) (.phase1 txn isGossip) := .inl ⟨occ, rfl⟩
  have hx : TxnAtHand d st (.message (.phase1 txn isGossip) occ) txn := .inr ⟨_, hm, by simp [txns]⟩
  have hg : ∀ txn', some txn = some txn' → TxnAtHand d st (.message (.phase1 txn isGossip) occ) txn' :=
    fun txn' h => some.inj h ▸ hx
  have hs : ∀ oo, Agrees st { st with ongoing := some txn, oo := oo } := fun _ => ⟨rfl, rfl, rfl, rfl, rfl, rfl, rfl⟩
  have htrack : ∀ oo, oo = st.oo ∨ oo = none → Trail srv d (Justified srv d st (.message (.phase1 txn isGossip) occ)) st
      (.message (.phase1 txn isGossip) occ) st ({ st with ongoing := some txn, oo := oo }, []) := fun oo ho =>
    .track (fun _ => ⟨_, _, rfl, by simp [txns]⟩) hx (fun h => h.message _ _ rfl) ho
  unfold handlePhase1
  split
  · rename_i msg ho
    refine (htrack none (.inr rfl)).trans (trail_handlePhase2 (hs none) hg (.inr (.inl ⟨_, ho, rfl⟩)) ?_)
    simp [Input.asksPhase2, ho]
  · rename_i msg ho
    refine (htrack none (.inr rfl)).trans (trail_handleWriteback (hs none) hg (.inr (.inl ⟨_, ho, rfl⟩))
      (fun s => ⟨rfl, rfl, rfl, rfl, rfl⟩) fun ha hnone => absurd hnone (ha.filed.oo msg ho))
  · split
    · split
      · exact .same
      · exact .minor ⟨rfl, fun _ => rfl, rfl, rfl, .inl rfl, fun _ _ _ h => h⟩
    · rename_i r _ hres
      cases isGossip with
      | true => exact .same
      | false => exact .sign (evolves_signP1 (fun _ => trivial) (.inr hres))
    · rename_i hres
      split
      · rename_i hcom
        exact .sign (evolves_answer .commit (fun s => ⟨outcome_of st s, .inl hres⟩) fun _ => hcom)
      rename_i hcom
      split
      · rename_i hab
        refine .sign (evolves_answer .abort (fun s => ⟨outcome_of st s, .inl hres⟩) fun _ => ?_)
        simpa [OutcomeEvent.enabled, outcome, hab] using hcom
      · have hf : Fresh srv d st (.message (.phase1 txn isGossip) occ) [] (.tryPrepare txn isGossip) :=
          .plain rfl hm trivial rfl rfl rfl (fun he => by cases he) fun he => by cases he
        exact (htrack st.oo (.inl rfl)).trans (.dispatch (fun _ => hf) fun _ _ _ he => by cases he)

theorem trail_handleMessage (msg : Message) :
    Trail srv d (Justified srv d st (.message msg occ)) st (.message msg occ) st (handleMessage srv d st occ msg) := by
  have hm : AtHand d st (.message msg occ) msg := .inl ⟨occ, rfl⟩
  have hs : Agrees st st := ⟨rfl, rfl, rfl, rfl, rfl, rfl, rfl⟩
  have hg : ∀ txn, st.ongoing = some txn → TxnAtHand d st (.message msg occ) txn := fun txn h => .inl h
  cases msg with
  | phase1 txn isGossip => exact trail_handlePhase1
  | phase1FB txn =>
    refine trail_handlePhase1FB (fun _ _ => trivial) hm (fun _ => ⟨_, _, rfl, by simp [txns]⟩)
      (fun ha => ha.message _ _ rfl) fun hfw hres s => ⟨⟨rfl, rfl, rfl, rfl, rfl⟩, rfl, nofun, fun _ => ?_⟩
    simp [Input.executes, hres, hfw]
  | phase2 msg => exact trail_handlePhase2 hs hg hm rfl
  | phase2FB msg => exact trail_handlePhase2FB hs hg hm
  | invokeFB msg => exact trail_handleInvokeFB
  | electFB msg => exact trail_handleElectFB hm
  | decisionFB msg => exact trail_handleDecisionFB hs hg hm
  | moveView d' view => exact trail_handleMoveView
  | writeback msg =>
    refine trail_handleWriteback hs hg hm (fun s => outcome_of st s) fun ha hnone txn htxn => ?_
    simpa [digest, hnone, htxn] using ha.message _ _ rfl
  | supply d' proof => exact trail_processSuppliedTxn fun hd => hd d' proof occ rfl ▸ hm

section Tasks

variable (hs : Agrees st₀ st) (ht : inp.task? st₀ = some t) (hacc : t.accepted srv d = true)
include hs ht hacc

theorem trail_finishTask (hon : st.ongoing = st₀.ongoing) (hocc : inp.occ? = some occ) :
    Trail srv d (Justified srv d st₀ inp) st₀ inp st (finishTask srv d st occ t) := by
  have hcommit : ∀ {proof}, t.commits = some proof → (t.isSupply = false → st.finished = false) →
      ∀ s, Justified srv d st₀ inp (st.outcome s) (.commit proof) := fun h hf s =>
    ⟨hs.of s, t, ht, hacc, h, fun hsup => hs.finished ▸ hf hsup⟩
  have habort : ∀ {wb}, t.aborts = some wb → ∀ s, Justified srv d st₀ inp (st.outcome s) (.abort wb) := fun h s =>
    ⟨hs.of s, t, ht, hacc, h⟩
  cases t with
  | tryPrepare txn isGossip =>
    have hprep : inp.prepares st₀ = true := by simp [Input.prepares, ht, Task.isTryPrepare]
    exact trail_tryPrepare (fun _ _ => trivial) (fun s dec h => ⟨hs.of s, .inr ⟨hprep, hon ▸ h⟩⟩)
      (fun s h => ⟨hs.of s, hocc, fun _ => ⟨hprep, hon ▸ h, hon⟩, nofun⟩) _
  | tryExec txn =>
    refine trail_tryExec (fun _ _ => trivial) fun s => ⟨hs.of s, hocc, nofun, fun _ => ?_⟩
    cases inp with
    | task i occ => simp [Input.executes, ht, Task.isTryExec]
    | _ => cases ht
  | phase2 msg txn my => exact trail_handlePhase2CB hs.p2 ⟨_, ht, hacc, rfl⟩
  | p2fbReplies msg txn replies my | p2fbVotes msg txn sigs my =>
    exact trail_processP2FBCallback hs.p2 ⟨_, ht, hacc, rfl⟩
  | invokeReplies msg p2fb txn replies my | invokeVotes msg p2fb txn sigs my =>
    exact trail_invokeFBProcessP2FBCallback (.inr (.inr ⟨_, ht, rfl⟩)) (.inr ⟨_, ht, rfl⟩) hs ⟨_, ht, hacc, rfl⟩
  | verifyViews msg views logGrp my => exact trail_invokeFBcallback (.inr ⟨_, ht, rfl⟩) (fun hv => hv _ ht rfl)
  | ownElect view dec =>
    exact trail_ownElect ⟨_, ht, hacc, rfl⟩ fun h =>
      ⟨hs.p2, _, ht, hacc, by simp [Task.adopts, Task.counts, ← hs.sigs, h]⟩
  | elect msg =>
    exact trail_electFBcallback ⟨_, ht, hacc, rfl⟩ fun h =>
      ⟨hs.p2, _, ht, hacc, by simp [Task.adopts, Task.counts, ← hs.sigs, h]⟩
  | decision msg txn my => exact trail_fbDecisionCallback ⟨hs.p2, _, ht, hacc, rfl⟩
  | writebackP1 msg txn sigs my | writebackP2 msg txn sigs view my | writebackConflict msg txn proof =>
    exact trail_writebackCallback (fun hf h => hcommit (by simp [Task.commits, h]) fun _ => hf)
      fun _ h => habort (by simp [Task.aborts, h])
  | supply proof => exact trail_commit (hcommit rfl nofun)

end Tasks

theorem Trail.take (i : Nat) : Trail srv d reason st₀ inp st ({ st with tasks := st.tasks.eraseIdx i }, []) where
  refines _ := .idle rfl rfl
  evolves := .idle (fun _ => rfl) rfl
  tasks _ := ⟨fun _ h => .inl (mem_of_mem_eraseIdx h), fun _ => .inl, fun _ => .inl, fun _ _ _ => .inl⟩
  filed _ hf := ⟨hf.ongoing, hf.oo, fun t h => hf.tasks t (mem_of_mem_eraseIdx h)⟩

theorem act_trail (srv : Server) (d : Digest) (st : TxnState) (inp : Input) :
    Trail srv d (Justified srv d st inp) st inp st (st.act srv d inp) := by
  cases inp with
  | message msg occ => exact trail_handleMessage msg
  | task i occ =>
    simp only [act]
    split
    · exact .same
    rename_i t ht
    let st' := { st with tasks := st.tasks.eraseIdx i }
    have h : Trail srv d (Justified srv d st (.task i occ)) st (.task i occ) st' (completeTask srv d st' occ t) := by
      rw [completeTask]
      split
      · exact trail_finishTask ⟨rfl, rfl, rfl, rfl, rfl, rfl, rfl⟩ ht ‹_› rfl rfl
      · exact .same
    exact (Trail.take i).trans h
  | wake depsCommitted =>
    simp only [act]
    split
    · exact trail_checkDependents (fun _ _ => trivial) fun s => ⟨outcome_of st s, rfl, rfl⟩
    · exact .same

end Decisions

theorem act_tasks (srv : Server) (d : Digest) (st : TxnState) (inp : Input)
    (hd : ∀ d' proof occ, inp = .message (.supply d' proof) occ → d' = d) :
    TasksFrom srv d st inp st (st.act srv d inp) :=
  (act_trail srv d st inp).tasks hd

theorem Filed.act (h : Filed srv d st) (hd : ∀ msg occ, inp = .message msg occ → msg.digest srv.digestOf = d) :
    Filed srv d (st.act srv d inp).1 :=
  (act_trail srv d st inp).filed ⟨hd, h⟩ h

/-- Every step of a node is a run of the machine for the record, with a reason for each event. -/
theorem Node.step_refines (nd : Node) (inp : Input)
    (hv : ∀ t, inp.task? nd.state = some t → t.isVerifyViews = true → srv.allToAllFb = false) :
    Run.Reaches (Logger.step srv d) (fun l e => Allowed srv d nd.state inp l.p2 e) nd.logger
      (nd.step srv d inp).logger := by
  have h := (act_trail srv d nd.state inp).refines hv (nd.signed.filter SignedBody.isBallot)
  rw [← filter_append] at h
  exact h

/-- Every step of a node is a run of the machine for the outcome, with a reason for each event. -/
theorem Node.step_outcome (srv : Server) (d : Digest) (nd : Node) (inp : Input) :
    Run.Reaches (Outcome.step srv d) (Justified srv d nd.state inp) nd.outcome (nd.step srv d inp).outcome := by
  have h := (act_trail srv d nd.state inp).evolves (nd.signed.filter SignedBody.isVote)
  rw [← filter_append] at h
  exact h

variable {c : Cluster}

theorem Event.supply_digest {d' : Digest} (h : e.input = .message (.supply d' proof) occ) :
    d' = e.digest c.digestOf := by
  cases e <;> simp only [Event.input, Input.message.injEq, reduceCtorEq] at h
  obtain ⟨rfl, -⟩ := h
  rfl

/-- In the all-to-all mode no replica verifies view proofs. -/
def NoViewProofs (c : Cluster) (nd : Node) : Prop :=
  ∀ t ∈ nd.state.tasks, t.isVerifyViews = true → c.allToAllFb = false

theorem noViewProofs_step (h : NoViewProofs c (w e.replica (e.digest c.digestOf))) :
    NoViewProofs c ((w e.replica (e.digest c.digestOf)).step (c.server e.replica) (e.digest c.digestOf) e.input) := by
  intro t ht hv
  have hfrom := act_tasks (c.server e.replica) (e.digest c.digestOf)
    (w e.replica (e.digest c.digestOf)).state e.input fun d' proof occ => Event.supply_digest
  rcases hfrom.tasks t ht with ht | ht
  · exact h t ht hv
  · exact ht.clientDriven hv

theorem Input.task?_mem (h : inp.task? st = some t) : t ∈ st.tasks := by
  cases inp with
  | task i occ => exact mem_of_getElem? h
  | message msg occ => cases h
  | wake b => cases h

/-- What every proper step keeps and is a run of the machine on the Phase2 record holds of all nodes in all runs. -/
theorem World.logger_invariant {ok : World → Event → Prop} {P : Nat → Digest → Node → Prop} (hinit : ∀ r d, P r d {})
    (hstep : ∀ {w : World} {e : Event} {nd nd' : Node}, ok w e → c.byzantine e.replica = false →
      nd = w e.replica (e.digest c.digestOf) → nd' = nd.step (c.server e.replica) (e.digest c.digestOf) e.input →
      Run.Reaches (Logger.step (c.server e.replica) (e.digest c.digestOf))
        (fun l => Allowed (c.server e.replica) (e.digest c.digestOf) nd.state e.input l.p2) nd.logger nd'.logger →
      P e.replica (e.digest c.digestOf) nd → P e.replica (e.digest c.digestOf) nd') {es : List Event}
    (hm : Run.Meets (World.step c) ok World.init es) (h : Run.exec (World.step c) World.init es = some w) (r : Nat)
    (d : Digest) : P r d (w r d) := by
  refine (World.node_invariant (P := fun r d nd => NoViewProofs c nd ∧ P r d nd)
    (fun r d => ⟨fun t ht => (by cases ht), hinit r d⟩) ?_ hm h r d).2
  intro w e hok hb _ hP
  refine ⟨noViewProofs_step hP.1, hstep hok hb rfl rfl ?_ hP.2⟩
  exact Node.step_refines _ _ fun t ht hv => hP.1 t (Input.task?_mem ht) hv

section

variable {es : List Event} {w : World} (h : Run.exec (World.step c) World.init es = some w)
include h

theorem ballots_own (r : Nat) (d : Digest) : (w r d).logger.Own (c.server r) d := by
  refine World.logger_invariant (P := fun r d nd => nd.logger.Own (c.server r) d)
    (fun r d b hb => (by cases hb)) ?_ (Run.meets_true _ _) h r d
  intro w e nd nd' _ _ _ _ hreach hP
  exact hreach.invariant (fun hP _ hs => hP.step hs) hP

theorem phase2Decision_own {r g v : Nat} {d d' : Digest} (hb : .phase2Decision dec d' g v ∈ (w r d).signed) :
    setP2 (c.server r) d dec v ∈ (w r d).logger.signed ∧ d' = d ∧ g = r / c.config.n := by
  have hmem : SignedBody.phase2Decision dec d' g v ∈ (w r d).logger.signed :=
    mem_filter.mpr ⟨hb, rfl⟩
  rcases ballots_own h r d _ hmem with ⟨dec', v', heq⟩ | ⟨dec', v', heq⟩
  · simp only [setP2, SignedBody.phase2Decision.injEq] at heq
    obtain ⟨rfl, rfl, rfl, rfl⟩ := heq
    exact ⟨hmem, rfl, rfl⟩
  · cases heq

end

end Pequin
