import Pequin.Framework.Screening
import Pequin.Model.Elections

/-!
# A fallback leader as a collector

A fallback leader files the process of an ElectFB before it verifies the message: a collector that files ballots before
they are checked (`Framework/Screening`); its own votes need no check.
-/

namespace Pequin

open Function List TxnState

open Screening (Arrival Collector Closing)

variable {k : ElectVote} {msg : SignedMessage}

/-- A vote of a process for a decision in a view. -/
@[ext] structure ElectVote where
  view : Nat
  decision : CommitDecision
  processId : Nat
  deriving DecidableEq, Repr

def electVoteOf (msg : SignedMessage) : ElectVote := ⟨msg.data.varint 4, msg.data.decision 3, msg.processId⟩

def validElect (msg : SignedMessage) : Bool := verify msg.processId msg.data msg.signature

def passesElect (multiThreading : Bool) (msg : SignedMessage) : Bool := multiThreading && validElect msg

def forLeader (srv : Server) (d : Digest) (msg : SignedMessage) : Bool :=
  isReplicaInGroup srv.config msg.processId srv.groupIdx && decide (leaderIdx srv d (msg.data.varint 4) = srv.idx)

def votesFor (l : List ElectVote) (view : Nat) (decision : CommitDecision) : List ElectVote :=
  l.filter fun k => k.view = view ∧ k.decision = decision

/-- The view is complete: one of the decisions has `2f + 1` votes. -/
def viewFull (f : Nat) (l : List ElectVote) (k : ElectVote) : Bool :=
  [CommitDecision.commit, .abort].any fun dec => 2 * f + 1 ≤ (votesFor l k.view dec).length

theorem viewFull_iff {f : Nat} {l : List ElectVote} :
    viewFull f l k = true ↔ ∃ dec, 2 * f + 1 ≤ (votesFor l k.view dec).length := by
  rw [viewFull, any_eq_true]
  constructor
  · rintro ⟨dec, -, h⟩
    exact ⟨dec, of_decide_eq_true h⟩
  · rintro ⟨dec, h⟩
    refine ⟨dec, ?_, decide_eq_true h⟩
    cases dec <;> decide

theorem closing_viewFull (f : Nat) : Closing (viewFull f) := by
  intro l k k' h
  obtain ⟨dec, hdec⟩ := viewFull_iff.mp h
  refine viewFull_iff.mpr ⟨dec, hdec.trans ?_⟩
  rw [votesFor, votesFor, filter_append, length_append]
  exact Nat.le_add_right _ _

/-! ## The leader as a collector -/

def toArrival (srv : Server) (d : Digest) : ElectArrival → Option (Arrival ElectVote SignedMessage)
  | .received msg => if forLeader srv d msg then some (.ballot msg) else none
  | .own view decision => some (.vote ⟨view, decision, srv.id⟩)

/-- The events of the collector. Without multithreading a check follows at once. -/
def toEvents (multiThreading : Bool) (srv : Server) (d : Digest) :
    ElectEvent → List (Screening.Event ElectVote SignedMessage)
  | .arrive (.received msg) =>
    if forLeader srv d msg then
      if multiThreading then [.arrive (.ballot msg)] else [.arrive (.ballot msg), .checked msg]
    else []
  | .arrive (.own view decision) => [.arrive (.vote ⟨view, decision, srv.id⟩)]
  | .verified msg => if multiThreading then [.checked msg] else []

def pendingElects (tasks : List Task) : List SignedMessage :=
  tasks.filterMap fun
    | .elect msg => some msg
    | _ => none

variable {multiThreading : Bool} {srv : Server} {d : Digest} {st st' : TxnState}
  {s : Collector ElectVote SignedMessage}

def TxnState.organizer (st : TxnState) : ElectFBorganizer := st.elect.getD {}

/-- The entries of the leader and the collector. -/
structure Abs (multiThreading : Bool) (srv : Server) (st : TxnState)
    (s : Collector ElectVote SignedMessage) : Prop where
  forward : (st.interested && st.forwardWriteback) = false
  filed : ∀ v dec p, p ∈ (st.organizer.viewQuorums v dec).1 ↔ ⟨v, dec, p⟩ ∈ s.filed
  counted : ∀ v dec, (st.organizer.viewQuorums v dec).2.map Signature.processId =
    (votesFor s.counted v dec).map ElectVote.processId
  complete : ∀ v, st.organizer.viewComplete v = true ↔ ∃ dec, 2 * srv.config.f + 1 ≤ (votesFor s.counted v dec).length
  pending : pendingElects st.tasks = s.pending
  serial : multiThreading = false → s.pending = []
  pending_filed : ∀ msg ∈ s.pending, electVoteOf msg ∈ s.filed

theorem Abs.forward_eq (h : Abs multiThreading srv st s) : st.forwardWritebackMulti = none := by
  rw [forwardWritebackMulti, h.forward, if_neg Bool.false_ne_true]

theorem update_update {α : Type} (q : Nat → CommitDecision → α) (v : Nat) (dec : CommitDecision) (x : α)
    (v' : Nat) (dec' : CommitDecision) :
    update q v (update (q v) dec x) v' dec' = if v = v' ∧ dec = dec' then x else q v' dec' := by
  by_cases hv : v = v'
  · subst hv
    rw [update_self]
    by_cases hd : dec = dec'
    · subst hd
      rw [update_self, if_pos ⟨rfl, rfl⟩]
    · rw [update_of_ne (Ne.symm hd), if_neg fun h => hd h.2]
  · rw [update_of_ne (Ne.symm hv), if_neg fun h => hv h.1]

theorem votesFor_append (l : List ElectVote) (v : Nat) (dec : CommitDecision) :
    votesFor (l ++ [k]) v dec = votesFor l v dec ++ if k.view = v ∧ k.decision = dec then [k] else [] := by
  rw [votesFor, filter_append, ← votesFor]
  by_cases h : k.view = v ∧ k.decision = dec
  · simp [h]
  · simp [h]

theorem length_votesFor_append (l : List ElectVote) (v : Nat) (dec : CommitDecision) :
    (votesFor (l ++ [k]) v dec).length =
      (votesFor l v dec).length + if k.view = v ∧ k.decision = dec then 1 else 0 := by
  rw [votesFor_append, length_append]
  split <;> rfl

section

variable (h : Abs multiThreading srv st s)
include h

theorem Abs.file (k : ElectVote) (hp : preProcessElectFB st k.view k.decision k.processId = some st') :
    Abs multiThreading srv st' { s with filed := k :: s.filed } ∧ st'.elect.isSome = true ∧ k ∉ s.filed := by
  rw [preProcessElectFB] at hp
  simp only [contains_iff_mem] at hp
  split at hp
  · cases hp
  rename_i hnew
  cases hp
  have hk : k ∉ s.filed := fun hmem => hnew ((h.filed _ _ _).mpr hmem)
  refine ⟨⟨h.forward, fun v dec p => ?_, fun v dec => ?_, h.complete, h.pending, h.serial,
    fun msg hm => mem_cons_of_mem _ (h.pending_filed msg hm)⟩, rfl, hk⟩
  · rw [mem_cons, ← h.filed v dec p]
    simp only [organizer, Option.getD_some, update_update]
    by_cases hkey : k.view = v ∧ k.decision = dec
    · obtain ⟨rfl, rfl⟩ := hkey
      simp [ElectVote.ext_iff]
    · have hne : (⟨v, dec, p⟩ : ElectVote) ≠ k := fun e => hkey ⟨by rw [← e], by rw [← e]⟩
      simp [hkey, hne]
  · rw [← h.counted v dec]
    simp only [organizer, Option.getD_some, update_update]
    split
    · rename_i hkey
      rw [hkey.1, hkey.2]
    · rfl

theorem Abs.filed_of_none (k : ElectVote)
    (hp : preProcessElectFB st k.view k.decision k.processId = none) : k ∈ s.filed := by
  rw [preProcessElectFB] at hp
  simp only [contains_iff_mem] at hp
  split at hp
  · rename_i hmem
    exact (h.filed _ _ _).mp hmem
  · cases hp

theorem Abs.adopt (v : Nat) (dec : CommitDecision) : Abs multiThreading srv (adoptDecision srv d st v dec).1 s := by
  rw [adoptDecision]
  split
  · exact h
  · exact ⟨h.forward, h.filed, h.counted, h.complete, h.pending, h.serial, h.pending_filed⟩

theorem Abs.sign {sig : Signature} (hsig : sig.processId = k.processId) {viewComplete : Nat → Bool}
    (hc : ∀ v, viewComplete v = true ↔ ∃ dec, 2 * srv.config.f + 1 ≤ (votesFor (s.counted ++ [k]) v dec).length) :
    Abs multiThreading srv { st with elect := some { st.organizer with
        viewComplete := viewComplete
        viewQuorums := update st.organizer.viewQuorums k.view
          (update (st.organizer.viewQuorums k.view) k.decision
            ((st.organizer.viewQuorums k.view k.decision).1,
              (st.organizer.viewQuorums k.view k.decision).2 ++ [sig])) } }
      { s with counted := s.counted ++ [k] } := by
  refine ⟨h.forward, fun v dec p => ?_, fun v dec => ?_, hc, h.pending, h.serial, h.pending_filed⟩
  · rw [← h.filed v dec p]
    simp only [organizer, Option.getD_some, update_update]
    split
    · rename_i hkey
      rw [hkey.1, hkey.2]
    · rfl
  · simp only [organizer, Option.getD_some, update_update]
    rw [votesFor_append, map_append, ← h.counted v dec]
    split
    · rename_i hkey
      obtain ⟨rfl, rfl⟩ := hkey
      rw [map_append, map_singleton, map_singleton, hsig]
      rfl
    · rw [map_nil, append_nil]
      rfl

theorem Abs.count (hsome : st.elect.isSome = true) (k : ElectVote)
    (sig : Signature) (hsig : sig.processId = k.processId) :
    Abs multiThreading srv (processElectFB srv d st k.view k.decision sig).1 (s.count (viewFull srv.config.f) k) := by
  obtain ⟨org, horg⟩ := Option.isSome_iff_exists.mp hsome
  have hget : st.organizer = org := by rw [organizer, horg, Option.getD_some]
  have hfull : viewFull srv.config.f s.counted k = true ↔ org.viewComplete k.view = true := by
    rw [viewFull_iff, ← hget, h.complete]
  have hlen : ∀ dec, (org.viewQuorums k.view dec).2.length = (votesFor s.counted k.view dec).length := by
    intro dec
    rw [← hget, ← length_map Signature.processId, h.counted, length_map]
  rw [processElectFB, horg, Collector.count]
  by_cases hc : org.viewComplete k.view = true
  · simp only [hc, if_true, hfull.mpr hc]
    exact h
  have hlt : ∀ dec, (votesFor s.counted k.view dec).length < 2 * srv.config.f + 1 := by
    intro dec
    by_contra hcon
    rw [← hget, h.complete] at hc
    exact hc ⟨dec, Nat.not_lt.mp hcon⟩
  have hother : ∀ v, v ≠ k.view → (org.viewComplete v = true ↔
      ∃ dec, 2 * srv.config.f + 1 ≤ (votesFor (s.counted ++ [k]) v dec).length) := by
    intro v hv
    rw [← hget, h.complete]
    simp only [length_votesFor_append, Ne.symm hv, false_and, if_false, Nat.add_zero]
  simp only [hc, hfull.not.mpr hc, if_false, Bool.false_eq_true, length_append, length_singleton, hlen]
  split
  · -- the vote completes the view
    rename_i hquorum
    refine Abs.adopt ?_ k.view k.decision
    subst hget
    refine h.sign hsig fun v => ?_
    by_cases hv : v = k.view
    · subst hv
      rw [update_self]
      refine ⟨fun _ => ⟨k.decision, ?_⟩, fun _ => rfl⟩
      rw [length_votesFor_append, if_pos ⟨rfl, rfl⟩]
      exact Nat.le_of_eq hquorum.symm
    · rw [update_of_ne hv]
      exact hother v hv
  · rename_i hquorum
    subst hget
    refine h.sign hsig fun v => ?_
    by_cases hv : v = k.view
    · subst hv
      refine ⟨fun e => absurd e hc, fun hex => ?_⟩
      obtain ⟨dec, hdec⟩ := hex
      have := hlt dec
      rw [length_votesFor_append] at hdec
      split at hdec
      · rename_i hkey
        rw [← hkey.2] at this hdec
        omega
      · omega
    · exact hother v hv

end

theorem Abs.dispatch (h : Abs true srv st s) (hm : electVoteOf msg ∈ s.filed) :
    Abs true srv (st.dispatch (.elect msg)) { s with pending := s.pending ++ [msg] } := by
  refine ⟨h.forward, h.filed, h.counted, h.complete, ?_, nofun, fun msg' hm' => ?_⟩
  · rw [TxnState.dispatch, pendingElects, filterMap_append, ← pendingElects, h.pending]
    rfl
  · rcases mem_append.mp hm' with hm' | hm'
    · exact h.pending_filed msg' hm'
    · rw [mem_singleton.mp hm']
      exact hm

theorem Abs.elect_isSome (h : Abs multiThreading srv st s) (hk : k ∈ s.filed) : st.elect.isSome = true := by
  rw [← Option.ne_none_iff_isSome]
  intro hnone
  have hmem := (h.filed k.view k.decision k.processId).mpr hk
  rw [organizer, hnone] at hmem
  cases hmem

theorem handleElectFB_not_forLeader (hl : forLeader srv d msg = false) :
    (handleElectFB srv d st msg).1 = st ∧ handleElectFBSerial srv d st msg = st := by
  rw [forLeader, Bool.and_eq_false_iff, decide_eq_false_iff_not] at hl
  rw [handleElectFB, handleElectFBSerial]
  by_cases hg : isReplicaInGroup srv.config msg.processId srv.groupIdx = true
  · have hidx := hl.resolve_left (by rw [hg]; exact Bool.true_eq_false.mp)
    simp [hg, hidx]
  · simp [hg]

theorem handleElectFB_forLeader (hl : forLeader srv d msg = true) (hf : st.forwardWritebackMulti = none) :
    (handleElectFB srv d st msg).1 =
      ((preProcessElectFB st (electVoteOf msg).view (electVoteOf msg).decision (electVoteOf msg).processId).elim st
        fun st' => st'.dispatch (.elect msg)) ∧ handleElectFBSerial srv d st msg =
      (preProcessElectFB st (electVoteOf msg).view (electVoteOf msg).decision (electVoteOf msg).processId).getD st := by
  rw [forLeader, Bool.and_eq_true, decide_eq_true_eq] at hl
  rw [handleElectFB, handleElectFBSerial, electVoteOf]
  simp only [hl.1, hl.2, hf, Bool.not_true, Bool.false_eq_true, if_false, ne_eq, not_true_eq_false]
  cases preProcessElectFB st (msg.data.varint 4) (msg.data.decision 3) msg.processId with
  | none => exact ⟨rfl, rfl⟩
  | some st' => exact ⟨rfl, rfl⟩

theorem elect_task (msg : SignedMessage) (tasks : List Task) :
    (msg ∈ pendingElects tasks → tasks[tasks.findIdx (Task.isElect msg)]? = some (.elect msg) ∧
      pendingElects (tasks.eraseIdx (tasks.findIdx (Task.isElect msg))) = (pendingElects tasks).erase msg) ∧
    (msg ∉ pendingElects tasks → tasks[tasks.findIdx (Task.isElect msg)]? = none) := by
  induction tasks with
  | nil => exact ⟨nofun, fun _ => rfl⟩
  | cons t rest ih =>
    rw [findIdx_cons]
    by_cases ht : Task.isElect msg t = true
    · obtain rfl : t = .elect msg := by
        cases t with
        | elect m => rw [beq_iff_eq.mp ht]
        | _ => cases ht
      rw [ht, cond_true]
      refine ⟨fun _ => ⟨rfl, (erase_cons_head msg (pendingElects rest)).symm⟩, fun hn => ?_⟩
      exact absurd mem_cons_self hn
    · have hcons : ∃ l, (∀ l', pendingElects (t :: l') = l ++ pendingElects l') ∧ msg ∉ l := by
        cases t with
        | elect m =>
          refine ⟨[m], fun _ => rfl, fun hm => ht ?_⟩
          exact beq_iff_eq.mpr (mem_singleton.mp hm).symm
        | _ => exact ⟨[], fun _ => rfl, not_mem_nil⟩
      obtain ⟨l, hl, hmem⟩ := hcons
      rw [Bool.not_eq_true] at ht
      rw [ht, cond_false, List.getElem?_cons_succ, eraseIdx_cons_succ, hl, hl,
        erase_append_right _ hmem, mem_append, or_iff_right hmem, append_cancel_left_eq]
      exact ih

theorem completeTask_elect (msg : SignedMessage) : completeTask srv d st .ignore (.elect msg) =
    if validElect msg then electFBcallback srv d st msg else (st, []) := rfl

theorem Abs.checked (h : Abs true srv st s) (msg : SignedMessage) :
    Abs true srv (st.act srv d (.task (st.tasks.findIdx (Task.isElect msg)) .ignore)).1
      (s.step electVoteOf (passesElect true) (viewFull srv.config.f) (.checked msg)) := by
  have htask := elect_task msg st.tasks
  rw [h.pending] at htask
  rw [act, Collector.step]
  by_cases hp : msg ∈ s.pending
  · obtain ⟨hat, hrest⟩ := htask.1 hp
    rw [hat, if_pos hp]
    have herase : Abs true srv
        { st with tasks := st.tasks.eraseIdx (st.tasks.findIdx (Task.isElect msg)) }
        { s with pending := s.pending.erase msg } :=
      ⟨h.forward, h.filed, h.counted, h.complete, hrest, fun hf => (by cases hf),
        fun m hm => h.pending_filed m (mem_of_mem_erase hm)⟩
    simp only [completeTask_elect, passesElect, Bool.true_and]
    by_cases hv : validElect msg = true
    · rw [if_pos hv, if_pos hv, electFBcallback, herase.forward_eq]
      exact herase.count (herase.elect_isSome (h.pending_filed msg hp)) (electVoteOf msg)
        ⟨msg.processId, msg.signature⟩ rfl
    · rw [if_neg hv, if_neg hv]
      exact herase
  · rw [htask.2 hp, if_neg hp]
    exact h

theorem Abs.step (h : Abs multiThreading srv st s) (e : ElectEvent) :
    Abs multiThreading srv (electStep multiThreading srv d st e)
      (s.run electVoteOf (passesElect multiThreading) (viewFull srv.config.f) (toEvents multiThreading srv d e)) := by
  cases e with
  | arrive a =>
    cases a with
    | received msg =>
      rw [electStep, toEvents]
      by_cases hl : forLeader srv d msg = true
      swap
      · rw [Bool.not_eq_true] at hl
        obtain ⟨hmulti, hserial⟩ := handleElectFB_not_forLeader hl
        rw [hmulti, hserial, hl, if_neg Bool.false_ne_true]
        split <;> exact h
      · obtain ⟨hmulti, hserial⟩ := handleElectFB_forLeader hl h.forward_eq
        rw [hmulti, hserial, if_pos hl]
        cases hpre : preProcessElectFB st (electVoteOf msg).view (electVoteOf msg).decision
            (electVoteOf msg).processId with
        | none =>
          have hstep : s.step electVoteOf (passesElect multiThreading) (viewFull srv.config.f)
              (.arrive (.ballot msg)) = s := if_pos (h.filed_of_none (electVoteOf msg) hpre)
          cases multiThreading with
          | true =>
            rw [if_pos rfl, if_pos rfl, Collector.run, foldl_cons, foldl_nil, hstep]
            exact h
          | false =>
            have hcheck : s.step electVoteOf (passesElect false) (viewFull srv.config.f) (.checked msg) = s :=
              if_neg (by rw [h.serial rfl]; exact not_mem_nil)
            rw [if_neg Bool.false_ne_true, if_neg Bool.false_ne_true, Collector.run, foldl_cons,
              foldl_cons, foldl_nil, hstep, hcheck]
            exact h
        | some st' =>
          obtain ⟨hfile, -, hnew⟩ := h.file (electVoteOf msg) hpre
          have hstep : s.step electVoteOf (passesElect multiThreading) (viewFull srv.config.f)
              (.arrive (.ballot msg)) =
                { s with filed := electVoteOf msg :: s.filed, pending := s.pending ++ [msg] } := if_neg hnew
          cases multiThreading with
          | true =>
            rw [if_pos rfl, if_pos rfl, Collector.run, foldl_cons, foldl_nil, hstep]
            exact hfile.dispatch mem_cons_self
          | false =>
            rw [if_neg Bool.false_ne_true, if_neg Bool.false_ne_true, Collector.run, foldl_cons,
              foldl_cons, foldl_nil, hstep, Collector.step, if_pos (by simp),
              if_neg (by simp [passesElect])]
            have hpending : (s.pending ++ [msg]).erase msg = s.pending := by
              rw [h.serial rfl]
              simp
            rw [hpending]
            exact hfile
    | own v dec =>
      rw [electStep, toEvents, Collector.run, foldl_cons, foldl_nil, Collector.step, ownElect]
      cases hpre : preProcessElectFB st v dec srv.id with
      | none =>
        rw [if_pos (h.filed_of_none ⟨v, dec, srv.id⟩ hpre)]
        exact h
      | some st' =>
        obtain ⟨hfile, hsome, hnew⟩ := h.file ⟨v, dec, srv.id⟩ hpre
        rw [if_neg hnew]
        exact hfile.count hsome ⟨v, dec, srv.id⟩ _ rfl
  | verified msg =>
    rw [electStep, toEvents]
    cases multiThreading with
    | true =>
      exact h.checked msg
    | false =>
      rw [if_neg Bool.false_ne_true, act]
      have hnone := (elect_task msg st.tasks).2 (by rw [h.pending, h.serial rfl]; exact not_mem_nil)
      rw [hnone]
      exact h

def electCollector (multiThreading : Bool) (srv : Server) (d : Digest) (es : List ElectEvent) :
    Collector ElectVote SignedMessage :=
  Collector.run electVoteOf (passesElect multiThreading) (viewFull srv.config.f) {}
    (es.flatMap (toEvents multiThreading srv d))

/-- No election has begun. -/
structure FreshLeader (st : TxnState) : Prop where
  forward : st.forwardWritebackMulti = none
  quorums : ∀ v dec, st.organizer.viewQuorums v dec = ([], [])
  complete : ∀ v, st.organizer.viewComplete v = false
  idle : pendingElects st.tasks = []

/-- The leader's entries and the collector stay in step. -/
theorem abs_run (h : FreshLeader st) (es : List ElectEvent) :
    Abs multiThreading srv (electRun multiThreading srv d st es) (electCollector multiThreading srv d es) := by
  have hrun : ∀ (es : List ElectEvent) (st : TxnState) (s : Collector ElectVote SignedMessage),
      Abs multiThreading srv st s → Abs multiThreading srv (electRun multiThreading srv d st es)
        (s.run electVoteOf (passesElect multiThreading) (viewFull srv.config.f)
          (es.flatMap (toEvents multiThreading srv d))) := by
    intro es
    induction es with
    | nil => exact fun _ _ h => h
    | cons e es ih =>
      intro st s h
      rw [flatMap_cons, Collector.run, foldl_append]
      exact ih _ _ (h.step e)
  refine hrun es st {} ⟨?_, fun v dec p => ?_, fun v dec => ?_, fun v => ?_, h.idle, fun _ => rfl, nofun⟩
  · have hf := h.forward
    rw [forwardWritebackMulti] at hf
    split at hf
    · cases hf
    · rename_i hc
      exact Bool.eq_false_iff.mpr hc
  · rw [h.quorums]
    simp
  · rw [h.quorums]
    rfl
  · rw [h.complete]
    simp [votesFor]

end Pequin
