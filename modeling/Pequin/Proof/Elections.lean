import Pequin.Proof.ElectionCollector
import Pequin.Proof.VoteCertificates

/-!
# Votes in an election

Forged ElectFB messages and the votes that a fallback leader counts, for every sequence of arrivals and every order in
which the verifications end: when forged messages do not change what is counted, and a quorum of votes leads to a
decision (`elect_votes_iff`).
-/

namespace Pequin

open Bool ElectEvent List Screening

open Screening (Arrival Collector Open Unsuppressed)

variable {multiThreading : Bool} {srv : Server} {d : Digest} {st : TxnState}
  {s : Collector ElectVote SignedMessage}

def electArrivals (es : List ElectEvent) : List ElectArrival :=
  es.filterMap fun
    | .arrive a => some a
    | .verified _ => none

def ElectArrival.genuine : ElectArrival → Bool
  | .received msg => validElect msg
  | .own _ _ => true

def ElectEvent.genuine : ElectEvent → Bool
  | .arrive a => a.genuine
  | .verified msg => validElect msg

def filedArrivals (srv : Server) (d : Digest) (as : List ElectArrival) : List (Arrival ElectVote SignedMessage) :=
  as.filterMap (toArrival srv d)

theorem arrivals_toEvents (multiThreading : Bool) (srv : Server) (d : Digest) (es : List ElectEvent) :
    arrivals (es.flatMap (toEvents multiThreading srv d)) = filedArrivals srv d (electArrivals es) := by
  have hone : ∀ e, arrivals (toEvents multiThreading srv d e) = filedArrivals srv d (electArrivals [e]) := by
    intro e
    cases e with
    | arrive a =>
      cases a with
      | received msg =>
        show _ = filedArrivals srv d [.received msg]
        rw [toEvents, filedArrivals, filterMap_cons, toArrival]
        by_cases hl : forLeader srv d msg = true
        · rw [if_pos hl, if_pos hl]
          split <;> rfl
        · rw [if_neg hl, if_neg hl]
          rfl
      | own v dec => rfl
    | verified msg =>
      rw [toEvents]
      split <;> rfl
  induction es with
  | nil => rfl
  | cons e es ih =>
    have hcons : electArrivals (e :: es) = electArrivals [e] ++ electArrivals es :=
      (filterMap_append : electArrivals ([e] ++ es) = _)
    rw [flatMap_cons, arrivals_append, ih, hone, hcons]
    exact filterMap_append.symm

theorem flatMap_filter_genuine (multiThreading : Bool) (srv : Server) (d : Digest) (es : List ElectEvent) :
    (es.filter genuine).flatMap (toEvents multiThreading srv d) =
      (es.flatMap (toEvents multiThreading srv d)).filter (Event.kept validElect) := by
  have hone : ∀ e, (toEvents multiThreading srv d e).filter (Event.kept validElect) =
      if e.genuine then toEvents multiThreading srv d e else [] := by
    intro e
    cases e with
    | arrive a =>
      cases a with
      | received msg =>
        rw [toEvents, genuine, ElectArrival.genuine]
        split
        · cases hv : validElect msg with
          | true =>
            split <;> simp [Event.kept, Arrival.kept, hv]
          | false =>
            split <;> simp [Event.kept, Arrival.kept, hv]
        · split <;> rfl
      | own v dec => rfl
    | verified msg =>
      rw [toEvents, genuine]
      cases hv : validElect msg with
      | true =>
        split <;> simp [Event.kept, hv]
      | false =>
        split <;> simp [Event.kept, hv]
  induction es with
  | nil => rfl
  | cons e es ih =>
    rw [filter_cons, flatMap_cons, filter_append, hone, ← ih]
    split
    · rw [flatMap_cons]
    · rfl

def ElectCounted (st : TxnState) (k : ElectVote) : Prop :=
  k.processId ∈ (st.organizer.viewQuorums k.view k.decision).2.map Signature.processId

theorem Abs.counted_iff (h : Abs multiThreading srv st s) (k : ElectVote) : ElectCounted st k ↔ k ∈ s.counted := by
  rw [ElectCounted, h.counted, mem_map]
  constructor
  · rintro ⟨k', hk', hid⟩
    obtain ⟨hmem, hkey⟩ := mem_filter.mp hk'
    obtain ⟨hview, hdec⟩ := of_decide_eq_true hkey
    exact (ElectVote.ext hview hdec hid : k' = k) ▸ hmem
  · intro hk
    exact ⟨k, mem_filter.mpr ⟨hk, by simp⟩, rfl⟩

section

variable (multiThreading srv d st) (as : List ElectArrival)

/-- Messages with an invalid signature do not change the votes counted, whenever verifications end. -/
def ForgeriesIgnored : Prop :=
  ∀ es, electArrivals es = as → ∀ k, ElectCounted (electRun multiThreading srv d st es) k ↔
    ElectCounted (electRun multiThreading srv d st (es.filter ElectEvent.genuine)) k

def ElectQuorum (view : Nat) (dec : CommitDecision) : Prop :=
  Tally.Attained (fun a : Arrival ElectVote SignedMessage => (a.keyOf electVoteOf).processId)
    (fun a => a ∈ filedArrivals srv d as ∧ a.kept validElect = true ∧ (a.keyOf electVoteOf).view = view ∧
      (a.keyOf electVoteOf).decision = dec) (2 * srv.config.f + 1)

/-- The leader completes a view when such votes have arrived and no verification is waited for. -/
def QuorumsDecide : Prop :=
  ∀ es, electArrivals es = as → pendingElects (electRun multiThreading srv d st es).tasks = [] →
    ∀ view dec, ElectQuorum srv d as view dec → (electRun multiThreading srv d st es).organizer.viewComplete view = true

/-- A vote counted without the forged messages is the first arrival with its view, decision and process. -/
def VotesFirst : Prop :=
  Unsuppressed electVoteOf (passesElect multiThreading) validElect (filedArrivals srv d as)

end

variable {as : List ElectArrival}

theorem passesElect_valid (multiThreading : Bool) (msg : SignedMessage)
    (h : passesElect multiThreading msg = true) : validElect msg = true := by
  rw [passesElect, and_eq_true] at h
  exact h.2

theorem electCollector_inv (multiThreading : Bool) (srv : Server) (d : Digest) (es : List ElectEvent) :
    Inv electVoteOf (passesElect multiThreading) (viewFull srv.config.f)
      (filedArrivals srv d (electArrivals es)) none (electCollector multiThreading srv d es) := by
  rw [← arrivals_toEvents multiThreading]
  exact inv_run (closing_viewFull srv.config.f) _

theorem forgeriesIgnored_of_first (hst : FreshLeader st) (h : VotesFirst multiThreading srv d as) :
    ForgeriesIgnored multiThreading srv d st as := by
  rintro es rfl k
  rw [(abs_run hst es).counted_iff, (abs_run hst _).counted_iff, electCollector, electCollector,
    flatMap_filter_genuine, counted_filter (passesElect_valid multiThreading)]
  rw [arrivals_toEvents]
  exact h

theorem open_own (d : Digest) (as : List ElectArrival) (hf : 0 < srv.config.f) :
    Open electVoteOf (viewFull srv.config.f) (filedArrivals srv d as) := by
  intro l k hnodup hl
  rw [← not_eq_true]
  intro hfull
  obtain ⟨dec, hdec⟩ := viewFull_iff.mp hfull
  have hsub : votesFor l k.view dec ⊆ [⟨k.view, dec, srv.id⟩] := by
    intro k' hk'
    obtain ⟨hmem, hkey⟩ := mem_filter.mp hk'
    obtain ⟨a, ha, hown⟩ := mem_filterMap.mp (mem_of_find?_eq_some (hl k' hmem))
    have hid : k'.processId = srv.id := by
      cases a with
      | received msg =>
        rw [toArrival] at hown
        split at hown <;> cases hown
      | own v dec =>
        cases hown
        rfl
    obtain ⟨hview, hdec⟩ := of_decide_eq_true hkey
    exact mem_singleton.mpr (ElectVote.ext hview hdec hid)
  have hle : (votesFor l k.view dec).length ≤ 1 := (subperm_of_subset (hnodup.filter _) hsub).length_le
  omega

/-- A run in which every vote has arrived and no message has been verified. -/
theorem unchecked_arrive (multiThreading : Bool) (as : List ElectArrival) (b : SignedMessage)
    (h : Event.checked b ∈ (as.map arrive).flatMap (toEvents multiThreading srv d)) :
    passesElect multiThreading b = false := by
  obtain ⟨e, he, hb⟩ := mem_flatMap.mp h
  obtain ⟨a, -, rfl⟩ := mem_map.mp he
  cases multiThreading with
  | false => rfl
  | true =>
    cases a with
    | received msg =>
      rw [toEvents] at hb
      split at hb
      · simp at hb
      · cases hb
    | own v dec => simp [toEvents] at hb

theorem electArrivals_map (as : List ElectArrival) : electArrivals (as.map .arrive) = as := by
  rw [electArrivals, filterMap_map]
  exact filterMap_some

theorem filter_map_arrive (as : List ElectArrival) :
    (as.map arrive).filter genuine = (as.filter ElectArrival.genuine).map .arrive := by
  rw [filter_map]
  rfl

theorem filedArrivals_filter (as : List ElectArrival) : filedArrivals srv d (as.filter ElectArrival.genuine) =
    (filedArrivals srv d as).filter (Arrival.kept validElect) := by
  have h := arrivals_toEvents true srv d ((as.map .arrive).filter genuine)
  rw [flatMap_filter_genuine, arrivals_filter, arrivals_toEvents, electArrivals_map, filter_map_arrive,
    electArrivals_map] at h
  exact h.symm

theorem first_of_forgeriesIgnored (hst : FreshLeader st) (hf : 0 < srv.config.f)
    (h : ForgeriesIgnored multiThreading srv d st as) : VotesFirst multiThreading srv d as := by
  intro k a hfirst hcounts
  by_contra hne
  obtain ⟨x, hx, hkept⟩ := exists_unkept hfirst hne
  have hbad : x.counts (passesElect multiThreading) = false := by
    cases x with
    | ballot msg =>
      rw [counts_ballot, passesElect]
      rw [kept_ballot] at hkept
      rw [hkept, Bool.and_false]
    | vote k' => cases hkept
  -- the arrival that is first is not counted, so the vote is not counted in any run
  have hnever : ∀ es, electArrivals es = as → ¬ElectCounted (electRun multiThreading srv d st es) k := by
    rintro es rfl hcount
    obtain ⟨y, hy, hyc⟩ := (electCollector_inv multiThreading srv d es).counted k
        (((abs_run hst es).counted_iff k).mp hcount)
    rw [hx, Option.some.injEq] at hy
    rw [← hy, hbad] at hyc
    cases hyc
  have hes : ∀ b, Event.checked b ∈
      ((as.filter ElectArrival.genuine).map arrive).flatMap (toEvents multiThreading srv d) →
        passesElect multiThreading b = false := unchecked_arrive multiThreading _
  have harrivals := arrivals_toEvents multiThreading srv d
    ((as.filter ElectArrival.genuine).map arrive)
  rw [electArrivals_map] at harrivals
  have hopen := open_own d (as.filter ElectArrival.genuine) hf
  rw [← harrivals] at hopen
  rw [← filedArrivals_filter, ← harrivals] at hfirst
  cases a with
  | vote k' =>
    refine hnever _ (electArrivals_map as) ((h _ (electArrivals_map as) k).mpr ?_)
    rw [(abs_run hst _).counted_iff, filter_map_arrive]
    exact counted_vote (closing_viewFull srv.config.f) hes hopen hfirst
  | ballot msg =>
    -- the vote is verified when all others are waited for
    rw [counts_ballot, passesElect, and_eq_true] at hcounts
    obtain ⟨rfl, hvalid⟩ := hcounts
    obtain rfl : electVoteOf msg = k := first_key hfirst
    have hlast : electArrivals (as.map .arrive ++ [.verified msg]) = as := by
      rw [electArrivals, filterMap_append, ← electArrivals, electArrivals_map]
      exact append_nil as
    refine hnever _ hlast ((h _ hlast _).mpr ?_)
    rw [(abs_run hst _).counted_iff, filter_append, filter_map_arrive,
      filter_cons_of_pos (show genuine (.verified msg) = true from hvalid), filter_nil,
      electCollector, flatMap_append]
    exact counted_checked (closing_viewFull srv.config.f) hes hopen hvalid hfirst

theorem quorumsDecide_of_first (hst : FreshLeader st) (h : VotesFirst true srv d as) :
    QuorumsDecide true srv d st as := by
  rintro es rfl hidle v dec ⟨l, hnodup, hl, hlen⟩
  have habs : Abs true srv (electRun true srv d st es) (electCollector true srv d es) := abs_run hst es
  have hinv := electCollector_inv true srv d es
  rw [habs.pending] at hidle
  rw [habs.complete]
  by_contra hopen
  -- every vote of the quorum is counted, as the view is not complete
  have hcounted : ∀ a ∈ l, a.keyOf electVoteOf ∈ (electCollector true srv d es).counted := by
    intro a ha
    obtain ⟨hmem, hkept, hview, -⟩ := hl a ha
    have hsome : (first electVoteOf ((filedArrivals srv d (electArrivals es)).filter
        (Arrival.kept validElect)) (a.keyOf electVoteOf)).isSome = true := by
      rw [first, List.find?_isSome]
      exact ⟨a, mem_filter.mpr ⟨hmem, hkept⟩, decide_eq_true rfl⟩
    obtain ⟨x, hx⟩ := Option.isSome_iff_exists.mp hsome
    have hxkept := (mem_filter.mp (mem_of_find?_eq_some hx)).2
    have hcounts : x.counts (passesElect true) = true := by
      cases x with
      | ballot msg => exact hxkept
      | vote k => rfl
    rcases (hinv.settled _ x (h _ x hx hcounts) hcounts).resolve_left (fun he => by cases he) with
      ⟨msg, hmsg, -⟩ | hc | hfull
    · rw [hidle] at hmsg
      cases hmsg
    · exact hc
    · rw [viewFull_iff, hview] at hfull
      exact absurd hfull hopen
  refine hopen ⟨dec, hlen.trans ?_⟩
  have hsub : l.map (Arrival.keyOf electVoteOf) ⊆ votesFor (electCollector true srv d es).counted v dec := by
    intro k hk
    obtain ⟨a, ha, rfl⟩ := mem_map.mp hk
    obtain ⟨-, -, hview, hdec⟩ := hl a ha
    exact mem_filter.mpr ⟨hcounted a ha, decide_eq_true ⟨hview, hdec⟩⟩
  have hnd : (l.map (Arrival.keyOf electVoteOf)).Nodup := by
    refine List.Nodup.of_map ElectVote.processId ?_
    rw [map_map]
    exact hnodup
  have hle := (subperm_of_subset hnd hsub).length_le
  rwa [length_map] at hle

theorem no_quorum_of_decide (hst : FreshLeader st) (hf : 0 < srv.config.f)
    (h : QuorumsDecide false srv d st as) (v : Nat) (dec : CommitDecision) : ¬ElectQuorum srv d as v dec := by
  intro hquorum
  have habs : Abs false srv (electRun false srv d st (as.map .arrive))
      (electCollector false srv d (as.map .arrive)) := abs_run hst _
  have hidle : pendingElects (electRun false srv d st (as.map .arrive)).tasks = [] := by
    rw [habs.pending, habs.serial rfl]
  have hcomplete := h _ (electArrivals_map as) hidle v dec hquorum
  rw [habs.complete] at hcomplete
  have hopen := open_own d as hf
  have harrivals := arrivals_toEvents false srv d (as.map .arrive)
  rw [electArrivals_map] at harrivals
  rw [← harrivals] at hopen
  have hroom := full_unchecked (closing_viewFull srv.config.f)
    (unchecked_arrive false as) hopen ⟨v, dec, srv.id⟩
  rw [viewFull_iff.mpr hcomplete] at hroom
  cases hroom

def electMessageOf (id signer : Nat) : SignedMessage :=
  ⟨(SignedBody.electMessage 0 [7] .commit 3).wire, id, ⟨signer, .electMessage 0 [7] .commit 3⟩⟩

def threeElects : List ElectArrival := [0, 1, 2].map fun i => .received (electMessageOf i i)

def forgedFirst : List ElectArrival := .received (electMessageOf 0 5) :: threeElects

def forgedFirstRun : List ElectEvent :=
  forgedFirst.map .arrive ++ [(0, 5), (0, 0), (1, 1), (2, 2)].map fun x => .verified (electMessageOf x.1 x.2)

end Pequin
