import Pequin.Model.AsyncValidation
import Pequin.Proof.Validate

/-!
# Jobs in any order

What the validators of `Model/AsyncValidation` report, for every order in which their jobs complete: the shared object
counts down its jobs; the completion callback is called iff the count ends with the last job (`Countdown.finishes`),
and everything else ends the process (`exec_votes`, `exec_replies`).
-/

namespace Pequin

open Countdown Dispatch List

variable {order js : List (Nat × Bool)} {q : Nat} {o : AsyncVerification}

/-! ## Calling back -/

def AsyncVerification.needed (o : AsyncVerification) : Nat :=
  if o.decision = .commit then o.groupTotals else 1

/-- What a job counts for: the group is cut to 32 bits. -/
def jobKey (j : Nat × Bool) : Nat × Bool := (j.1 % 2 ^ 32, j.2)

/-- A callback that reports nothing ends the process if it is the last one. -/
theorem exec_incomplete {cb : CallBack} {o' : AsyncVerification} {j : Nat × Bool} {rest : List (Nat × Bool)}
    (hcb : cb o j.1 j.2 = if o.deletable - 1 = 0 then none else some (o', none))
    (hd : o.deletable = (j :: rest).length) (rs : List Bool) : (Run.exec (step cb) (o, rs) (j :: rest)).map Prod.snd =
      if rest = [] then none else (Run.exec (step cb) (o', rs) rest).map Prod.snd := by
  rw [length_cons] at hd
  rw [Run.exec, step, hcb, hd, Nat.add_sub_cancel]
  cases rest with
  | nil => rfl
  | cons j' rest => simp

/-- Once the object is terminated, a callback only counts down. -/
def CountsDown (cb : CallBack) : Prop :=
  ∀ o g r, o.terminate = true → cb o g r =
    if o.deletable - 1 = 0 then none else some ({ o with deletable := o.deletable - 1 }, none)

theorem p1Callback_countsDown : CountsDown asyncValidateP1RepliesCallback := fun o g r ht => by
  simp only [asyncValidateP1RepliesCallback, ht, if_true]

theorem p2Callback_countsDown : CountsDown asyncValidateP2RepliesCallback := fun o g r ht => by
  simp only [asyncValidateP2RepliesCallback, ht, if_true]

/-- Whoever comes after the termination comes too late, and the last one ends the process. -/
theorem exec_terminated {cb : CallBack} (hcb : CountsDown cb) (ht : o.terminate = true)
    (hd : o.deletable = order.length) (rs : List Bool) :
    (Run.exec (step cb) (o, rs) order).map Prod.snd = if order = [] then some rs else none := by
  induction order generalizing o rs with
  | nil => rfl
  | cons j rest ih =>
    have hlen : o.deletable - 1 = rest.length := by rw [hd, length_cons, Nat.add_sub_cancel]
    rw [exec_incomplete (hcb o j.1 j.2 ht) hd, ih (o := { o with deletable := o.deletable - 1 }) ht hlen]
    cases rest <;> rfl

/-- A validation that is going on: `groupsVerified` is the number of complete groups, none for an abort. -/
structure Counting (o : AsyncVerification) : Prop where
  active : o.terminate = false
  verified : 0 < o.quorumSize → o.groupsVerified = (complete o.quorumSize o.groupCounts).length
  abort : o.decision ≠ .commit → o.groupsVerified = 0

/-- One more counted entry, and whether it ends the count. -/
def AsyncVerification.count (o : AsyncVerification) (g : Nat) : AsyncVerification :=
  if (g :: o.groupCounts).count g = o.quorumSize then
    { o with groupCounts := g :: o.groupCounts, groupsVerified := o.groupsVerified + 1 }
  else { o with groupCounts := g :: o.groupCounts }

theorem Counting.ends_iff (h : Counting o) {g : Nat} :
    Ends o.quorumSize o.needed o.groupCounts g ↔ (g :: o.groupCounts).count g = o.quorumSize ∧
        (o.decision = .commit → o.groupsVerified + 1 = o.groupTotals) := by
  refine and_congr_right fun hcount => ?_
  have hpos : 0 < o.quorumSize := by
    rw [← hcount, count_cons_self]
    exact Nat.succ_pos _
  rw [complete_cons_of_eq hcount, ← h.verified hpos, AsyncVerification.needed]
  by_cases hdec : o.decision = .commit
  · simp [hdec]
  · simp [hdec, h.abort hdec]

theorem Counting.count (h : Counting o) {g : Nat}
    (hends : ¬Ends o.quorumSize o.needed o.groupCounts g) : Counting (o.count g) := by
  rw [h.ends_iff] at hends
  rw [AsyncVerification.count]
  split
  · rename_i hcount
    have hdec : o.decision = .commit := by
      by_contra hdec
      exact hends ⟨hcount, fun hc => absurd hc hdec⟩
    refine ⟨h.active, fun hpos => ?_, fun hne => absurd hdec hne⟩
    rw [h.verified hpos, complete_cons_of_eq hcount]
  · rename_i hcount
    refine ⟨h.active, fun hpos => ?_, h.abort⟩
    rw [h.verified hpos, complete_cons_of_ne hpos hcount]

section

variable (o) (g : Nat)

@[simp] theorem count_groupCounts : (o.count g).groupCounts = g :: o.groupCounts := by
  rw [AsyncVerification.count]
  split <;> rfl

@[simp] theorem count_quorumSize : (o.count g).quorumSize = o.quorumSize := by
  rw [AsyncVerification.count]
  split <;> rfl

@[simp] theorem count_needed : (o.count g).needed = o.needed := by
  rw [AsyncVerification.count]
  split <;> rfl

end

theorem p1Callback_true (h : Counting o) (groupId : Nat) : asyncValidateP1RepliesCallback o groupId true =
    let o' := { o.count (groupId % 2 ^ 32) with deletable := o.deletable - 1 }
      if Ends o.quorumSize o.needed o.groupCounts (groupId % 2 ^ 32) then
        some ({ o' with terminate := true }, some true)
      else if o.deletable - 1 = 0 then none else some (o', none) := by
  simp only [h.ends_iff, asyncValidateP1RepliesCallback, h.active, AsyncVerification.count,
    Bool.false_eq_true, if_false, Bool.not_true]
  generalize groupId % 2 ^ 32 = g
  by_cases hcount : (g :: o.groupCounts).count g = o.quorumSize
  · by_cases hdec : o.decision = .commit
    · by_cases htot : o.groupsVerified + 1 = o.groupTotals
      · simp only [hcount, hdec, htot, if_true, ne_eq, not_true_eq_false, and_false, if_false, implies_true, and_true]
      · simp only [hcount, hdec, htot, if_true, ne_eq, not_true_eq_false, not_false_eq_true, and_true,
          if_false, true_implies, and_false]
    · simp only [hcount, hdec, ne_eq, not_true_eq_false, if_false, false_and, if_true, false_implies, and_true]
  · simp only [hcount, ne_eq, not_false_eq_true, if_true, if_false, false_and]

/-- The votes of all groups: the callback is called iff the count ends with the last job. -/
theorem exec_votes (h : Counting o) (hd : o.deletable = order.length) (hne : order ≠ []) (rs : List Bool) :
    (Run.exec (step asyncValidateP1RepliesCallback) (o, rs) order).map Prod.snd =
      if finishes o.quorumSize o.needed o.groupCounts (order.map jobKey) then some (rs ++ [true]) else none := by
  induction order generalizing o with
  | nil => exact absurd rfl hne
  | cons j rest ih =>
    obtain ⟨groupId, ok⟩ := j
    have hlen : o.deletable - 1 = rest.length := by rw [hd, length_cons, Nat.add_sub_cancel]
    rw [map_cons, jobKey, finishes]
    cases ok with
    | false =>
      -- the object terminates, and nobody reports it
      have hfail : asyncValidateP1RepliesCallback o groupId false = if o.deletable - 1 = 0 then none
          else some ({ o with deletable := o.deletable - 1, terminate := true }, none) := by
        simp [asyncValidateP1RepliesCallback, h.active]
      rw [exec_incomplete hfail hd, exec_terminated p1Callback_countsDown rfl hlen]
      cases rest <;> rfl
    | true =>
      have hcb := p1Callback_true h groupId
      rw [Bool.true_and]
      by_cases hends : Ends o.quorumSize o.needed o.groupCounts (groupId % 2 ^ 32)
      · rw [if_pos hends] at hcb ⊢
        rw [Run.exec, step, hcb]
        refine (exec_terminated p1Callback_countsDown rfl hlen _).trans ?_
        cases rest <;> rfl
      rw [if_neg hends] at hcb ⊢
      rw [exec_incomplete hcb hd]
      by_cases hrest : rest = []
      · rw [hrest]
        rfl
      have hnext : Counting { o.count (groupId % 2 ^ 32) with deletable := o.deletable - 1 } :=
        ⟨(h.count hends).active, (h.count hends).verified, (h.count hends).abort⟩
      have hneed : ({ o.count (groupId % 2 ^ 32) with deletable := o.deletable - 1 } : AsyncVerification).needed =
          o.needed := count_needed o _
      rw [if_neg hrest, ih hnext hlen hrest, hneed, count_quorumSize, count_groupCounts]

theorem dedup_length_eq_one {k : Nat} {l : List Nat} : (k :: l).dedup.length = 1 ↔ ∀ x ∈ l, x = k := by
  constructor
  · intro h x hx
    obtain ⟨y, hy⟩ := length_eq_one_iff.mp h
    have hmem : ∀ z ∈ k :: l, z = y := fun z hz => by
      rw [← mem_dedup, hy] at hz
      exact mem_singleton.mp hz
    rw [hmem x (mem_cons_of_mem k hx), hmem k mem_cons_self]
  · intro h
    have hsub : (k :: l).dedup ⊆ [k] := fun x hx => by
      rcases mem_cons.mp (mem_dedup.mp hx) with rfl | hx
      · exact mem_singleton_self x
      · exact mem_singleton.mpr (h x hx)
    have hle := (subperm_of_subset (nodup_dedup (k :: l)) hsub).length_le
    have hpos : 0 < (k :: l).dedup.length :=
      length_pos_of_mem (mem_dedup.mpr mem_cons_self)
    rw [length_singleton] at hle
    omega

/-- The replies of one group, likewise; counts of other groups end the process. -/
theorem exec_replies {g : Nat} (ht : o.terminate = false) (hk : ∀ j ∈ order, j.1 = g) (hd : o.deletable = order.length)
    (hne : order ≠ []) (rs : List Bool) : (Run.exec (step asyncValidateP2RepliesCallback) (o, rs) order).map Prod.snd =
      if (∀ x ∈ o.groupCounts, x = g % 2 ^ 32) ∧
          finishes o.quorumSize 1 o.groupCounts (order.map jobKey) = true then some (rs ++ [true]) else none := by
  induction order generalizing o with
  | nil => exact absurd rfl hne
  | cons j rest ih =>
    obtain ⟨groupId, ok⟩ := j
    obtain rfl : groupId = g := hk _ mem_cons_self
    have hlen : o.deletable - 1 = rest.length := by rw [hd, length_cons, Nat.add_sub_cancel]
    rw [map_cons, jobKey, finishes]
    cases ok with
    | false =>
      have hfail : asyncValidateP2RepliesCallback o groupId false = none := by
        simp [asyncValidateP2RepliesCallback, ht]
      rw [Run.exec, step, hfail, Bool.false_and, Option.map_none, if_neg fun h => Bool.false_ne_true h.2]
      rfl
    | true =>
      rw [Bool.true_and]
      by_cases hcounts : ∀ x ∈ o.groupCounts, x = groupId % 2 ^ 32
      swap
      · -- two groups among the counts
        have hfail : asyncValidateP2RepliesCallback o groupId true = none := by
          rw [← dedup_length_eq_one] at hcounts
          simp only [asyncValidateP2RepliesCallback, ht, Bool.false_eq_true, if_false, Bool.not_true,
            ne_eq, hcounts, not_false_eq_true, if_true]
        rw [Run.exec, step, hfail, Option.map_none, if_neg fun h => hcounts h.1]
        rfl
      have hcb : asyncValidateP2RepliesCallback o groupId true =
          let o' := { o with deletable := o.deletable - 1, groupCounts := groupId % 2 ^ 32 :: o.groupCounts }
          if Ends o.quorumSize 1 o.groupCounts (groupId % 2 ^ 32) then
            some ({ o' with terminate := true }, some true)
          else if o.deletable - 1 = 0 then none else some (o', none) := by
        simp only [asyncValidateP2RepliesCallback, ht, Bool.false_eq_true, if_false, Bool.not_true,
          ne_eq, dedup_length_eq_one.mpr hcounts, not_true_eq_false, ends_one_iff hcounts]
      by_cases hends : Ends o.quorumSize 1 o.groupCounts (groupId % 2 ^ 32)
      · rw [if_pos hends] at hcb ⊢
        rw [Run.exec, step, hcb]
        refine (exec_terminated p2Callback_countsDown rfl hlen _).trans ?_
        cases rest with
        | nil => simpa using hcounts
        | cons j rest => simp
      rw [if_neg hends] at hcb ⊢
      rw [exec_incomplete hcb hd]
      by_cases hrest : rest = []
      · simp [hrest, finishes]
      rw [if_neg hrest,
        ih (o := { o with deletable := o.deletable - 1, groupCounts := groupId % 2 ^ 32 :: o.groupCounts })
        ht (fun j hj => hk j (mem_cons_of_mem _ hj)) hlen hrest]
      simp only [forall_mem_cons, true_and]

/-! ## Scanning votes -/

/-- The scan of a certificate: it ends with our own entries, fails, or leaves jobs. -/
inductive Scanned (D failed : Dispatch) (ends passes : Prop) (left : Dispatch → Prop) : Prop
  | ended (heq : D = .report true) (hends : ends)
  | failed (heq : D = failed) (hends : ¬ends) (hpass : ¬passes)
  | left (hleft : left D) (hends : ¬ends) (hpass : passes)

theorem Scanned.congr {D failed : Dispatch} {ends ends' passes passes' : Prop} {left left' : Dispatch → Prop}
    (h : Scanned D failed ends passes left) (hends : ends' ↔ ends) (hpasses : passes' ↔ passes)
    (hleft : left D → left' D) : Scanned D failed ends' passes' left' := by
  rw [hends, hpasses]
  cases h with
  | ended heq he => exact .ended heq he
  | failed heq he hp => exact .failed heq he hp
  | left hl he hp => exact .left (hleft hl) he hp

section Votes

variable {c : Configuration} {own : Nat → Bool} {ownMatches : Bool} {valid : Nat → Signature → Bool}
  {x : Nat × Signature} {l : List (Nat × Signature)} {seen : List (Nat × Nat)}

section

variable (o) (counted : List Nat) (jobs : List (Nat × Bool))

/-- The jobs for the entries that are not our own. -/
def voteJobs (own : Nat → Bool) (valid : Nat → Signature → Bool) (l : List (Nat × Signature)) : List (Nat × Bool) :=
  (l.filter fun x => !own x.2.processId).map fun x => (x.1, valid x.1 x.2)

/-- The object once the scan has counted `counted`, and the jobs are dispatched. -/
structure Leaves (o' : AsyncVerification) : Prop where
  counting : Counting o'
  deletable : o'.deletable = jobs.length
  quorumSize : o'.quorumSize = o.quorumSize
  needed : o'.needed = o.needed
  groupCounts : o'.groupCounts.Perm (counted ++ o.groupCounts)

/-- The scan ends with the jobs dispatched. -/
def LeavesJobs (D : Dispatch) : Prop :=
  ∃ o', D = .jobs o' jobs ∧ Leaves o counted jobs o'

end

theorem dispatchP1_cons (h : Counting o) (hx : passesCheck c own ownMatches seen x) :
    dispatchP1 c own ownMatches valid o (x :: l) seen js = if own x.2.processId then
        if Ends o.quorumSize o.needed o.groupCounts x.1 then .report true
        else dispatchP1 c own ownMatches valid (o.count x.1) l (entryKey x :: seen) js
      else dispatchP1 c own ownMatches valid o l (entryKey x :: seen) (js ++ [(x.1, valid x.1 x.2)]) := by
  obtain ⟨g, s⟩ := x
  rw [dispatchP1]
  refine (check_of_passes hx).trans ?_
  by_cases hs : own s.processId = true
  · simp only [h.ends_iff, hs, AsyncVerification.count, if_true]
    by_cases hcount : (g :: o.groupCounts).count g = o.quorumSize
    · by_cases hdec : o.decision = .commit
      · by_cases htot : o.groupsVerified + 1 = o.groupTotals
        · simp only [hcount, hdec, htot, ne_eq, not_true_eq_false, if_false, and_false, implies_true, and_true, if_true]
        · simp only [hcount, hdec, htot, ne_eq, not_true_eq_false, if_false, not_false_eq_true, and_self,
            if_true, true_implies, and_false, entryKey]
      · simp only [hcount, hdec, ne_eq, not_true_eq_false, if_false, false_and, false_implies, and_true, if_true]
    · simp only [hcount, ne_eq, not_false_eq_true, if_true, false_and, if_false, entryKey]
  · rw [if_neg hs, if_neg hs]
    rfl

theorem dispatchP1_panic (hx : ¬passesCheck c own ownMatches seen x) :
    dispatchP1 c own ownMatches valid o (x :: l) seen js = .panic := by
  rw [dispatchP1]
  exact check_of_fails hx

theorem dispatchP1_cases (h : Counting o) (seen : List (Nat × Nat)) (js : List (Nat × Bool)) :
    Scanned (dispatchP1 c own ownMatches valid o l seen js) .panic
      (EndsOwn c own ownMatches o.quorumSize o.needed seen o.groupCounts l) (Passes c own ownMatches seen l)
      (LeavesJobs o (ownGroups own l) (js ++ voteJobs own valid l)) := by
  induction l generalizing o seen js with
  | nil =>
    refine .left ⟨{ o with deletable := js.length }, ?_, ?_⟩ not_endsOwn_nil passes_nil
    · simp [dispatchP1, voteJobs]
    · exact ⟨⟨h.active, h.verified, h.abort⟩, by simp [voteJobs], rfl, rfl, List.Perm.refl _⟩
  | cons x rest ih =>
    rw [endsOwn_cons, passes_cons]
    by_cases hx : passesCheck c own ownMatches seen x
    swap
    · exact .failed (dispatchP1_panic hx) (fun hends => hx hends.1) fun hp => hx hp.1
    rw [dispatchP1_cons h hx]
    by_cases hown : own x.2.processId = true
    · have hjobs : voteJobs own valid (x :: rest) = voteJobs own valid rest := by
        simp [voteJobs, hown]
      have hgroups : ownGroups own (x :: rest) = x.1 :: ownGroups own rest := by
        simp [ownGroups, hown]
      rw [if_pos hown, if_pos hown, hjobs, hgroups]
      by_cases hends : Ends o.quorumSize o.needed o.groupCounts x.1
      · exact .ended (if_pos hends) ⟨hx, .inl ⟨hown, hends⟩⟩
      rw [if_neg hends]
      have hrest := ih (h.count hends) (entryKey x :: seen) js
      refine hrest.congr (by simp [hx, hends]) (by simp [hx]) ?_
      rintro ⟨o', heq, hleaves⟩
      refine ⟨o', heq, hleaves.counting, hleaves.deletable, hleaves.quorumSize.trans (count_quorumSize o x.1),
        hleaves.needed.trans (count_needed o x.1), hleaves.groupCounts.trans ?_⟩
      rw [count_groupCounts]
      exact perm_middle
    · have hjobs : js ++ voteJobs own valid (x :: rest) = js ++ [(x.1, valid x.1 x.2)] ++ voteJobs own valid rest := by
        simp [voteJobs, hown]
      have hgroups : ownGroups own (x :: rest) = ownGroups own rest := by
        simp [ownGroups, hown]
      rw [if_neg hown, if_neg hown, hjobs, hgroups]
      exact (ih h (entryKey x :: seen) (js ++ [(x.1, valid x.1 x.2)])).congr (by simp [hx, hown]) (by simp [hx]) id

theorem dispatchBatchP1_cases (h : Counting o) (seen : List (Nat × Nat)) (js : List (Nat × Bool)) :
    Scanned (dispatchBatchP1 c valid o l seen js) (.report false) False (Passes c (fun _ => false) false seen l)
      (LeavesJobs o [] (js ++ voteJobs (fun _ => false) valid l)) := by
  induction l generalizing seen js with
  | nil =>
    refine .left ⟨{ o with deletable := js.length }, ?_, ?_⟩ id passes_nil
    · simp [dispatchBatchP1, voteJobs]
    · exact ⟨⟨h.active, h.verified, h.abort⟩, by simp [voteJobs], rfl, rfl, List.Perm.refl _⟩
  | cons x rest ih =>
    obtain ⟨g, s⟩ := x
    rw [passes_cons, dispatchBatchP1]
    by_cases hguard : (!isReplicaInGroup c s.processId g || seen.contains (g, s.processId)) = true
    · exact .failed (if_pos hguard) id fun hp => not_guard_iff.mpr ⟨hp.1.1, hp.1.2.1⟩ hguard
    rw [if_neg hguard]
    rw [not_guard_iff] at hguard
    have hx : passesCheck c (fun _ => false) false seen (g, s) :=
      ⟨hguard.1, hguard.2, fun hf => absurd hf Bool.false_ne_true⟩
    have hjobs : js ++ voteJobs (fun _ => false) valid ((g, s) :: rest) =
        js ++ [(g, valid g s)] ++ voteJobs (fun _ => false) valid rest := by
      simp [voteJobs]
    rw [hjobs]
    exact (ih (entryKey (g, s) :: seen) (js ++ [(g, valid g s)])).congr Iff.rfl (by simp [hx]) id

theorem outcome_leaves {o' : AsyncVerification} {counted : List Nat} {jobs : List (Nat × Bool)}
    (h : Leaves o counted jobs o') (hp : order.Perm jobs) (hne : jobs ≠ []) :
    (Dispatch.jobs o' jobs).outcome asyncValidateP1RepliesCallback order =
      if finishes o.quorumSize o.needed o'.groupCounts (order.map jobKey) then some [true] else none := by
  have hlen : o'.deletable = order.length := h.deletable.trans hp.length_eq.symm
  have hne' : order ≠ [] := fun hnil => hne (by rw [hnil] at hp; exact hp.nil_eq.symm)
  have hexec := exec_votes h.counting hlen hne' []
  rw [h.quorumSize, h.needed] at hexec
  exact hexec

end Votes

/-! ## Scanning replies of one group -/

section Replies

variable {α : Type} {pid : α → Nat} {ok skip valid : α → Bool} {g : Nat} {l : List α}

def replyJobs (skip valid : α → Bool) (g : Nat) (l : List α) : List (Nat × Bool) :=
  (l.filter fun e => !skip e).map fun e => (g, valid e)

/-- What the scan of a certificate leaves to the jobs. -/
theorem dispatchReplies_cases (counted : Nat) (seen : List Nat)
    (js : List (Nat × Bool)) (hcounts : o.groupCounts = List.replicate counted g) :
    Scanned (dispatchReplies pid ok skip valid g o l seen js) (.report false)
      (EndsSkipped pid ok skip o.quorumSize seen counted l) (Clean pid ok seen l) fun D =>
        D = .jobs { o with groupCounts := List.replicate (counted + l.countP skip) g,
                           deletable := (js ++ replyJobs skip valid g l).length } (js ++ replyJobs skip valid g l) := by
  induction l generalizing o seen counted js with
  | nil =>
    refine .left ?_ not_endsSkipped_nil clean_nil
    simp [dispatchReplies, replyJobs, hcounts]
  | cons e rest ih =>
    rw [endsSkipped_cons, clean_cons, dispatchReplies]
    by_cases hguard : (!ok e || seen.contains (pid e)) = true
    · have he : ¬(ok e = true ∧ pid e ∉ seen) := fun he => not_guard_iff.mpr he hguard
      exact .failed (if_pos hguard) (fun h => he h.1) fun h => he h.1
    rw [if_neg hguard]
    rw [not_guard_iff] at hguard
    by_cases hskip : skip e = true
    · have hjobs : replyJobs skip valid g (e :: rest) = replyJobs skip valid g rest := by
        simp [replyJobs, hskip]
      have hnum : counted + (e :: rest).countP skip = counted + 1 + rest.countP skip := by
        rw [countP_cons_of_pos hskip]
        omega
      have hrep : g :: o.groupCounts = List.replicate (counted + 1) g := by
        rw [hcounts, replicate_succ]
      rw [if_pos hskip, if_pos hskip, hjobs, hnum]
      simp only [hrep, count_replicate_self]
      by_cases hq : counted + 1 = o.quorumSize
      · exact .ended (if_pos hq) ⟨hguard, .inl ⟨hskip, hq⟩⟩
      rw [if_neg hq]
      exact (ih (o := { o with groupCounts := List.replicate (counted + 1) g }) (counted + 1) (pid e :: seen) js
        rfl).congr (by simp [hguard, hq]) (by simp [hguard]) id
    · have hjobs : js ++ replyJobs skip valid g (e :: rest) = js ++ [(g, valid e)] ++ replyJobs skip valid g rest := by
        simp [replyJobs, hskip]
      have hnum : counted + (e :: rest).countP skip = counted + rest.countP skip := by
        rw [countP_cons_of_neg hskip]
      rw [if_neg hskip, if_neg hskip, hjobs, hnum]
      exact (ih counted (pid e :: seen) (js ++ [(g, valid e)]) hcounts).congr (by simp [hguard, hskip])
        (by simp [hguard]) id

theorem dispatchReplies_ofReplies (pid : α → Nat) (ok skip valid : α → Bool) (g q : Nat)
    (dec : CommitDecision) (l : List α) :
    Scanned (dispatchReplies pid ok skip valid g (.ofReplies q dec) l [] []) (.report false)
      (EndsSkipped pid ok skip q [] 0 l) (Clean pid ok [] l) fun D => D = .jobs
        { AsyncVerification.ofReplies q dec with
          groupCounts := List.replicate (l.countP skip) g, deletable := (replyJobs skip valid g l).length }
        (replyJobs skip valid g l) := by
  have h := @dispatchReplies_cases (.ofReplies q dec) α pid ok skip valid g l 0 [] [] rfl
  simp only [nil_append, Nat.zero_add] at h
  exact h

/-- The entries pass the checks, and those that are verified are valid. -/
structure Good (pid : α → Nat) (ok skip valid : α → Bool) (l : List α) : Prop where
  clean : Clean pid ok [] l
  verified : ∀ e ∈ l, skip e = true ∨ valid e = true

theorem length_replyJobs : (replyJobs skip valid g l).length + l.countP skip = l.length := by
  have hnot : (fun e => !skip e) = fun e => decide ¬skip e = true := by
    funext e
    cases skip e <;> rfl
  rw [replyJobs, length_map, ← countP_eq_length_filter, Nat.add_comm, hnot]
  exact (length_eq_countP_add_countP skip).symm

theorem replyJobs_succeed : (∀ j ∈ replyJobs skip valid g l, j.2 = true) ↔ ∀ e ∈ l, skip e = true ∨ valid e = true := by
  simp only [replyJobs, mem_map, mem_filter, Bool.not_eq_true']
  constructor
  · intro h e he
    cases hs : skip e with
    | true => exact .inl rfl
    | false => exact .inr (h _ ⟨e, ⟨he, hs⟩, rfl⟩)
  · rintro h j ⟨e, ⟨he, hs⟩, rfl⟩
    exact (h e he).resolve_left (by rw [hs]; exact Bool.false_ne_true)

/-- What the jobs of one group report: there must be just enough. Entries not verified count for `g`, the others for `g`
cut to 32 bits. -/
theorem outcome_replies {n : Nat} (hcounts : o.groupCounts = List.replicate n g) (ht : o.terminate = false)
    (hd : o.deletable = order.length) (hk : ∀ j ∈ order, j.1 = g) (hne : order ≠ []) :
    (Dispatch.jobs o js).outcome asyncValidateP2RepliesCallback order = some [true] ↔
      (g < 2 ^ 32 ∨ n = 0) ∧ (∀ j ∈ order, j.2 = true) ∧ order.length + n = o.quorumSize := by
  have hexec := exec_replies ht hk hd hne []
  have hsame : (∀ x ∈ o.groupCounts, x = g % 2 ^ 32) ↔ g < 2 ^ 32 ∨ n = 0 := by
    rw [hcounts]
    simp only [mem_replicate]
    constructor
    · intro h
      by_cases hn : n = 0
      · exact .inr hn
      · left
        rw [h g ⟨hn, rfl⟩]
        exact Nat.mod_lt _ (by decide)
    · rintro (hg | hn) x ⟨hx, rfl⟩
      · exact (Nat.mod_eq_of_lt hg).symm
      · exact absurd hn hx
  rw [outcome, hexec, ← hsame]
  have hkeys : ∀ j ∈ order.map jobKey, j.1 = g % 2 ^ 32 := by
    intro j hj
    obtain ⟨i, hi, rfl⟩ := mem_map.mp hj
    rw [jobKey, hk i hi]
  have hok : (∀ j ∈ order.map jobKey, j.2 = true) ↔ ∀ j ∈ order, j.2 = true := by
    simp [jobKey]
  rw [Option.ite_none_right_eq_some, and_iff_left (by rfl)]
  refine and_congr_right fun hall => ?_
  rw [finishes_one_iff hall hkeys, hok, length_map, hcounts, length_replicate, ne_eq, map_eq_nil_iff]
  exact and_iff_right hne

theorem endsSkipped_of_all (hq : 0 < q) (hclean : Clean pid ok [] l)
    (hskip : ∀ e ∈ l, skip e = true) (hlen : l.length = q) : EndsSkipped pid ok skip q [] 0 l := by
  have hne : l ≠ [] := fun hl => by rw [hl, length_nil] at hlen; omega
  have hl := dropLast_append_getLast hne
  refine ⟨l.dropLast, l.getLast hne, [], hl.symm, by rwa [hl], hskip _ (getLast_mem hne), ?_⟩
  rw [hl, countP_eq_length.mpr hskip, hlen, Nat.zero_add]

/-- The replies that are accepted in an order of the jobs: all good, and exactly a quorum. -/
theorem dispatchReplies_accepts (hq : 0 < q) {dec : CommitDecision} (hp : order.Perm
      (dispatchReplies pid ok skip valid g (.ofReplies q dec) l [] []).verifications) :
    (dispatchReplies pid ok skip valid g (.ofReplies q dec) l [] []).outcome
        asyncValidateP2RepliesCallback order = some [true] ↔ EndsSkipped pid ok skip q [] 0 l ∨
        Good pid ok skip valid l ∧ l.length = q ∧ (g < 2 ^ 32 ∨ ∀ e ∈ l, skip e = false) := by
  obtain ⟨heq, hends⟩ | ⟨heq, hends, hclean⟩ | ⟨heq, hends, hclean⟩ :=
    dispatchReplies_ofReplies pid ok skip valid g q dec l
  · rw [heq]
    exact ⟨fun _ => .inl hends, fun _ => rfl⟩
  · rw [heq]
    refine ⟨fun h => ?_, fun h => ?_⟩
    · exact absurd (singleton_injective (Option.some.inj h)) Bool.false_ne_true
    · exact absurd (h.resolve_left hends).1.clean hclean
  rw [heq] at hp ⊢
  rw [verifications] at hp
  have hlen : (replyJobs skip valid g l).length + l.countP skip = l.length := length_replyJobs
  rw [← hp.length_eq] at hlen
  have hnone : (∀ e ∈ l, skip e = false) ↔ l.countP skip = 0 := by
    simp [countP_eq_zero]
  have hok : (∀ j ∈ order, j.2 = true) ↔ ∀ e ∈ l, skip e = true ∨ valid e = true := by
    rw [← replyJobs_succeed]
    exact forall_congr' fun j => by rw [hp.mem_iff]
  by_cases hnil : order = []
  · -- nobody calls back
    rw [hnil, length_nil, Nat.zero_add] at hlen
    rw [hnil]
    refine ⟨fun h => absurd (Option.some.inj h) (cons_ne_nil _ _).symm, fun h => ?_⟩
    obtain ⟨hgood, hlq, -⟩ := h.resolve_left hends
    exact absurd (endsSkipped_of_all hq hclean (countP_eq_length.mp hlen) hlq) hends
  · have hk : ∀ j ∈ order, j.1 = g := by
      intro j hj
      obtain ⟨e, -, rfl⟩ := mem_map.mp (hp.mem_iff.mp hj)
      rfl
    rw [outcome_replies rfl rfl hp.length_eq.symm hk hnil, hok, hlen, hnone]
    constructor
    · rintro ⟨hg, hall, hlq⟩
      exact .inr ⟨⟨hclean, hall⟩, hlq, hg⟩
    · rintro (h | ⟨hgood, hlq, hg⟩)
      · exact absurd h hends
      · exact ⟨hg, hgood.verified, hlq⟩

/-- The replies that are accepted. -/
theorem validateReplies_iff (hq : 0 < q) : validateReplies pid ok skip valid q l [] 0 = true ↔
    q ≤ l.length ∧ Good pid ok skip valid (l.take q) := by
  -- `verified` entries have been seen, and are good
  have hscan : ∀ (l : List α) (seen : List Nat) (verified : Nat), verified < q →
      (validateReplies pid ok skip valid q l seen verified = true ↔
        q ≤ verified + l.length ∧ Clean pid ok seen (l.take (q - verified)) ∧
          ∀ e ∈ l.take (q - verified), skip e = true ∨ valid e = true) := by
    intro l
    induction l with
    | nil =>
      intro seen verified hlt
      rw [validateReplies, length_nil]
      exact ⟨fun h => absurd h Bool.false_ne_true, fun h => by omega⟩
    | cons e rest ih =>
      intro seen verified hlt
      obtain ⟨k, hk⟩ : ∃ k, q - verified = k + 1 := ⟨q - verified - 1, by omega⟩
      rw [validateReplies, hk, take_succ_cons, clean_cons, forall_mem_cons, length_cons]
      by_cases hguard : (!ok e || seen.contains (pid e)) = true
      · rw [if_pos hguard]
        exact ⟨fun h => absurd h Bool.false_ne_true, fun h => absurd hguard (not_guard_iff.mpr h.2.1.1)⟩
      rw [if_neg hguard]
      rw [not_guard_iff] at hguard
      by_cases hbad : (!skip e && !valid e) = true
      · rw [if_pos hbad]
        simp only [Bool.and_eq_true, Bool.not_eq_true'] at hbad
        simp [hbad]
      rw [if_neg hbad]
      have hgood : skip e = true ∨ valid e = true := by
        by_contra h
        simp only [not_or, Bool.not_eq_true] at h
        exact hbad (by rw [h.1, h.2]; rfl)
      by_cases hlast : verified + 1 = q
      · rw [if_pos hlast]
        obtain rfl : k = 0 := by omega
        refine ⟨fun _ => ⟨by omega, ⟨hguard, clean_nil⟩, hgood, by simp⟩, fun _ => rfl⟩
      · rw [if_neg hlast, ih _ _ (by omega)]
        have hk' : q - (verified + 1) = k := by omega
        rw [hk']
        constructor
        · rintro ⟨hle, hclean, hall⟩
          exact ⟨by omega, ⟨hguard, hclean⟩, hgood, hall⟩
        · rintro ⟨hle, ⟨-, hclean⟩, -, hall⟩
          exact ⟨by omega, hclean, hall⟩
  rw [hscan l [] 0 hq, Nat.zero_add, Nat.sub_zero]
  exact and_congr_right fun _ => ⟨fun h => ⟨h.1, h.2⟩, fun h => ⟨h.clean, h.verified⟩⟩

end Replies

end Pequin
