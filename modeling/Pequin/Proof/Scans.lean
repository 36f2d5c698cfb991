import Mathlib.Data.List.Induction
import Pequin.Model.Certificates
import Pequin.Framework.Countdown

/-!
# What a scan accepts

A validator of `common.cc` checks each entry of a certificate when it comes to it. A failed check
ends the scan, and so does the entry of the validating replica itself that completes the count.
-/

namespace Pequin

open Countdown List

variable {q : Nat}

theorem fresh_cons_iff {α β : Type} {f : α → β} {e : α} {rest : List α} {seen : List β} :
    (((e :: rest).map f).Nodup ∧ ∀ x ∈ e :: rest, f x ∉ seen) ↔
      f e ∉ seen ∧ (rest.map f).Nodup ∧ ∀ x ∈ rest, f x ∉ f e :: seen := by
  rw [map_cons, nodup_cons]
  constructor
  · rintro ⟨⟨he, hnd⟩, hseen⟩
    refine ⟨hseen e mem_cons_self, hnd, fun x hx hmem => ?_⟩
    rcases mem_cons.mp hmem with hxe | hmem
    · exact he (hxe ▸ mem_map_of_mem hx)
    · exact hseen x (mem_cons_of_mem _ hx) hmem
  · rintro ⟨he, hnd, hrest⟩
    refine ⟨⟨fun hmem => ?_, hnd⟩, fun x hx => ?_⟩
    · obtain ⟨x, hx, hpx⟩ := mem_map.mp hmem
      exact hrest x hx (hpx ▸ mem_cons_self)
    · rcases mem_cons.mp hx with rfl | hx
      · exact he
      · exact fun hs => hrest x hx (mem_cons_of_mem _ hs)

theorem not_guard_iff {β : Type} [BEq β] [LawfulBEq β] {ok : Bool} {b : β} {seen : List β} :
    ¬(!ok || seen.contains b) = true ↔ ok = true ∧ b ∉ seen := by
  rw [Bool.or_eq_true, Bool.not_eq_true', contains_iff_mem, not_or, Bool.not_eq_false]

/-! ## One group -/

section Replies

variable {α : Type} {pid : α → Nat} {ok skip valid : α → Bool} {e : α} {l : List α} {seen : List Nat}

structure Clean (pid : α → Nat) (ok : α → Bool) (seen : List Nat) (l : List α) : Prop where
  ok : ∀ e ∈ l, ok e = true
  fresh : (l.map pid).Nodup ∧ ∀ e ∈ l, pid e ∉ seen

theorem clean_nil : Clean pid ok seen [] := ⟨by simp, by simp, by simp⟩

theorem clean_cons : Clean pid ok seen (e :: l) ↔ (ok e = true ∧ pid e ∉ seen) ∧ Clean pid ok (pid e :: seen) l := by
  constructor
  · rintro ⟨hok, hfresh⟩
    obtain ⟨hseen, hrest⟩ := fresh_cons_iff.mp hfresh
    exact ⟨⟨hok e mem_cons_self, hseen⟩, fun y hy => hok y (mem_cons_of_mem e hy), hrest⟩
  · rintro ⟨⟨hok, hseen⟩, hrest⟩
    exact ⟨forall_mem_cons.mpr ⟨hok, hrest.ok⟩, fresh_cons_iff.mpr ⟨hseen, hrest.fresh⟩⟩

/-- The scan comes to an entry that is counted without a signature and is the `q`-th of them. -/
def EndsSkipped (pid : α → Nat) (ok skip : α → Bool) (q : Nat) (seen : List Nat) (counted : Nat) (l : List α) : Prop :=
  ∃ pre e post, l = pre ++ e :: post ∧ Clean pid ok seen (pre ++ [e]) ∧ skip e = true ∧
    counted + (pre ++ [e]).countP skip = q

theorem not_endsSkipped_nil {counted : Nat} : ¬EndsSkipped pid ok skip q seen counted [] := by
  rintro ⟨pre, x, post, h, -⟩
  simp at h

theorem endsSkipped_cons {counted : Nat} : EndsSkipped pid ok skip q seen counted (e :: l) ↔
    (ok e = true ∧ pid e ∉ seen) ∧ ((skip e = true ∧ counted + 1 = q) ∨
      EndsSkipped pid ok skip q (pid e :: seen) (if skip e then counted + 1 else counted) l) := by
  have hcount : ∀ l' : List α, counted + (e :: l').countP skip =
      (if skip e then counted + 1 else counted) + l'.countP skip := by
    intro l'
    rw [countP_cons]
    split
    · omega
    · rfl
  constructor
  · rintro ⟨pre, y, post, hl, hclean, hskip, hq⟩
    cases pre with
    | nil =>
      obtain ⟨rfl, rfl⟩ : e = y ∧ l = post := by simpa using hl
      refine ⟨(clean_cons.mp hclean).1, .inl ⟨hskip, ?_⟩⟩
      simpa [hskip] using hq
    | cons z pre =>
      obtain ⟨rfl, rfl⟩ : e = z ∧ l = pre ++ y :: post := by simpa using hl
      obtain ⟨he, hrest⟩ := clean_cons.mp hclean
      rw [cons_append, hcount] at hq
      exact ⟨he, .inr ⟨pre, y, post, rfl, hrest, hskip, hq⟩⟩
  · rintro ⟨he, ⟨hskip, hq⟩ | ⟨pre, y, post, rfl, hclean, hskip, hq⟩⟩
    · exact ⟨[], e, l, rfl, clean_cons.mpr ⟨he, clean_nil⟩, hskip, by simpa [hskip] using hq⟩
    · refine ⟨e :: pre, y, post, rfl, clean_cons.mpr ⟨he, hclean⟩, hskip, ?_⟩
      rw [cons_append, hcount]
      exact hq

theorem EndsSkipped.quorum_eq_one {id : Nat} (h : EndsSkipped pid ok skip q seen 0 l)
    (hown : ∀ e, skip e = true → pid e = id) : q = 1 := by
  obtain ⟨pre, e, post, -, hclean, hskip, hcount⟩ := h
  have hsub := (filter_sublist : ((pre ++ [e]).filter skip).Sublist (pre ++ [e])).map pid
  have hall : ((pre ++ [e]).filter skip).map pid ⊆ [id] := by
    intro x hx
    obtain ⟨y, hy, rfl⟩ := mem_map.mp hx
    exact mem_singleton.mpr (hown y (mem_filter.mp hy).2)
  have hle := (subperm_of_subset (hclean.fresh.1.sublist hsub) hall).length_le
  rw [length_map, length_singleton, ← countP_eq_length_filter] at hle
  have hpos : 0 < (pre ++ [e]).countP skip := countP_pos_iff.mpr ⟨e, by simp, hskip⟩
  omega

/-- The scan of the entries of one group. -/
theorem scanReplies_iff {skips jobs valids : Nat} :
    scanReplies pid ok skip valid q (completes q) l seen skips jobs valids = true ↔
      EndsSkipped pid ok skip q seen skips l ∨
        Clean pid ok seen l ∧ q ≤ skips + valids + l.countP fun e => skip e || valid e := by
  induction l generalizing seen skips jobs valids with
  | nil =>
    rw [scanReplies, completes, decide_eq_true_eq, countP_nil, Nat.add_zero]
    exact ⟨fun h => .inr ⟨clean_nil, h⟩, fun h => (h.resolve_left not_endsSkipped_nil).2⟩
  | cons e rest ih =>
    rw [endsSkipped_cons, clean_cons, scanReplies]
    by_cases he : ok e = true ∧ pid e ∉ seen
    swap
    · rw [if_pos (not_not.mp (mt not_guard_iff.mp he))]
      refine ⟨fun h => absurd h Bool.false_ne_true, ?_⟩
      rintro (h | h)
      · exact absurd h.1 he
      · exact absurd h.1.1 he
    · rw [if_neg (not_guard_iff.mpr he)]
      by_cases hskip : skip e = true
      · have hcount : (e :: rest).countP (fun e => skip e || valid e) = 1 + rest.countP fun e => skip e || valid e := by
          rw [countP_cons_of_pos (by rw [hskip]; rfl), Nat.add_comm]
        rw [if_pos hskip, if_pos hskip, hcount]
        by_cases hq : skips + 1 = q
        · rw [if_pos (beq_iff_eq.mpr hq)]
          exact ⟨fun _ => .inl ⟨he, .inl ⟨hskip, hq⟩⟩, fun _ => rfl⟩
        rw [if_neg (fun h => hq (beq_iff_eq.mp h)), ih]
        have hsum : skips + valids + (1 + rest.countP fun e => skip e || valid e) =
            skips + 1 + valids + rest.countP fun e => skip e || valid e := by omega
        rw [hsum]
        simp only [he, hskip, hq, not_false_eq_true, and_self, true_and, and_false, false_or]
      · rw [Bool.not_eq_true] at hskip
        have hcount : skips + valids + (e :: rest).countP (fun e => skip e || valid e) =
            skips + (if valid e then valids + 1 else valids) + rest.countP fun e => skip e || valid e := by
          rw [countP_cons, hskip, Bool.false_or]
          split <;> omega
        rw [hskip, if_neg Bool.false_ne_true, if_neg Bool.false_ne_true, ih, hcount]
        simp only [he, not_false_eq_true, and_self, true_and, Bool.false_eq_true, false_and, false_or]

theorem scanReplies_sound (h : scanReplies pid ok skip valid q (completes q) l [] 0 0 0 = true) :
    ∃ l' : List α, (∀ e ∈ l', e ∈ l ∧ ok e = true ∧ (skip e = true ∨ valid e = true)) ∧
      (l'.map pid).Nodup ∧ q ≤ l'.length := by
  have hcounted : ∀ {m : List α} {p : α → Bool}, Clean pid ok [] m → m ⊆ l →
      (∀ e, p e = true → skip e = true ∨ valid e = true) → q ≤ m.countP p →
      ∃ l' : List α, (∀ e ∈ l', e ∈ l ∧ ok e = true ∧ (skip e = true ∨ valid e = true)) ∧
        (l'.map pid).Nodup ∧ q ≤ l'.length := by
    intro m p hclean hm hp hle
    refine ⟨m.filter p, fun e he => ?_, hclean.fresh.1.sublist (filter_sublist.map pid),
      by rwa [← countP_eq_length_filter]⟩
    obtain ⟨he, hpe⟩ := mem_filter.mp he
    exact ⟨hm he, hclean.ok e he, hp e hpe⟩
  rcases scanReplies_iff.mp h with ⟨pre, e, post, rfl, hclean, -, hq⟩ | ⟨hclean, hq⟩
  · exact hcounted hclean (by simp) (fun _ => .inl) (by omega)
  · exact hcounted hclean (Subset.refl l) (fun _ => Bool.or_eq_true_iff.mp) (by omega)

/-- An accepting scan has seen no process twice, unless it stops at the skipped entry of the replica itself. -/
theorem scanReplies_distinct {me : Nat} (hskip : ∀ e, skip e = true → pid e = me) (hq : q ≠ 1)
    (h : scanReplies pid ok skip valid q (completes q) l [] 0 0 0 = true) : (l.map pid).Nodup := by
  rcases scanReplies_iff.mp h with hends | hclean
  · exact absurd (hends.quorum_eq_one hskip) hq
  · exact hclean.1.fresh.1

theorem valid_of_scanReplies {me : Nat} (hskip : ∀ e, skip e = true → pid e = me) (hq : q ≠ 1)
    (h : scanReplies pid ok skip valid q (completes q) l [] 0 0 0 = true) (hlen : l.length ≤ q) (he : e ∈ l)
    (hown : skip e = false) : valid e = true := by
  rcases scanReplies_iff.mp h with hends | ⟨-, hcount⟩
  · exact absurd (hends.quorum_eq_one hskip) hq
  have hall : l.countP (fun e => skip e || valid e) = l.length := le_antisymm countP_le_length (by omega)
  simpa [hown] using countP_eq_length.mp hall e he

theorem scanReplies_complete (hl : ∀ e ∈ l, ok e = true ∧ (skip e = false → valid e = true))
    (hnodup : (l.map pid).Nodup) (hq : q ≤ l.length) :
    scanReplies pid ok skip valid q (completes q) l [] 0 0 0 = true := by
  refine scanReplies_iff.mpr (.inr ⟨⟨fun e he => (hl e he).1, hnodup, by simp⟩, ?_⟩)
  rw [countP_eq_length.mpr fun e he => ?_]
  · omega
  cases hs : skip e with
  | true => rfl
  | false => exact (hl e he).2 hs

end Replies

/-! ## Several groups -/

def entryKey (x : Nat × Signature) : Nat × Nat := (x.1, x.2.processId)

section Votes

variable {c : Configuration} {own : Nat → Bool} {ownMatches : Bool} {valid : Nat → Signature → Bool}
  {needed : Nat} {x : Nat × Signature} {l : List (Nat × Signature)} {seen : List (Nat × Nat)}
  {skips jobs : List Nat}

section

variable (c own ownMatches)

/-- The checks of one entry. -/
def passesCheck (seen : List (Nat × Nat)) (x : Nat × Signature) : Prop :=
  isReplicaInGroup c x.2.processId x.1 = true ∧ entryKey x ∉ seen ∧ (own x.2.processId = true → ownMatches = true)

/-- The entries pass the checks: in their group as far as the code looks, no replica twice, our own only with our vote.
-/
structure Passes (seen : List (Nat × Nat)) (l : List (Nat × Signature)) : Prop where
  inGroup : ∀ x ∈ l, isReplicaInGroup c x.2.processId x.1 = true
  own : ∀ x ∈ l, own x.2.processId = true → ownMatches = true
  fresh : (l.map entryKey).Nodup ∧ ∀ x ∈ l, entryKey x ∉ seen

def ownGroups (l : List (Nat × Signature)) : List Nat :=
  (l.filter fun x => own x.2.processId).map Prod.fst

/-- The scan comes to an own entry that ends the count. -/
def EndsOwn (q needed : Nat) (seen : List (Nat × Nat)) (counts : List Nat) (l : List (Nat × Signature)) : Prop :=
  ∃ pre x post, l = pre ++ x :: post ∧ Passes c own ownMatches seen (pre ++ [x]) ∧
    own x.2.processId = true ∧ Ends q needed (ownGroups own pre ++ counts) x.1

end

theorem passes_nil : Passes c own ownMatches seen [] := ⟨by simp, by simp, by simp, by simp⟩

theorem passes_cons : Passes c own ownMatches seen (x :: l) ↔ passesCheck c own ownMatches seen x ∧
    Passes c own ownMatches (entryKey x :: seen) l := by
  constructor
  · rintro ⟨hgroup, hown, hfresh⟩
    obtain ⟨hseen, hnodup, hrest⟩ := fresh_cons_iff.mp hfresh
    exact ⟨⟨hgroup x mem_cons_self, hseen, hown x mem_cons_self⟩,
      fun y hy => hgroup y (mem_cons_of_mem x hy), fun y hy => hown y (mem_cons_of_mem x hy),
      hnodup, hrest⟩
  · rintro ⟨⟨hgroup, hseen, hown⟩, hrest⟩
    exact ⟨forall_mem_cons.mpr ⟨hgroup, hrest.inGroup⟩, forall_mem_cons.mpr ⟨hown, hrest.own⟩,
      fresh_cons_iff.mpr ⟨hseen, hrest.fresh⟩⟩

theorem endsOwn_cons {counts : List Nat} : EndsOwn c own ownMatches q needed seen counts (x :: l) ↔
    passesCheck c own ownMatches seen x ∧ ((own x.2.processId = true ∧ Ends q needed counts x.1) ∨
      EndsOwn c own ownMatches q needed (entryKey x :: seen)
        (if own x.2.processId then x.1 :: counts else counts) l) := by
  constructor
  · rintro ⟨pre, y, post, hl, hpass, hown, hends⟩
    cases pre with
    | nil =>
      obtain ⟨rfl, rfl⟩ : x = y ∧ l = post := by simpa using hl
      exact ⟨(passes_cons.mp hpass).1, .inl ⟨hown, hends⟩⟩
    | cons z pre =>
      obtain ⟨rfl, rfl⟩ : x = z ∧ l = pre ++ y :: post := by simpa using hl
      obtain ⟨hx, hrest⟩ := passes_cons.mp hpass
      refine ⟨hx, .inr ⟨pre, y, post, rfl, hrest, hown, ?_⟩⟩
      rw [ownGroups, filter_cons] at hends
      split at hends
      · rename_i hx'
        rw [if_pos hx']
        exact (ends_perm perm_middle).mpr hends
      · rename_i hx'
        rwa [if_neg hx']
  · rintro ⟨hx, hown | ⟨pre, y, post, rfl, hpass, hown, hends⟩⟩
    · exact ⟨[], x, l, rfl, passes_cons.mpr ⟨hx, passes_nil⟩, hown⟩
    refine ⟨x :: pre, y, post, rfl, passes_cons.mpr ⟨hx, hpass⟩, hown, ?_⟩
    rw [ownGroups, filter_cons]
    split
    · rename_i hx'
      rw [if_pos hx'] at hends
      exact (ends_perm perm_middle).mp hends
    · rename_i hx'
      rwa [if_neg hx'] at hends

theorem not_endsOwn_nil {counts : List Nat} : ¬EndsOwn c own ownMatches q needed seen counts [] := by
  rintro ⟨pre, x, post, h, -⟩
  simp at h

def validGroups (own : Nat → Bool) (valid : Nat → Signature → Bool) (l : List (Nat × Signature)) : List Nat :=
  (l.filter fun x => !own x.2.processId && valid x.1 x.2).map fun x => x.1 % 2 ^ 32

theorem groupsReached_eq : groupsReached q skips jobs = complete q (skips ++ jobs) := by
  simp only [groupsReached, complete, count_append]

/-- Both scans check an entry before they look at it. -/
theorem check_of_passes {β : Type} {fail mine other : β} (hx : passesCheck c own ownMatches seen x) :
    (if !isReplicaInGroup c x.2.processId x.1 || seen.contains (entryKey x) then fail
      else if own x.2.processId then if !ownMatches then fail else mine else other) =
      if own x.2.processId then mine else other := by
  obtain ⟨hgroup, hseen, hown⟩ := hx
  rw [if_neg (not_guard_iff.mpr ⟨hgroup, hseen⟩)]
  by_cases hs : own x.2.processId = true
  · rw [if_pos hs, if_pos hs, hown hs]
    rfl
  · rw [if_neg hs, if_neg hs]

theorem check_of_fails {β : Type} {fail mine other : β} (hx : ¬passesCheck c own ownMatches seen x) :
    (if !isReplicaInGroup c x.2.processId x.1 || seen.contains (entryKey x) then fail
      else if own x.2.processId then if !ownMatches then fail else mine else other) = fail := by
  split
  · rfl
  rename_i hguard
  rw [not_guard_iff] at hguard
  have hown : ¬(own x.2.processId = true → ownMatches = true) := fun ho => hx ⟨hguard.1, hguard.2, ho⟩
  rw [Classical.not_imp, Bool.not_eq_true] at hown
  rw [if_pos hown.1, hown.2]
  rfl

theorem scanP1Replies_cons (hx : passesCheck c own ownMatches seen x) :
    scanP1Replies c own ownMatches valid q needed (x :: l) seen skips jobs = if own x.2.processId then
        if Ends q needed skips x.1 then true
        else scanP1Replies c own ownMatches valid q needed l (entryKey x :: seen) (x.1 :: skips) jobs
      else scanP1Replies c own ownMatches valid q needed l (entryKey x :: seen) skips
        (if valid x.1 x.2 then x.1 % 2 ^ 32 :: jobs else jobs) := by
  rw [scanP1Replies]
  refine (check_of_passes hx).trans (if_congr .rfl (if_congr ?_ rfl rfl) rfl)
  rw [groupsReached_eq, append_nil, Bool.and_eq_true, beq_iff_eq, beq_iff_eq]
  rfl

theorem scanP1Replies_fails (hx : ¬passesCheck c own ownMatches seen x) :
    scanP1Replies c own ownMatches valid q needed (x :: l) seen skips jobs = false := by
  rw [scanP1Replies]
  exact check_of_fails hx

/-- What the scan of the votes accepts. -/
theorem scanP1Replies_iff : scanP1Replies c own ownMatches valid q needed l seen skips jobs = true ↔
    EndsOwn c own ownMatches q needed seen skips l ∨ Passes c own ownMatches seen l ∧
      (complete q (ownGroups own l ++ skips)).length < needed ∧
      needed ≤ (complete q (ownGroups own l ++ skips ++ (validGroups own valid l ++ jobs))).length := by
  induction l generalizing seen skips jobs with
  | nil =>
    rw [scanP1Replies, decide_eq_true_eq, groupsReached_eq, groupsReached_eq, append_nil]
    exact ⟨fun h => .inr ⟨passes_nil, h⟩, fun h => (h.resolve_left not_endsOwn_nil).2⟩
  | cons x rest ih =>
    rw [endsOwn_cons, passes_cons]
    by_cases hx : passesCheck c own ownMatches seen x
    swap
    · simp only [scanP1Replies_fails hx, hx, false_and, or_self, Bool.false_eq_true]
    rw [scanP1Replies_cons hx]
    by_cases hown : own x.2.processId = true
    · have hgroups : (ownGroups own (x :: rest) ++ skips).Perm (ownGroups own rest ++ x.1 :: skips) := by
        rw [ownGroups, filter_cons, if_pos hown]
        exact perm_middle.symm
      have hvalid : validGroups own valid (x :: rest) = validGroups own valid rest := by
        simp [validGroups, hown]
      rw [if_pos hown, if_pos hown, (complete_perm hgroups).length_eq,
        (complete_perm (hgroups.append_right _)).length_eq, hvalid]
      by_cases hends : Ends q needed skips x.1
      · rw [if_pos hends]
        exact ⟨fun _ => .inl ⟨hx, .inl ⟨hown, hends⟩⟩, fun _ => rfl⟩
      · rw [if_neg hends, ih]
        simp only [hx, hends, and_false, false_or, true_and]
    · have hgroups : ownGroups own (x :: rest) = ownGroups own rest := by
        simp [ownGroups, hown]
      have hvalid : (validGroups own valid (x :: rest) ++ jobs).Perm
          (validGroups own valid rest ++ if valid x.1 x.2 then x.1 % 2 ^ 32 :: jobs else jobs) := by
        rw [Bool.not_eq_true] at hown
        by_cases hv : valid x.1 x.2 = true
        · rw [if_pos hv, validGroups, filter_cons_of_pos (by rw [hown, hv]; rfl)]
          exact perm_middle.symm
        · rw [if_neg hv, validGroups, filter_cons_of_neg (by rw [hown]; simpa using hv)]
          exact List.Perm.refl _
      rw [if_neg hown, if_neg hown, ih, hgroups, (complete_perm (hvalid.append_left _)).length_eq]
      simp only [hx, hown, Bool.false_eq_true, false_and, false_or, true_and]

/-- Own entries alone make a quorum of one: a process has one entry in a group. -/
theorem EndsOwn.quorum_eq_one {me : Nat} (hown : ∀ id, own id = true → id = me)
    (h : EndsOwn c own ownMatches q needed [] [] l) : q = 1 := by
  obtain ⟨pre, x, post, -, hpass, hx, hends, -⟩ := h
  have hnodup := hpass.fresh.1
  rw [map_append, map_singleton, nodup_append] at hnodup
  have hnew : x.1 ∉ ownGroups own pre ++ [] := by
    rw [append_nil]
    intro hmem
    obtain ⟨y, hy, hyx⟩ := mem_map.mp hmem
    obtain ⟨hy, hyown⟩ := mem_filter.mp hy
    refine hnodup.2.2 _ (mem_map_of_mem hy) _ (mem_singleton_self _) ?_
    rw [entryKey, entryKey, hyx, hown _ hyown, hown _ hx]
  rw [count_cons_self, count_eq_zero_of_not_mem hnew] at hends
  exact hends.symm

section

variable {me : Nat} (hown : ∀ id, own id = true → id = me) (hq : q ≠ 1)
  (h : scanP1Replies c own ownMatches valid q needed l [] [] [] = true)
include hown hq h

/-- An accepting scan has checked all entries, unless it stops at the skipped entry of the replica itself. -/
theorem passes_of_scanP1Replies : Passes c own ownMatches [] l ∧
    needed ≤ (complete q (ownGroups own l ++ validGroups own valid l)).length := by
  rcases scanP1Replies_iff.mp h with hends | ⟨hpass, -, hle⟩
  · exact absurd (hends.quorum_eq_one hown) hq
  · simp only [append_nil] at hle
    exact ⟨hpass, hle⟩

/-- If there are only as many entries as the groups need, all of them count. -/
theorem valid_of_scanP1Replies (hlen : l.length ≤ q * needed) (hx : x ∈ l) (hskip : own x.2.processId = false) :
    valid x.1 x.2 = true := by
  obtain ⟨-, hneeded⟩ := passes_of_scanP1Replies hown hq h
  have hcounts := (Nat.mul_le_mul_left q hneeded).trans (mul_length_complete_le q _)
  have hvalid : (validGroups own valid l).length =
      (l.filter fun x => !own x.2.processId).countP fun x => valid x.1 x.2 := by
    rw [validGroups, length_map, countP_filter, countP_eq_length_filter]
    simp only [Bool.and_comm]
  have hsplit := (filter_append_perm (fun x : Nat × Signature => own x.2.processId) l).length_eq
  rw [length_append, hvalid, ownGroups, length_map] at hcounts
  rw [length_append] at hsplit
  have hall : (l.filter fun x => !own x.2.processId).countP (fun x => valid x.1 x.2) =
      (l.filter fun x => !own x.2.processId).length := le_antisymm countP_le_length (by omega)
  exact countP_eq_length.mp hall x (mem_filter.mpr ⟨hx, by rw [hskip]; rfl⟩)

end

theorem complete_ownGroups_lt (hq : 0 < q) (hneeded : 0 < needed) (hpass : Passes c own ownMatches [] l)
    (hends : ¬EndsOwn c own ownMatches q needed [] [] l) : (complete q (ownGroups own l)).length < needed := by
  induction l using reverseRecOn with
  | nil => exact hneeded
  | append_singleton l x ih =>
    have hrest : Passes c own ownMatches [] l :=
      ⟨fun y hy => hpass.inGroup y (mem_append_left _ hy), fun y hy => hpass.own y (mem_append_left _ hy),
        hpass.fresh.1.sublist ((sublist_append_left l [x]).map entryKey), by simp⟩
    have hlt := ih hrest fun ⟨pre, y, post, hl, hends'⟩ =>
      hends ⟨pre, y, post ++ [x], by rw [hl]; simp, hends'⟩
    rw [ownGroups, filter_append, map_append]
    by_cases hown : own x.2.processId = true
    · rw [filter_cons, if_pos hown]
      have hperm : (ownGroups own l ++ [x.1]).Perm (x.1 :: ownGroups own l) := perm_append_singleton ..
      refine (complete_perm hperm).length_eq.trans_lt ?_
      by_cases hcount : (x.1 :: ownGroups own l).count x.1 = q
      · have hne : (complete q (x.1 :: ownGroups own l)).length ≠ needed := fun heq =>
          hends ⟨l, x, [], rfl, hpass, hown, by rw [append_nil]; exact ⟨hcount, heq⟩⟩
        have := complete_cons_of_eq hcount
        omega
      · rwa [complete_cons_of_ne hq hcount]
    · rw [filter_cons, if_neg hown]
      simpa [ownGroups] using hlt

theorem scanP1Replies_complete {G : List Nat} (hq : 0 < q) (hG : G.Nodup) (hne : G ≠ [])
    (hl : ∀ x ∈ l, isReplicaInGroup c x.2.processId x.1 = true ∧ x.1 < 2 ^ 32 ∧
      (own x.2.processId = true → ownMatches = true) ∧ (own x.2.processId = false → valid x.1 x.2 = true))
    (hnodup : (l.map entryKey).Nodup) (hcount : ∀ g ∈ G, q ≤ (l.map Prod.fst).count g) :
    scanP1Replies c own ownMatches valid q G.length l [] [] [] = true := by
  rw [scanP1Replies_iff]
  have hpass : Passes c own ownMatches [] l :=
    ⟨fun x hx => (hl x hx).1, fun x hx => (hl x hx).2.2.1, hnodup, by simp⟩
  by_cases hends : EndsOwn c own ownMatches q G.length [] [] l
  · exact .inl hends
  have hvalid : validGroups own valid l = (l.filter fun x => !own x.2.processId).map Prod.fst := by
    have hfilter : l.filter (fun x => !own x.2.processId && valid x.1 x.2) = l.filter fun x => !own x.2.processId := by
      refine filter_congr fun x hx => ?_
      cases hs : own x.2.processId with
      | true => rfl
      | false => exact (hl x hx).2.2.2 hs
    rw [validGroups, hfilter]
    exact map_congr_left fun x hx => Nat.mod_eq_of_lt (hl x (mem_filter.mp hx).1).2.1
  have hperm : (ownGroups own l ++ validGroups own valid l).Perm (l.map Prod.fst) := by
    rw [hvalid, ownGroups, ← map_append]
    exact (filter_append_perm _ l).map Prod.fst
  rw [append_nil, append_nil, (complete_perm hperm).length_eq]
  refine .inr ⟨hpass, complete_ownGroups_lt hq (length_pos_iff.mpr hne) hpass hends, ?_⟩
  refine (subperm_of_subset hG fun g hg => ?_).length_le
  have hg := hcount g hg
  exact mem_complete.mpr ⟨count_pos_iff.mp (by omega), hg⟩

end Votes

end Pequin
