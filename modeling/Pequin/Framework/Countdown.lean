import Mathlib.Algebra.BigOperators.Group.List.Lemmas
import Mathlib.Algebra.Order.BigOperators.Group.List
import Mathlib.Algebra.Order.Ring.Nat
import Mathlib.Data.List.Dedup
import Mathlib.Data.List.Perm.Subperm

/-!
# Counting completed jobs

Jobs complete in an order that nobody controls. A job fails or counts for its key, and a key is complete when it has
been counted `q` times. The count ends when `needed` keys are complete. Whoever counts knows how many jobs there are,
and wants the count to end with the last of them.
-/

namespace Countdown

open List Prod

variable {κ : Type*} [DecidableEq κ] {q needed : Nat} {l l' : List κ} {k : κ}
  {jobs order : List (κ × Bool)}

/-- The keys that were counted `q` times. -/
def complete (q : Nat) (l : List κ) : List κ :=
  l.dedup.filter fun k => q ≤ l.count k

/-- Counting `k` after `l` completes `k`, and with it the last key that was missing. -/
def Ends (q needed : Nat) (l : List κ) (k : κ) : Prop :=
  (k :: l).count k = q ∧ (complete q (k :: l)).length = needed
  deriving Decidable

theorem mem_complete : k ∈ complete q l ↔ k ∈ l ∧ q ≤ l.count k := by
  rw [complete, mem_filter, mem_dedup, decide_eq_true_eq]

theorem nodup_complete (q : Nat) (l : List κ) : (complete q l).Nodup :=
  (nodup_dedup l).filter _

/-- Every complete key takes `q` of the counts. -/
theorem mul_length_complete_le (q : Nat) (l : List κ) : q * (complete q l).length ≤ l.length :=
  calc q * (complete q l).length = ((complete q l).map fun _ => q).sum := by simp [Nat.mul_comm]
    _ ≤ ((complete q l).map fun k => l.count k).sum := List.sum_le_sum fun k hk => (mem_complete.mp hk).2
    _ ≤ (l.dedup.map fun k => l.count k).sum := (filter_sublist.map _).sum_le_sum fun _ _ => Nat.zero_le _
    _ = l.length := sum_map_count_dedup_eq_length l

theorem complete_perm (h : l.Perm l') : (complete q l).Perm (complete q l') := by
  rw [perm_ext_iff_of_nodup (nodup_complete q l) (nodup_complete q l')]
  intro k
  rw [mem_complete, mem_complete, h.mem_iff, h.count_eq]

theorem ends_perm (h : l.Perm l') : Ends q needed l k ↔ Ends q needed l' k := by
  rw [Ends, Ends, (h.cons k).count_eq, (complete_perm (h.cons k)).length_eq]

theorem complete_length_le (q : Nat) (l l' : List κ) : (complete q l).length ≤ (complete q (l' ++ l)).length := by
  refine (subperm_of_subset (nodup_complete q l) fun k hk => ?_).length_le
  rw [mem_complete] at hk ⊢
  rw [count_append]
  exact ⟨mem_append_right l' hk.1, by omega⟩

theorem complete_cons_of_eq (h : (k :: l).count k = q) : (complete q (k :: l)).length = (complete q l).length + 1 := by
  have hcount : l.count k + 1 = q := by rwa [count_cons_self] at h
  have hk : k ∉ complete q l := by
    rw [mem_complete]
    omega
  rw [← length_cons (a := k)]
  refine List.Perm.length_eq ?_
  rw [perm_ext_iff_of_nodup (nodup_complete q _) (nodup_cons.mpr ⟨hk, nodup_complete q l⟩)]
  intro x
  rw [mem_complete, mem_cons, mem_cons, mem_complete]
  by_cases hx : x = k
  · subst hx
    exact ⟨fun _ => .inl rfl, fun _ => ⟨.inl rfl, Nat.le_of_eq h.symm⟩⟩
  · rw [count_cons_of_ne (Ne.symm hx)]
    simp only [hx, false_or]

theorem complete_cons_of_ne (hq : 0 < q) (h : (k :: l).count k ≠ q) :
    (complete q (k :: l)).length = (complete q l).length := by
  refine List.Perm.length_eq ?_
  rw [perm_ext_iff_of_nodup (nodup_complete q _) (nodup_complete q l)]
  intro x
  rw [mem_complete, mem_complete, mem_cons]
  by_cases hx : x = k
  · subst hx
    rw [count_cons_self] at h ⊢
    constructor
    · rintro ⟨-, hle⟩
      have hlt : q ≤ l.count x := by omega
      exact ⟨count_pos_iff.mp (by omega), hlt⟩
    · rintro ⟨-, hle⟩
      exact ⟨.inl rfl, by omega⟩
  · rw [count_cons_of_ne (Ne.symm hx)]
    simp only [hx, false_or]

theorem ends_one_iff (h : ∀ x ∈ l, x = k) : Ends q 1 l k ↔ (k :: l).count k = q := by
  refine ⟨And.left, fun hcount => ⟨hcount, ?_⟩⟩
  have hnil : complete q l = [] := by
    refine eq_nil_iff_forall_not_mem.mpr fun x hx => ?_
    rw [mem_complete] at hx
    rw [h x hx.1] at hx
    rw [count_cons_self] at hcount
    omega
  rw [complete_cons_of_eq hcount, hnil, length_nil]

/-- The count ends at most once. -/
theorem not_ends_of_ends (h : Ends q needed l k) (k' : κ) : ¬Ends q needed (l' ++ k :: l) k' := by
  intro h'
  have hlt := complete_cons_of_eq h'.1
  have hle := complete_length_le q (k :: l) l'
  rw [h'.2] at hlt
  rw [h.2] at hle
  omega

/-- The jobs complete in this order, all with success, and the count ends with the last one. -/
def finishes (q needed : Nat) : List κ → List (κ × Bool) → Bool
  | _, [] => false
  | l, (k, ok) :: rest =>
    ok && if Ends q needed l k then rest.isEmpty else finishes q needed (k :: l) rest

theorem finishes_iff : finishes q needed l order = true ↔ (∀ j ∈ order, j.2 = true) ∧
      ∃ init j, order = init ++ [j] ∧ Ends q needed (init.map fst ++ l) j.1 := by
  induction order generalizing l with
  | nil => simp [finishes]
  | cons j rest ih =>
    obtain ⟨k, ok⟩ := j
    rw [finishes, Bool.and_eq_true, forall_mem_cons]
    cases rest with
    | nil =>
      -- the only job
      have hlast : (∃ init j, [(k, ok)] = init ++ [j] ∧ Ends q needed (init.map fst ++ l) j.1) ↔ Ends q needed l k := by
        constructor
        · rintro ⟨init, j, h, hends⟩
          cases init with
          | nil =>
            obtain rfl := singleton_injective h
            exact hends
          | cons i init => simp at h
        · exact fun hends => ⟨[], (k, ok), rfl, hends⟩
      rw [hlast]
      by_cases hends : Ends q needed l k
      · simp [hends]
      · simp [hends, finishes]
    | cons j' rest' =>
      -- the last job is one of the rest
      have hlast : (∃ init j, (k, ok) :: j' :: rest' = init ++ [j] ∧ Ends q needed (init.map fst ++ l) j.1) ↔
          ∃ init j, j' :: rest' = init ++ [j] ∧ Ends q needed (init.map fst ++ k :: l) j.1 := by
        constructor
        · rintro ⟨init, j, h, hends⟩
          cases init with
          | nil => cases h
          | cons i init =>
            rw [cons_append, List.cons.injEq] at h
            obtain ⟨rfl, h⟩ := h
            exact ⟨init, j, h, (ends_perm perm_middle).mpr hends⟩
        · rintro ⟨init, j, h, hends⟩
          exact ⟨(k, ok) :: init, j, by rw [h, cons_append], (ends_perm perm_middle).mp hends⟩
      rw [hlast]
      by_cases hends : Ends q needed l k
      · rw [if_pos hends, isEmpty_cons]
        refine ⟨fun h => absurd h.2 (by decide), ?_⟩
        rintro ⟨-, init, j, -, h⟩
        exact absurd h (not_ends_of_ends hends _)
      · rw [if_neg hends, ih, and_assoc]

/-- No job fails, every key with a job is counted `q` times, and `needed` keys are complete. -/
structure Exact (q needed : Nat) (l : List κ) (jobs : List (κ × Bool)) : Prop where
  ne_nil : jobs ≠ []
  succeed : ∀ j ∈ jobs, j.2 = true
  count : ∀ j ∈ jobs, (jobs.map Prod.fst ++ l).count j.1 = q
  complete : (complete q (jobs.map Prod.fst ++ l)).length = needed

theorem Exact.perm (h : Exact q needed l jobs) (hp : order.Perm jobs) : Exact q needed l order := by
  have hkeys : (order.map fst ++ l).Perm (jobs.map fst ++ l) := (hp.map fst).append_right l
  refine ⟨fun hnil => h.ne_nil ?_, fun j hj => h.succeed j (hp.mem_iff.mp hj), fun j hj => ?_, ?_⟩
  · rw [hnil] at hp
    exact hp.nil_eq.symm
  · rw [hkeys.count_eq]
    exact h.count j (hp.mem_iff.mp hj)
  · rw [(complete_perm hkeys).length_eq]
    exact h.complete

theorem exact_perm_counts (h : l.Perm l') : Exact q needed l jobs ↔ Exact q needed l' jobs := by
  have hkeys := h.append_left (jobs.map fst)
  constructor
  · rintro ⟨hne, hall, hcount, hcomplete⟩
    exact ⟨hne, hall, fun j hj => by rw [← hkeys.count_eq]; exact hcount j hj,
      by rw [← (complete_perm hkeys).length_eq]; exact hcomplete⟩
  · rintro ⟨hne, hall, hcount, hcomplete⟩
    exact ⟨hne, hall, fun j hj => by rw [hkeys.count_eq]; exact hcount j hj,
      by rw [(complete_perm hkeys).length_eq]; exact hcomplete⟩

theorem ends_last {init : List (κ × Bool)} {j : κ × Bool} : Ends q needed (init.map fst ++ l) j.1 ↔
    ((init ++ [j]).map fst ++ l).count j.1 = q ∧ (complete q ((init ++ [j]).map fst ++ l)).length = needed := by
  have hperm : ((init ++ [j]).map fst ++ l).Perm (j.1 :: (init.map fst ++ l)) := by
    rw [map_append, map_singleton, append_assoc, singleton_append]
    exact perm_middle
  rw [Ends, hperm.count_eq, (complete_perm hperm).length_eq]

theorem Exact.finishes (h : Exact q needed l jobs) : finishes q needed l jobs = true := by
  rw [finishes_iff]
  obtain ⟨init, j, rfl⟩ : ∃ init j, jobs = init ++ [j] :=
    ⟨jobs.dropLast, jobs.getLast h.ne_nil, (dropLast_append_getLast h.ne_nil).symm⟩
  exact ⟨h.succeed, init, j, rfl, ends_last.mpr ⟨h.count j (mem_append_right _ (mem_singleton_self j)), h.complete⟩⟩

/-- The jobs finish in every order iff they are exact. -/
theorem forall_perm_finishes_iff : (∀ order : List (κ × Bool), order.Perm jobs → finishes q needed l order = true) ↔
    Exact q needed l jobs := by
  constructor
  · intro h
    obtain ⟨hall, init, j, hjobs, hends⟩ := finishes_iff.mp (h jobs (List.Perm.refl jobs))
    rw [ends_last, ← hjobs] at hends
    refine ⟨by simp [hjobs], hall, fun i hi => ?_, hends.2⟩
    -- an order in which the job `i` is the last
    have hlast : (jobs.erase i ++ [i]).Perm jobs :=
      perm_append_comm.trans (perm_cons_erase hi).symm
    obtain ⟨-, init', j', hinit, hends'⟩ := finishes_iff.mp (h _ hlast)
    obtain ⟨rfl, hj⟩ := append_inj' hinit rfl
    obtain rfl : i = j' := singleton_injective hj
    rw [ends_last, ((hlast.map fst).append_right l).count_eq] at hends'
    exact hends'.1
  · exact fun h order hp => (h.perm hp).finishes

theorem finishes_one_iff (hl : ∀ x ∈ l, x = k) (hk : ∀ j ∈ order, j.1 = k) : finishes q 1 l order = true ↔
    order ≠ [] ∧ (∀ j ∈ order, j.2 = true) ∧ order.length + l.length = q := by
  have hcount : ∀ init j, order = init ++ [j] → (Ends q 1 (init.map fst ++ l) j.1 ↔ order.length + l.length = q) := by
    intro init j horder
    have hj : j.1 = k := hk j (by rw [horder]; simp)
    have hall : ∀ x ∈ init.map fst ++ l, x = k := by
      intro x hx
      rcases mem_append.mp hx with hx | hx
      · obtain ⟨i, hi, rfl⟩ := mem_map.mp hx
        exact hk i (by rw [horder]; exact mem_append_left _ hi)
      · exact hl x hx
    rw [hj, ends_one_iff hall, count_eq_length.mpr fun x hx => ?_, horder]
    · simp only [length_cons, length_append, length_map, length_nil]
      omega
    · rcases mem_cons.mp hx with rfl | hx
      · rfl
      · exact (hall x hx).symm
  rw [finishes_iff]
  constructor
  · rintro ⟨hall, init, j, horder, hends⟩
    exact ⟨by rw [horder]; simp, hall, (hcount init j horder).mp hends⟩
  · rintro ⟨hne, hall, hlen⟩
    have horder := (dropLast_append_getLast hne).symm
    exact ⟨hall, _, _, horder, (hcount _ _ horder).mpr hlen⟩

end Countdown
