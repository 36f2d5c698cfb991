import Mathlib.Algebra.Order.Ring.Int
import Mathlib.Order.Basic

/-!
# Maps from times

Versions of one object, kept under the times at which they were written. `insertNew` does not overwrite; `put` does,
and keeps the versions in order.
-/

namespace Versions

open List

variable {τ α : Type*} [LinearOrder τ]

/-- `insert`: nothing happens if there is a version of the time. -/
def insertNew (t : τ) (a : α) (l : List (τ × α)) : List (τ × α) :=
  if l.any (fun x => x.1 == t) then l else (t, a) :: l

def erase (t : τ) (l : List (τ × α)) : List (τ × α) := l.filter fun x => x.1 ≠ t

/-- The version before `lower_bound`: the latest one that is earlier than the time. -/
def latestBefore (t : τ) : List (τ × α) → Option (τ × α)
  | [] => none
  | x :: l =>
    match latestBefore t l with
    | none => if x.1 < t then some x else none
    | some y => if x.1 < t ∧ y.1 < x.1 then some x else some y

variable {t : τ} {a : α} {l : List (τ × α)} {x : τ × α}

theorem mem_insertNew_of_mem (h : x ∈ l) : x ∈ insertNew t a l := by
  rw [insertNew]
  split
  · exact h
  · exact mem_cons_of_mem _ h

theorem mem_insertNew (h : x ∈ insertNew t a l) : x = (t, a) ∨ x ∈ l := by
  rw [insertNew] at h
  split at h
  · exact .inr h
  · exact mem_cons.mp h

theorem exists_mem_insertNew (t : τ) (a : α) (l : List (τ × α)) : ∃ b, (t, b) ∈ insertNew t a l := by
  rw [insertNew]
  split
  · rename_i h
    obtain ⟨⟨t', b⟩, hx, heq⟩ := any_eq_true.mp h
    rw [beq_iff_eq] at heq
    subst heq
    exact ⟨b, hx⟩
  · exact ⟨a, mem_cons_self⟩

theorem mem_insertNew_self (h : ∀ b, (t, b) ∈ l → b = a) : (t, a) ∈ insertNew t a l := by
  obtain ⟨b, hb⟩ := exists_mem_insertNew t a l
  rcases mem_insertNew hb with heq | hmem
  · rw [← heq]
    exact hb
  · rw [h b hmem] at hb
    exact hb

theorem mem_erase : x ∈ erase t l ↔ x ∈ l ∧ x.1 ≠ t := by
  simp [erase]

theorem erase_insertNew (t : τ) (a : α) (l : List (τ × α)) : erase t (insertNew t a l) = erase t l := by
  rw [insertNew]
  split
  · rfl
  · simp [erase]

theorem insertNew_eq_self : insertNew t a l = l ↔ ∃ x ∈ l, x.1 = t := by
  rw [insertNew]
  split <;> simp_all

theorem erase_map {β : Type*} (f : α → β) (t : τ) (l : List (τ × α)) :
    erase t (l.map fun x => (x.1, f x.2)) = (erase t l).map fun x => (x.1, f x.2) := by
  simp [erase, filter_map, Function.comp_def]

theorem map_insertNew {β : Type*} (f : α → β) (t : τ) (a : α) (l : List (τ × α)) :
    (insertNew t a l).map (fun x => (x.1, f x.2)) = insertNew t (f a) (l.map fun x => (x.1, f x.2)) := by
  simp only [insertNew, any_map, Function.comp_def]
  split <;> rfl

theorem latestBefore_lt (h : latestBefore t l = some x) : x ∈ l ∧ x.1 < t := by
  induction l generalizing x with
  | nil => cases h
  | cons y l ih =>
    simp only [latestBefore] at h
    split at h
    · split at h
      · cases h
        exact ⟨mem_cons_self, ‹_›⟩
      · cases h
    · rename_i z hz
      obtain ⟨hmem, hlt⟩ := ih hz
      split at h
      · rename_i hy
        cases h
        exact ⟨mem_cons_self, hy.1⟩
      · cases h
        exact ⟨mem_cons_of_mem _ hmem, hlt⟩

theorem exists_latestBefore (hx : x ∈ l) (ht : x.1 < t) : ∃ y, latestBefore t l = some y ∧ x.1 ≤ y.1 := by
  induction l with
  | nil => cases hx
  | cons z l ih =>
    simp only [latestBefore]
    rcases mem_cons.mp hx with rfl | hx
    · split
      · exact ⟨x, by rw [if_pos ht], le_refl _⟩
      · rename_i y hy
        by_cases hlt : y.1 < x.1
        · exact ⟨x, by rw [if_pos ⟨ht, hlt⟩], le_refl _⟩
        · exact ⟨y, by rw [if_neg fun h => hlt h.2], not_lt.mp hlt⟩
    · obtain ⟨y, hy, hle⟩ := ih hx
      rw [hy]
      dsimp only
      by_cases hz : z.1 < t ∧ y.1 < z.1
      · exact ⟨z, by rw [if_pos hz], hle.trans hz.2.le⟩
      · exact ⟨y, by rw [if_neg hz], hle⟩

/-- The latest version before a time is no earlier than any other one. -/
theorem latestBefore_le_iff {v : τ} : (∀ y ∈ latestBefore t l, y.1 ≤ v) ↔ ∀ x ∈ l, x.1 < t → x.1 ≤ v := by
  constructor
  · intro h x hx ht
    obtain ⟨y, hy, hle⟩ := exists_latestBefore hx ht
    exact hle.trans (h y hy)
  · intro h y hy
    obtain ⟨hmem, ht⟩ := latestBefore_lt hy
    exact h y hmem ht

/-- Assignment: a version of the same time is replaced. -/
def put (t : τ) (a : α) : List (τ × α) → List (τ × α)
  | [] => [(t, a)]
  | x :: l => if t < x.1 then (t, a) :: x :: l else if x.1 < t then x :: put t a l else (t, a) :: l

theorem mem_put (h : x ∈ put t a l) : x = (t, a) ∨ x ∈ l := by
  induction l with
  | nil => exact .inl (mem_singleton.mp h)
  | cons y l ih =>
    rw [put] at h
    split at h
    · exact mem_cons.mp h
    split at h
    · rcases mem_cons.mp h with rfl | h
      · exact .inr mem_cons_self
      · exact (ih h).imp_right (mem_cons_of_mem _)
    · exact (mem_cons.mp h).imp_right (mem_cons_of_mem _)

theorem erase_put (t : τ) (a : α) (l : List (τ × α)) : erase t (put t a l) = erase t l := by
  induction l with
  | nil => simp [put, erase]
  | cons x l ih =>
    rw [put]
    split
    · simp [erase]
    split
    · rename_i hlt
      simpa [erase, hlt.ne] using ih
    · rename_i h h'
      simp [erase, le_antisymm (not_lt.mp h) (not_lt.mp h')]

theorem pairwise_put (h : l.Pairwise fun x y => x.1 < y.1) : (put t a l).Pairwise fun x y => x.1 < y.1 := by
  induction l with
  | nil => exact pairwise_singleton _ _
  | cons y l ih =>
    rw [pairwise_cons] at h
    rw [put]
    split
    · rename_i hlt
      refine pairwise_cons.mpr ⟨fun z hz => ?_, pairwise_cons.mpr h⟩
      rcases mem_cons.mp hz with rfl | hz
      · exact hlt
      · exact hlt.trans (h.1 z hz)
    · rename_i hnot
      split
      · rename_i hlt
        refine pairwise_cons.mpr ⟨fun z hz => ?_, ih h.2⟩
        rcases mem_put hz with rfl | hz
        · exact hlt
        · exact h.1 z hz
      · rename_i hnot'
        have heq : y.1 = t := le_antisymm (not_lt.mp hnot) (not_lt.mp hnot')
        exact pairwise_cons.mpr ⟨fun z hz => heq ▸ h.1 z hz, h.2⟩

theorem pairwise_erase (h : l.Pairwise fun x y => x.1 < y.1) : (erase t l).Pairwise fun x y => x.1 < y.1 :=
  h.filter _

end Versions
