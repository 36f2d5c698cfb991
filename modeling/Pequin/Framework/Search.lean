import Mathlib.Algebra.Order.Ring.Int
import Mathlib.Data.List.Infix

/-!
# Searching a text for words

A text is a list of symbols, and its words (`List.splitOn`) are what stands between two separators.
-/

namespace Search

open List

variable {α : Type*}

section Words

variable {sep : α} {w v : List α}

/-- The text of some words. -/
abbrev join (sep : α) (ws : List (List α)) : List α := [sep].intercalate ws

theorem join_singleton : join sep [w] = w := intercalate_singleton

theorem join_cons_cons (ws : List (List α)) : join sep (w :: v :: ws) = w ++ sep :: join sep (v :: ws) := by
  simp [join, intercalate_cons_cons]

theorem prefix_iff_of_notMem (hw : sep ∉ w) (hv : sep ∉ v) (s : List α) : w ++ [sep] <+: v ++ sep :: s ↔ w = v := by
  induction w generalizing v with
  | nil =>
    cases v with
    | nil => simp
    | cons a v =>
      rw [mem_cons, not_or] at hv
      simp [hv.1]
  | cons b w ih =>
    rw [mem_cons, not_or] at hw
    cases v with
    | nil => simp [Ne.symm hw.1]
    | cons a v =>
      rw [mem_cons, not_or] at hv
      simp [cons_prefix_cons, ih hw.2 hv.2]

end Words

variable [DecidableEq α]

/-- The position of the first occurrence of a pattern. -/
def find (pat : List α) : List α → Option Nat
  | [] => if pat = [] then some 0 else none
  | a :: s => if pat.isPrefixOf (a :: s) then some 0 else (find pat s).map (· + 1)

variable {sep : α} {w u v : List α} {us : List (List α)}

theorem isPrefixOf_cons_iff {a b : α} : (a :: u).isPrefixOf (b :: v) = true ↔ a = b ∧ u <+: v := by
  simp

theorem find_cons_of_ne {pat : List α} {a : α} (h : a ≠ sep) (s : List α) :
    find (sep :: pat) (a :: s) = (find (sep :: pat) s).map (· + 1) := by
  have hpre : ¬ (sep :: pat).isPrefixOf (a :: s) = true := by
    rw [isPrefixOf_cons_iff]
    exact fun hpre => h hpre.1.symm
  rw [find, if_neg hpre]

theorem find_append {pat : List α} (hu : sep ∉ u) (s : List α) :
    find (sep :: pat) (u ++ s) = (find (sep :: pat) s).map (· + u.length) := by
  induction u with
  | nil => simp
  | cons a u ih =>
    rw [mem_cons, not_or] at hu
    rw [cons_append, find_cons_of_ne (Ne.symm hu.1), ih hu.2, Option.map_map]
    congr 1

theorem find_join_append {s : List α} (hw : sep ∉ w) (hus : ∀ v ∈ u :: us, sep ∉ v) (h : w ∉ us)
    (hs : s = [] ∨ ∃ s', s = sep :: s') : find (sep :: (w ++ [sep])) (join sep (u :: us) ++ s) =
      (find (sep :: (w ++ [sep])) s).map (· + (join sep (u :: us)).length) := by
  induction us generalizing u with
  | nil =>
    rw [join_singleton]
    exact find_append (hus u (by simp)) s
  | cons v us ih =>
    rw [mem_cons, not_or] at h
    have hv : sep ∉ v := hus v (by simp)
    have hpre : ¬ (sep :: (w ++ [sep])).isPrefixOf (sep :: (join sep (v :: us) ++ s)) = true := by
      rw [isPrefixOf_cons_iff]
      rintro ⟨-, hpre⟩
      cases us with
      | nil =>
        rw [join_singleton] at hpre
        rcases hs with rfl | ⟨s', rfl⟩
        · rw [append_nil] at hpre
          exact hv (hpre.subset (by simp))
        · exact h.1 ((prefix_iff_of_notMem hw hv _).mp hpre)
      | cons v' us =>
        rw [join_cons_cons, append_assoc, cons_append] at hpre
        exact h.1 ((prefix_iff_of_notMem hw hv _).mp hpre)
    rw [join_cons_cons, append_assoc, cons_append, find_append (hus u (by simp)), find, if_neg hpre,
      ih (fun v' hv' => hus v' (mem_cons_of_mem u hv')) h.2, Option.map_map, Option.map_map]
    congr 1
    funext n
    simp only [Function.comp_apply, length_append, length_cons]
    omega

section SplitOn

variable {t : List α}

theorem notMem_of_mem_splitOn (h : w ∈ t.splitOn sep) : sep ∉ w := by
  induction t generalizing w with
  | nil =>
    rw [splitOn_nil, mem_singleton] at h
    simp [h]
  | cons a t ih =>
    rw [splitOn_cons_eq_if_modifyHead] at h
    split at h
    · rcases mem_cons.mp h with rfl | h
      · exact not_mem_nil
      · exact ih h
    obtain ⟨v, vs, hvs⟩ := exists_cons_of_ne_nil (splitOn_ne_nil sep t)
    rw [hvs] at ih h
    rcases mem_cons.mp h with rfl | h
    · rw [mem_cons, not_or]
      exact ⟨fun heq => by simp_all, ih (by simp)⟩
    · exact ih (mem_cons_of_mem v h)

theorem mem_splitOn_cons {a : α} (ha : a ≠ sep) (h : w ∈ (a :: t).splitOn sep) : w ∈ t.splitOn sep ∨ a ∈ w := by
  rw [splitOn_cons_eq_if_modifyHead, if_neg (by simpa using ha)] at h
  obtain ⟨v, vs, hvs⟩ := exists_cons_of_ne_nil (splitOn_ne_nil sep t)
  rw [hvs] at h ⊢
  rcases mem_cons.mp h with rfl | h
  · exact .inr (by simp)
  · exact .inl (mem_cons_of_mem v h)

theorem splitOn_concat {a : α} (ha : a ≠ sep) :
    ∃ us u, t.splitOn sep = us ++ [u] ∧ (t ++ [a]).splitOn sep = us ++ [u ++ [a]] := by
  induction t with
  | nil =>
    refine ⟨[], [], splitOn_nil sep, ?_⟩
    rw [nil_append, splitOn_cons_eq_if_modifyHead, if_neg (by simpa using ha)]
    simp
  | cons b t ih =>
    obtain ⟨us, u, ht, hta⟩ := ih
    rw [cons_append, splitOn_cons_eq_if_modifyHead, splitOn_cons_eq_if_modifyHead, ht, hta]
    split
    · exact ⟨[] :: us, u, rfl, rfl⟩
    · cases us with
      | nil => exact ⟨[], b :: u, rfl, rfl⟩
      | cons v us => exact ⟨(b :: v) :: us, u, rfl, rfl⟩

theorem mem_splitOn_concat {a : α} (ha : a ≠ sep) (h : w ∈ (t ++ [a]).splitOn sep) : w ∈ t.splitOn sep ∨ a ∈ w := by
  obtain ⟨us, u, ht, hta⟩ := splitOn_concat ha
  rw [hta, mem_append, mem_singleton] at h
  rcases h with h | rfl
  · exact .inl (by rw [ht]; exact mem_append_left [u] h)
  · exact .inr (by simp)

theorem find_append_of_notMem_splitOn {s : List α} (hw : sep ∉ w) (h : w ∉ t.splitOn sep)
    (hs : s = [] ∨ ∃ s', s = sep :: s') :
    find (sep :: (w ++ [sep])) (t ++ s) = (find (sep :: (w ++ [sep])) s).map (· + t.length) := by
  obtain ⟨u, us, hus⟩ := exists_cons_of_ne_nil (splitOn_ne_nil sep t)
  have ht : t = join sep (u :: us) := by rw [← hus, join, intercalate_splitOn]
  rw [hus] at h
  rw [ht]
  exact find_join_append hw (fun v hv => notMem_of_mem_splitOn (hus ▸ hv)) (fun h' => h (mem_cons_of_mem u h')) hs

theorem find_word_eq_none (hw : sep ∉ w) (h : w ∉ t.splitOn sep) : find (sep :: (w ++ [sep])) t = none := by
  have hfind := find_append_of_notMem_splitOn hw h (.inl rfl)
  rwa [append_nil] at hfind

/-- A search for a word with separators around it finds its first place not at the beginning or end. -/
theorem find_word (hw : sep ∉ w) (h : w ∉ t.splitOn sep) (s : List α) :
    find (sep :: (w ++ [sep])) (t ++ sep :: (w ++ sep :: s)) = some t.length := by
  rw [find_append_of_notMem_splitOn hw h (.inr ⟨_, rfl⟩)]
  simp [find]

end SplitOn

end Search
