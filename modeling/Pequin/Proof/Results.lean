import Pequin.Model.Results

/-!
# Results that match

Rows are sorted by all their fields, unless the text of the query has an `ORDER BY`. Then what the clause leaves open is
left open.
-/

namespace Pequin

open List

theorem orderRowsByCol_eq_true_iff {l r : List Bytes} : orderRowsByCol l r = true ↔ l < r := by
  induction l generalizing r with
  | nil => cases r <;> simp [orderRowsByCol]
  | cons a l ih =>
    cases r with
    | nil => simp [orderRowsByCol]
    | cons b r =>
      rw [orderRowsByCol, cons_lt_cons_iff, ← ih]
      split_ifs with hab hba
      · simp [hab]
      · have hne : a ≠ b := fun heq => hab (heq ▸ hba)
        simp [hab, hne]
      · simp [List.le_antisymm hba hab]

theorem eq_of_orderedInsert_comm {α : Type*} {le : α → α → Prop} [DecidableRel le] [IsTrans α le] {a b : α}
    (hab : le a b) (hba : le b a) {s : List α}
    (h : orderedInsert le a (orderedInsert le b s) = orderedInsert le b (orderedInsert le a s)) : a = b := by
  induction s with
  | nil => exact (by simpa [hab, hba] using h : a = b ∧ b = a).1
  | cons c s ih =>
    by_cases hc : le a c
    · have hc' : le b c := trans_of le hba hc
      exact (by simpa [hab, hba, hc, hc'] using h : a = b ∧ b = a).1
    · have hc' : ¬ le b c := fun h => hc (trans_of le hab h)
      exact ih (by simpa [hc, hc'] using h)

/-- All executions give the same result exactly if the rows are sorted, or those that tie are equal. -/
theorem results_match_iff {β : Type*} (serialize : SQLResult → β) (hser : serialize.Injective) (queryString : Sql.Text)
    (columns : List Bytes) (le : List Bytes → List Bytes → Prop) (htotal : ∀ a b, le a b ∨ le b a)
    (htrans : ∀ a b c, le a b → le b c → le a c) (rows : List (List Bytes)) :
    (∀ l l', l ~ rows → l' ~ rows → l.Pairwise le → l'.Pairwise le →
      serialize (transformResult queryString columns l) = serialize (transformResult queryString columns l')) ↔
    ((Search.find orderHook queryString).isSome → ∀ a ∈ rows, ∀ b ∈ rows, le a b → le b a → a = b) := by
  classical
  have : IsTrans _ le := ⟨htrans⟩
  have : Std.Total le := ⟨htotal⟩
  constructor
  · intro h hook a ha b hb hab hba
    by_contra hne
    have hb' : b ∈ rows.erase a := (mem_erase_of_ne (Ne.symm hne)).mpr hb
    have hrest : a :: b :: (rows.erase a).erase b ~ rows :=
      ((perm_cons_erase hb').symm.cons a).trans (perm_cons_erase ha).symm
    have heq := hser (h _ _ ((perm_insertionSort le _).trans hrest)
      ((perm_insertionSort le _).trans ((Perm.swap a b _).trans hrest)) (pairwise_insertionSort le _)
      (pairwise_insertionSort le _))
    simp only [transformResult, hook, getResult] at heq
    have hsome : (map (map some) : List (List Bytes) → _).Injective := map_injective_iff.mpr
      (map_injective_iff.mpr (Option.some_injective _))
    exact hne (eq_of_orderedInsert_comm hab hba (hsome (SQLResult.mk.inj heq).2))
  · intro h l l' hl hl' hs hs'
    refine congrArg serialize ?_
    have hperm := hl.trans hl'.symm
    cases hook : (Search.find orderHook queryString).isSome with
    | true => rw [hperm.eq_of_pairwise (fun a b ha hb => h hook a (hl.subset ha) b (hl'.subset hb)) hs hs']
    | false =>
      have hsort : (fun l r => orderRowsByCol r l = false) = fun l r => l ≤ r := by
        funext l r
        rw [← Bool.not_eq_true, orderRowsByCol_eq_true_iff, List.not_lt]
      have : IsTrans (List Bytes) fun l r => l ≤ r := ⟨fun _ _ _ => List.le_trans⟩
      have : Std.Total fun l r : List Bytes => l ≤ r := ⟨List.le_total⟩
      have heq : l.insertionSort (· ≤ ·) = l'.insertionSort (· ≤ ·) :=
        ((perm_insertionSort _ l).trans (hperm.trans (perm_insertionSort _ l').symm)).eq_of_pairwise
          (fun _ _ _ _ => List.le_antisymm) (pairwise_insertionSort _ l) (pairwise_insertionSort _ l')
      simp [transformResult, hook, getResult, hsort, heq]

theorem results_match_iff_unordered : transformResult [] [] [[[2]], [[1]]] = transformResult [] [] [[[1]], [[2]]] :=
  (results_match_iff id Function.injective_id [] [] (fun _ _ => True) (by simp) (by simp) [[[1]], [[2]]]).mpr nofun _ _
    (.swap _ _ []) (.refl _) (by simp) (by simp)

theorem tied_rows :
    [[[1], [2]], [[1], [3]]].Pairwise (fun a b : List Bytes => a.head? = b.head?) ∧
    transformResult orderHook [] [[[1], [2]], [[1], [3]]] ≠ transformResult orderHook [] [[[1], [3]], [[1], [2]]] := by
  decide +kernel

end Pequin
