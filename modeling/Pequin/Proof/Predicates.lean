import Pequin.Proof.Comparisons
import Pequin.Proof.ConditionValue

/-!
# Evaluation of predicates

`EvalPred` against the value of a condition in SQL. Which conditions are evaluated right depends on how they are
written: on where parentheses and connectives are (`Readable`), and on whether a text is compared with the name of its
own column.
-/

namespace Pequin.Sql

open Comparison Function Infix List

variable {α β : Type*}

variable (f : α → β)

theorem afterAnd_map (l : Line α) : afterAnd (l.map f) = (afterAnd l).map (Line.map f) := by
  induction l with
  | last x => rfl
  | link x conn rest ih =>
    cases conn with
    | and => rfl
    | or => exact ih

theorem complete_map (m : Bool) (l : Line α) : complete m (l.map f) = complete m l := by
  induction l generalizing m with
  | last x => cases m <;> rfl
  | link x conn rest ih =>
    cases m <;> cases conn <;> simp only [Line.map, complete, afterAnd_map, Option.isSome_map, ih]

theorem encloses_map (d : Nat) (l : Line α) : encloses d (l.map f) = encloses d l := by
  induction l generalizing d with
  | last x => rfl
  | link x conn rest ih =>
    have hopens : (rest.map f).head.opens = rest.head.opens := by cases rest <;> rfl
    simp only [Line.map, encloses, ih, hopens]

theorem bound_map (d : Nat) (l : Line α) : bound d (l.map f) = bound d l := by
  induction l generalizing d with
  | last x => rfl
  | link x conn rest ih =>
    have hand : (afterAnd (Line.map f (.link x conn rest))).isSome = (afterAnd (.link x conn rest)).isSome := by
      rw [afterAnd_map, Option.isSome_map]
    have henc := encloses_map f (if 0 < x.opens then x.opens else d) (.link x conn rest)
    rw [Line.map] at hand henc ⊢
    rw [bound, bound, hand, ih, henc]

theorem readable_map (c : Formula α) : Readable (c.map f) ↔ Readable c := by
  rw [Readable, Readable, Formula.line_map, ← Line.map_paren, complete_map, bound_map]

theorem print_map (text : β → Text) (c : Formula α) : print text (c.map f) = print (text ∘ f) c := by
  induction c with
  | atom a => rfl
  | paren c ih => rw [Formula.map, print, ih, print]
  | and l r ihl ihr => simp only [Formula.map, print, ihl, ihr, Formula.isOr_map]
  | or l r ihl ihr => rw [Formula.map, print, ihl, ihr, print]

theorem evalPred_print {text : α → Text} {reg : ColRegistry} {row : List Text} {c : Formula α}
    (hc : ∀ a ∈ c.atoms, IsClean (text a)) : evalPred reg (print text c) row = read (segValue text reg row) c.line := by
  rw [evalPred, ← lineText_line]
  exact evalCond_text _ (by rwa [Clean, c.atoms_line]) (Nat.lt_succ_self _)

/-- The comparisons of a condition, numbered from `n` on. -/
def label (n : Nat) : Formula Bool → Formula (Nat × Bool)
  | .atom b => .atom (n, b)
  | .paren c => .paren (label n c)
  | .and l r => .and (label n l) (label (n + l.atoms.length) r)
  | .or l r => .or (label n l) (label (n + l.atoms.length) r)

theorem map_label (n : Nat) (k : Formula Bool) : (label n k).map Prod.snd = k := by
  induction k generalizing n with
  | atom b => rfl
  | paren c ih => rw [label, Formula.map, ih]
  | and l r ihl ihr | or l r ihl ihr => rw [label, Formula.map, ihl, ihr]

theorem atoms_label (n : Nat) (k : Formula Bool) : (label n k).atoms.map Prod.fst = List.range' n k.atoms.length := by
  induction k generalizing n with
  | atom b => rfl
  | paren c ih => exact ih n
  | and l r ihl ihr | or l r ihl ihr =>
    rw [label, Formula.atoms, Formula.atoms, map_append, ihl, ihr, length_append, List.range'_append_1]

def colName (i : Nat) : Text := 'c' :: List.replicate i '0'

theorem colName_injective {i j : Nat} (h : colName i = colName j) : i = j := by
  have hlength := congrArg List.length h
  simpa [colName] using hlength

theorem isName_colName (i : Nat) : IsName (colName i) where
  ne_nil := cons_ne_nil _ _
  chars c hc := by
    rcases mem_cons.mp hc with rfl | hc
    · decide
    · rw [eq_of_mem_replicate hc]
      decide
  head c hc := by
    cases hc
    decide
  notMem := by
    have hops : ∀ w ∈ operatorWords, w.head? ≠ some 'c' := by decide
    exact fun h => hops _ h rfl

variable (k : Formula Bool) (v : Nat × Bool → Bool)

/-- A column for each comparison: a text if it is compared with its own name, and an integer otherwise. -/
def labelTable : Table where
  columns := (label 0 k).atoms.map fun a => (colName a.1, if a.2 then "TEXT".toList else "INT".toList)
  primaryKey := []
  nodup := by
    rw [map_map]
    have h : (Prod.fst ∘ fun a : Nat × Bool => (colName a.1, if a.2 then "TEXT".toList else "INT".toList)) =
        colName ∘ Prod.fst := rfl
    rw [h, ← map_map, atoms_label]
    exact (nodup_range' (s := 0)).map fun _ _ => colName_injective
  isName := by
    intro col hcol
    obtain ⟨a, -, rfl⟩ := mem_map.mp hcol
    exact isName_colName a.1

/-- A row in which the comparisons have given values. -/
def labelValue (a : Nat × Bool) : Value :=
  if a.2 then .text (if v a then colName a.1 else []) else .int (if v a then 1 else 0)

def labelRow : Row (labelTable k) where
  values := (label 0 k).atoms.map (labelValue v)
  fits := by
    rw [labelTable, forall₂_map_left_iff, forall₂_map_right_iff, forall₂_same]
    intro a _
    rcases a with ⟨i, _ | _⟩
    · refine ⟨rfl, ?_⟩
      cases v (i, false) <;> decide
    · rfl

def labelComparison (a : Nat × Bool) : Comparison :=
  if a.2 then .text (colName a.1) false (colName a.1) else .int (colName a.1) .eq 1

section Label

variable {k v} {a : Nat × Bool}

theorem nodup_atoms_label : (label 0 k).atoms.Nodup := by
  refine List.Nodup.of_map Prod.fst ?_
  rw [atoms_label]
  exact nodup_range'

theorem getElem_idxOf_map {as : List (Nat × Bool)} (has : (as.map Prod.fst).Nodup) (ha : a ∈ as)
    (f : Nat × Bool → Value) : (as.map f)[(as.map fun a => colName a.1).idxOf (colName a.1)]? = some (f a) := by
  induction as with
  | nil => cases ha
  | cons b as ih =>
    rw [map_cons, nodup_cons] at has
    rcases mem_cons.mp ha with rfl | ha
    · simp
    · have hne : colName b.1 ≠ colName a.1 := fun h =>
        has.1 (colName_injective h ▸ mem_map_of_mem (f := Prod.fst) ha)
      rw [map_cons, map_cons, idxOf_cons_ne _ hne, List.getElem?_cons_succ, ih has.2 ha]

theorem get_labelRow (ha : a ∈ (label 0 k).atoms) : (labelRow k v).get (colName a.1) = some (labelValue v a) := by
  have hnames : (labelTable k).names = (label 0 k).atoms.map fun a => colName a.1 := by
    simp [Table.names, labelTable]
  rw [Row.get, hnames]
  refine getElem_idxOf_map ?_ ha _
  rw [atoms_label]
  exact nodup_range'

theorem fits_labelComparison (ha : a ∈ (label 0 k).atoms) : (labelComparison a).Fits (labelTable k) := by
  have hmem : (colName a.1, if a.2 then "TEXT".toList else "INT".toList) ∈ (labelTable k).columns :=
    mem_map.mpr ⟨a, ha, rfl⟩
  obtain ⟨i, _ | _⟩ := a
  · exact ⟨⟨_, hmem, rfl⟩, by decide⟩
  refine ⟨⟨_, hmem, rfl⟩, ?_, isParen_of_isName (isName_colName i)⟩
  intro w hw
  rw [splitOn_of_notMem fun h => (isName_colName i).chars _ h (by decide), mem_singleton] at hw
  rw [hw]
  exact (isName_colName i).notMem

theorem holds_labelComparison (ha : a ∈ (label 0 k).atoms) : (labelComparison a).holds (labelRow k v) = v a := by
  have hget := get_labelRow (v := v) ha
  obtain ⟨i, _ | _⟩ := a
  · rw [labelComparison, if_neg Bool.false_ne_true, Comparison.holds, hget, labelValue]
    cases v (i, false) <;> rfl
  · rw [labelComparison, if_pos rfl, Comparison.holds, hget, labelValue]
    cases v (i, true) <;> simp [colName]

theorem isReflexive_labelComparison (a : Nat × Bool) : (labelComparison a).isReflexive = a.2 := by
  obtain ⟨i, _ | _⟩ := a
  · rfl
  · exact decide_eq_true rfl

theorem segText_cons (text : α → Text) (a : α) (as : List α) :
    ∃ s, segText text (a :: as) = text a ++ s ∧ Ends s ∧ (s = [] ↔ as = []) := by
  cases as with
  | nil => exact ⟨[], (append_nil _).symm, .inl rfl, by simp⟩
  | cons b as => exact ⟨orHook ++ segText text (b :: as), append_assoc _ _ _, .inr ⟨_, rfl⟩, by simp [orHook]⟩

/-- Comparisons of a column with its own name are read as true, alone, and as false with others. -/
theorem segValue_label (ha : a ∈ (label 0 k).atoms) (as : List (Nat × Bool)) :
    segValue (Comparison.print ∘ labelComparison) (labelTable k).registry (labelRow k v).texts (a :: as) =
      if a.2 then some (decide (as = [])) else some (v a) := by
  obtain ⟨s, hs, hends, hnil⟩ := segText_cons (Comparison.print ∘ labelComparison) a as
  have hfits := fits_labelComparison ha
  have hholds := holds_labelComparison (v := v) ha
  have hget := get_labelRow (v := v) ha
  rw [segValue, hs]
  obtain ⟨i, _ | _⟩ := a
  · show evalColCondition _ _ ((int (colName i) .eq 1).print ++ s) = _
    rw [evalColCondition_int (labelRow k v) hfits hends]
    exact congrArg some hholds
  obtain ⟨u, hu, heval⟩ := evalColCondition_text (labelRow k v) hfits s
  show evalColCondition _ _ ((text (colName i) false (colName i)).print ++ s) = _
  rw [heval]
  by_cases has : as = []
  · rw [hnil.mpr has, append_nil, if_pos rfl, if_pos rfl, decide_eq_true has]
  have hne : s ≠ [] := fun h => has (hnil.mp h)
  have hcol : colName i ≠ colName i ++ s := fun h => hne (self_eq_append_right.mp h)
  have hu' : u ≠ colName i ++ s := by
    rw [hu] at hget
    cases hv : v (i, true) with
    | false =>
      rw [labelValue, hv] at hget
      cases hget
      simp [colName]
    | true =>
      rw [labelValue, hv] at hget
      cases hget
      exact hcol
  rw [if_neg hcol, if_pos rfl, decide_eq_false has, decide_eq_false hu']
  rfl

end Label

section Necessity

variable {k}

/-- What the condition with a given shape is read as. -/
def LabelReads (k : Formula Bool) : Prop :=
  ∀ v, read (segValue (Comparison.print ∘ labelComparison) (labelTable k).registry (labelRow k v).texts)
    (label 0 k).line = some ((label 0 k).eval v)

/-- A comparison of a column with its own name is not read, but the condition depends on it. -/
theorem snd_eq_false_of_labelReads (h : LabelReads k) {a : Nat × Bool} (ha : a ∈ (label 0 k).atoms) : a.2 = false := by
  by_contra hne
  obtain ⟨w, hw⟩ := Formula.exists_eval_update nodup_atoms_label ha
  let v : Nat × Bool → Bool := update w a false
  let v' : Nat × Bool → Bool := fun b => v b || b.2
  have hagree : Agree (segValue (Comparison.print ∘ labelComparison) (labelTable k).registry (labelRow k v).texts)
      (segValue (Comparison.print ∘ labelComparison) (labelTable k).registry (labelRow k v').texts)
      (label 0 k).line := by
    refine agree_of_atoms fun b hb as => ?_
    rw [Formula.atoms_line] at hb
    rw [segValue_label hb, segValue_label hb]
    obtain ⟨i, _ | _⟩ := b
    · simp [v']
    · rfl
  have heval : (label 0 k).eval v = (label 0 k).eval v' :=
    Option.some.inj ((h v).symm.trans (hagree.read.trans (h v')))
  have htrue : (label 0 k).eval v' = true := by
    refine Formula.eval_mono (fun b hb => ?_) (hw true)
    by_cases hba : b = a
    · subst hba
      simpa [v'] using Or.inr hne
    · rw [update_of_ne hba] at hb
      simp [v', v, update_of_ne hba, hb]
  rw [hw false, htrue] at heval
  cases heval

theorem readable_of_labelReads (h : LabelReads k) : Readable k := by
  rw [← map_label 0 k, readable_map]
  refine readable_of_read nodup_atoms_label fun v => ?_
  have hagree : Agree (segValue (Comparison.print ∘ labelComparison) (labelTable k).registry (labelRow k v).texts)
      (segOf v) (label 0 k).line := by
    refine agree_of_atoms fun b hb as => ?_
    rw [Formula.atoms_line] at hb
    rw [segValue_label hb, snd_eq_false_of_labelReads h hb]
    rfl
  rw [← hagree.read, h v]

end Necessity

/-- A predicate has its value in SQL, for every table, row and condition of a shape, exactly if the shape is readable
and no text is compared with its own column's name. -/
theorem evalPred_eq_eval_iff (k : Formula Bool) :
    (∀ (T : Table) (row : Row T) (c : Formula Comparison), c.map Comparison.isReflexive = k →
      (∀ x ∈ c.atoms, x.Fits T) →
      evalPred T.registry (print Comparison.print c) row.texts = some (c.eval (Comparison.holds row))) ↔
    Readable k ∧ ∀ b ∈ k.atoms, b = false := by
  constructor
  · intro h
    have hshape : ((label 0 k).map labelComparison).map isReflexive = k := by
      rw [Formula.map_map, show isReflexive ∘ labelComparison = Prod.snd from
        funext isReflexive_labelComparison, map_label]
    have hfits : ∀ x ∈ ((label 0 k).map labelComparison).atoms, x.Fits (labelTable k) := by
      rw [Formula.atoms_map]
      rintro x hx
      obtain ⟨a, ha, rfl⟩ := mem_map.mp hx
      exact fits_labelComparison ha
    have hread : LabelReads k := by
      intro v
      have hclean : ∀ a ∈ (label 0 k).atoms, IsClean ((Comparison.print ∘ labelComparison) a) :=
        fun a ha => isClean_print (fits_labelComparison ha)
      have hv := h (labelTable k) (labelRow k v) _ hshape hfits
      rw [print_map, evalPred_print hclean, Formula.eval_map] at hv
      rw [hv]
      exact congrArg some (Formula.eval_congr fun a ha => holds_labelComparison ha)
    refine ⟨readable_of_labelReads hread, fun b hb => ?_⟩
    rw [← map_label 0 k, Formula.atoms_map] at hb
    obtain ⟨a, ha, rfl⟩ := mem_map.mp hb
    exact snd_eq_false_of_labelReads hread ha
  · rintro ⟨hk, hreflexive⟩ T row c rfl hfits
    have hclean : ∀ x ∈ c.atoms, IsClean x.print := fun x hx => isClean_print (hfits x hx)
    rw [evalPred_print hclean]
    refine read_of_readable ((readable_map _ c).mp hk) fun x hx => ?_
    refine evalColCondition_print row (hfits x hx) (hreflexive _ ?_)
    rw [Formula.atoms_map]
    exact mem_map_of_mem hx

-- A conjunction of comparisons and disjunctions of comparisons in parentheses is readable. A parenthesis that closes
-- after a conjunction hides what follows it.
example : Readable (.and (.and (.atom 0) (.or (.atom 1) (.atom 2))) (.or (.atom 3) (.atom 4))) := by decide
example : ¬ Readable (.and (.paren (.and (.atom 0) (.atom 1))) (.atom 2)) := by decide

/-- What follows the parenthesis is not read, so the predicate is false for a row that satisfies it. -/
theorem unread_disjunct : ∃ (T : Table) (row : Row T) (c : Formula Comparison), (∀ x ∈ c.atoms, x.Fits T) ∧
    print Comparison.print c = "(c = 1 AND c0 = 1) OR c00 = 1".toList ∧
    evalPred T.registry (print Comparison.print c) row.texts = some false ∧ c.eval (Comparison.holds row) = true := by
  let k : Formula Bool := .or (.paren (.and (.atom false) (.atom false))) (.atom false)
  refine ⟨labelTable k, labelRow k fun a => a.1 = 2, (label 0 k).map labelComparison, ?_, by decide +kernel,
    by decide +kernel, by decide +kernel⟩
  rw [Formula.atoms_map]
  rintro x hx
  obtain ⟨a, ha, rfl⟩ := mem_map.mp hx
  exact fits_labelComparison ha

end Pequin.Sql
