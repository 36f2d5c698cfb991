import Pequin.Proof.ConditionText

/-!
# Comparisons

What `EvalColCondition` makes of a comparison and what follows it. The number that an integer is compared with ends at
the first blank, so that it is the same whatever follows; a text does not.
-/

namespace Pequin.Sql

open ColRegistry Comparison List Option

section Registry

variable {cols : List (Text × Text)} {col type : Text}

theorem foldl_registerColumn_of_notMem (reg : ColRegistry) (h : col ∉ cols.map Prod.fst) :
    (cols.foldl registerColumn reg).colNameIndex col = reg.colNameIndex col ∧
      (cols.foldl registerColumn reg).colNameType col = reg.colNameType col := by
  induction cols generalizing reg with
  | nil => exact ⟨rfl, rfl⟩
  | cons c cols ih =>
    rw [map_cons, mem_cons, not_or] at h
    obtain ⟨hindex, htype⟩ := ih (reg.registerColumn c) h.2
    rw [foldl_cons, hindex, htype]
    exact ⟨Function.update_of_ne h.1 _ _, Function.update_of_ne h.1 _ _⟩

/-- A column is registered with its position and its type. -/
theorem foldl_registerColumn_of_mem (reg : ColRegistry) (hnodup : (cols.map Prod.fst).Nodup) (h : (col, type) ∈ cols) :
    (cols.foldl registerColumn reg).colNameIndex col = some (reg.colNames.length + (cols.map Prod.fst).idxOf col) ∧
      (cols.foldl registerColumn reg).colNameType col = some type := by
  induction cols generalizing reg with
  | nil => cases h
  | cons c cols ih =>
    rw [map_cons, nodup_cons] at hnodup
    rw [foldl_cons]
    rcases mem_cons.mp h with rfl | h
    · obtain ⟨hindex, htype⟩ := foldl_registerColumn_of_notMem (reg.registerColumn (col, type)) hnodup.1
      rw [hindex, htype]
      simp [registerColumn]
    have hne : col ≠ c.1 := fun heq => hnodup.1 (heq ▸ mem_map_of_mem (f := Prod.fst) h)
    obtain ⟨hindex, htype⟩ := ih (reg.registerColumn c) hnodup.2 h
    refine ⟨?_, htype⟩
    rw [hindex, map_cons, idxOf_cons_ne _ hne.symm]
    simp only [registerColumn, length_append, length_cons, length_nil, some.injEq]
    omega

variable {T : Table}

theorem colNameIndex_registry (h : (col, type) ∈ T.columns) :
    T.registry.colNameIndex col = some (T.names.idxOf col) := by
  have hindex := (foldl_registerColumn_of_mem .empty T.nodup h).1
  simp only [empty, length_nil, Nat.zero_add] at hindex
  exact hindex

theorem colNameType_registry (h : (col, type) ∈ T.columns) : T.registry.colNameType col = some type :=
  (foldl_registerColumn_of_mem .empty T.nodup h).2

/-- The value of a row in a column, and its text at the position of the column. -/
theorem Row.get_of_mem (row : Row T) (h : (col, type) ∈ T.columns) :
    ∃ value, row.get col = some value ∧ value.Fits type ∧ row.texts[T.names.idxOf col]? = some value.print := by
  obtain ⟨hlength, hfits⟩ := forall₂_iff_get.mp row.fits
  have hmem : col ∈ T.names := mem_map_of_mem (f := Prod.fst) h
  have hname : T.names[T.names.idxOf col]? = some col := List.getElem?_idxOf hmem
  have hidx : T.names.idxOf col < T.columns.length := by
    have hlt := idxOf_lt_length_of_mem hmem
    rwa [Table.names, length_map] at hlt
  have hidx' : T.names.idxOf col < row.values.length := hlength ▸ hidx
  have hget : row.get col = some row.values[T.names.idxOf col] := List.getElem?_eq_getElem hidx'
  refine ⟨_, hget, ?_, ?_⟩
  · have hfit := hfits _ hidx hidx'
    generalize T.names.idxOf col = i at hname hidx hidx' hfit
    have hcol : (T.columns.get ⟨i, hidx⟩).1 = col := by
      rw [Table.names, List.getElem?_map, List.getElem?_eq_getElem hidx] at hname
      exact some.inj hname
    -- The column at this index is the registered one, since names are distinct.
    have htype := colNameType_registry (get_mem T.columns ⟨i, hidx⟩)
    rw [hcol, colNameType_registry h] at htype
    rw [some.inj htype]
    exact hfit
  · rw [Row.texts, List.getElem?_map, List.getElem?_eq_getElem hidx']
    rfl

end Registry

/-- What may follow a number. -/
def Ends (s : Text) : Prop := s = [] ∨ ∃ s', s = ' ' :: s'

theorem ne_of_isDigit {c : Char} (hc : c.isDigit = true) :
    c.isWhitespace = false ∧ c ≠ '-' ∧ c ≠ '+' ∧ c ≠ ' ' ∧ isParen c = false := by
  have hne (d : Char) (hd : d.isDigit = false) : c ≠ d := by
    rintro rfl
    rw [hc] at hd
    cases hd
  refine ⟨?_, hne _ rfl, hne _ rfl, hne _ rfl, ?_⟩
  · simp [Char.isWhitespace, hne ' ' rfl, hne '\t' rfl, hne '\r' rfl, hne '\n' rfl]
  · simp [isParen, hne '(' rfl, hne ')' rfl]

theorem isDigit_of_mem {n : Nat} {c : Char} (hc : c ∈ Nat.toDigits 10 n) : c.isDigit = true :=
  Nat.isDigit_of_mem_toDigits (by decide) (by decide) hc

theorem toDigits_eq_cons (n : Nat) : ∃ c ds, Nat.toDigits 10 n = c :: ds ∧ c.isDigit = true := by
  obtain ⟨c, ds, h⟩ := exists_cons_of_ne_nil (Nat.toDigits_ne_nil (n := n) (b := 10))
  have hmem : c ∈ Nat.toDigits 10 n := h ▸ mem_cons_self
  exact ⟨c, ds, h, isDigit_of_mem hmem⟩

variable {s : Text}

theorem takeWhile_digits (n : Nat) (hs : Ends s) : (Nat.toDigits 10 n ++ s).takeWhile Char.isDigit = Nat.toDigits 10 n ∧
    (Nat.toDigits 10 n ++ s).dropWhile Char.isDigit = s := by
  rw [takeWhile_append_of_pos fun c hc => isDigit_of_mem hc, dropWhile_append_of_pos fun c hc => isDigit_of_mem hc]
  rcases hs with rfl | ⟨s', rfl⟩
  · simp
  · have hsp : Char.isDigit ' ' = false := rfl
    simp [hsp]

theorem stodDigits_toDigits (negative : Bool) {n : Nat} (hn : n ≤ 2 ^ 53) (hs : Ends s) :
    stodDigits negative (Nat.toDigits 10 n ++ s) = some (if negative then -(n : Int) else n) := by
  obtain ⟨htake, hdrop⟩ := takeWhile_digits n hs
  have hhead : s.head?.any (· ∈ ['.', 'e', 'E', 'x', 'X']) = false := by
    rcases hs with rfl | ⟨s', rfl⟩ <;> simp
  have hnil : Nat.toDigits 10 n ≠ [] := Nat.toDigits_ne_nil
  simp only [stodDigits, htake, hdrop, hhead, Nat.ofDigitChars_toDigits (b := 10) (n := n) (by decide) (by decide),
    hnil, decide_false, Bool.or_self, Bool.false_or, decide_eq_true_eq, if_neg (Nat.not_lt.mpr hn)]

/-- `stod` reads a printed integer up to the blank after it. -/
theorem stod_printInt {n : Int} (hn : IsExact n) (hs : Ends s) : stod (printInt n ++ s) = some n := by
  cases n with
  | ofNat n =>
    obtain ⟨c, ds, hds, hc⟩ := toDigits_eq_cons n
    obtain ⟨hwhite, hminus, hplus, -⟩ := ne_of_isDigit hc
    have hstod : stod (Nat.toDigits 10 n ++ s) = stodDigits false (Nat.toDigits 10 n ++ s) := by
      rw [hds, cons_append, stod, dropWhile_cons, hwhite]
      split
      · exact absurd (List.cons.inj ‹_›).1 hminus
      · exact absurd (List.cons.inj ‹_›).1 hplus
      · rfl
    exact hstod.trans (stodDigits_toDigits false hn hs)
  | negSucc n =>
    have hstod : stod ('-' :: (Nat.toDigits 10 (n + 1) ++ s)) = stodDigits true (Nat.toDigits 10 (n + 1) ++ s) := rfl
    exact hstod.trans (stodDigits_toDigits true hn hs)

/-- A comparison is split at its operator. One of a column with its own name is true. -/
theorem evalColCondition_eq {reg : ColRegistry} {row : List Text} {col : Text} (hcol : IsName col) (op : CmpOp)
    (right : Text) : evalColCondition reg row (col ++ ' ' :: (op.text ++ ' ' :: right)) = if col = right then some true
      else (reg.colNameIndex col).bind fun idx => (row[idx]?).bind fun value => (reg.colNameType col).bind fun type =>
              if isQuoted type then compareTexts op.text value right else (stod value).bind fun rowVal =>
                (stod right).bind fun predVal => compareNumbers op.text rowVal predVal := by
  have hfree : col.findIdx? (· ∈ ['=', '!', '<', '>']) = none := by
    rw [List.findIdx?_eq_none_iff]
    intro c hc
    have h := hcol.chars c hc
    simp_all
  have hop : ∃ c s, op.text = c :: s ∧ c ∈ ['=', '!', '<', '>'] := by
    cases op <;> exact ⟨_, _, rfl, by decide⟩
  have hsp : (op.text ++ ' ' :: right).findIdx? (· = ' ') = some op.text.length := by
    cases op <;> rfl
  have hpos : (col ++ ' ' :: (op.text ++ ' ' :: right)).findIdx? (· ∈ ['=', '!', '<', '>']) =
      some (col.length + 1) := by
    obtain ⟨c, s, hc, hmem⟩ := hop
    rw [List.findIdx?_append, hfree, none_or, hc, List.findIdx?_cons, cons_append, List.findIdx?_cons]
    simp only [decide_eq_true hmem, if_true, map_some]
    simp [Nat.add_comm]
  have hdrop : (col ++ ' ' :: (op.text ++ ' ' :: right)).drop (col.length + 1) = op.text ++ ' ' :: right := by
    rw [← drop_drop, drop_left]
    rfl
  have hleft : (col ++ ' ' :: (op.text ++ ' ' :: right)).take (col.length + 1 - 1) = col := by
    rw [Nat.add_sub_cancel, take_left]
  have htake : (op.text ++ ' ' :: right).take op.text.length = op.text := take_left
  have hright : (op.text ++ ' ' :: right).drop (op.text.length + 1) = right := by
    rw [← drop_drop, drop_left]
    rfl
  simp only [evalColCondition, hpos, hdrop, hsp, htake, hright, Nat.succ_ne_zero, if_false, hleft]

theorem compareNumbers_text (op : CmpOp) (n m : Int) : compareNumbers op.text n m = some (op.holds n m) := by
  cases op <;> simp [compareNumbers, CmpOp.text, CmpOp.holds]

/-- Comparisons of texts: equal, or not. -/
theorem compareTexts_text (negated : Bool) (t u : Text) :
    compareTexts (if negated then CmpOp.ne else CmpOp.eq).text t u = some ((t = u) != negated) := by
  cases negated with
  | false => simp [compareTexts, CmpOp.text, eq_comm]
  | true =>
    simp only [compareTexts, CmpOp.text, if_true]
    by_cases h : u = t
    · subst h
      simp
    · simp [h, Ne.symm h]

section Comparison

variable {T : Table} (row : Row T) {col t : Text}

theorem isName_of_mem {type : Text} (h : (col, type) ∈ T.columns) : IsName col := T.isName _ h

/-- A column name does not start as an integer does. -/
theorem ne_printInt (hcol : IsName col) (n : Int) : col ≠ printInt n ++ s := by
  rintro rfl
  cases n with
  | ofNat n =>
    obtain ⟨c, ds, hds, hc⟩ := toDigits_eq_cons n
    have h := (hcol.head c (by simp [printInt, hds])).2
    rw [hc] at h
    cases h
  | negSucc n => exact (hcol.head '-' rfl).1 rfl

/-- What follows an integer does not matter. -/
theorem evalColCondition_int {op : CmpOp} {n : Int} (h : (int col op n).Fits T) (hs : Ends s) :
    evalColCondition T.registry row.texts ((int col op n).print ++ s) = some ((int col op n).holds row) := by
  obtain ⟨⟨type, hmem, htype⟩, hn⟩ := h
  obtain ⟨value, hget, hfits, htext⟩ := row.get_of_mem hmem
  have hprint : (int col op n).print ++ s = col ++ ' ' :: (op.text ++ ' ' :: (printInt n ++ s)) := by
    simp [Comparison.print]
  rw [hprint, evalColCondition_eq (isName_of_mem hmem), if_neg (ne_printInt (isName_of_mem hmem) n),
    colNameIndex_registry hmem, bind_some, htext, bind_some, colNameType_registry hmem, bind_some,
    htype]
  cases value with
  | int m =>
    have hm : stod (printInt m) = some m := by
      have h := stod_printInt hfits.2 (s := []) (.inl rfl)
      rwa [append_nil] at h
    simp only [Bool.false_eq_true, if_false, Value.print, hm, stod_printInt hn hs, bind_some,
      compareNumbers_text, holds, hget]
  | text t =>
    rw [show isQuoted type = true from hfits] at htype
    cases htype

/-- What follows a text is compared with it. -/
theorem evalColCondition_text {negated : Bool} (h : (text col negated t).Fits T) (s : Text) :
    ∃ u, row.get col = some (.text u) ∧ evalColCondition T.registry row.texts ((text col negated t).print ++ s) =
        if col = t ++ s then some true else some ((u = t ++ s) != negated) := by
  obtain ⟨⟨type, hmem, htype⟩, -⟩ := h
  obtain ⟨value, hget, hfits, htext⟩ := row.get_of_mem hmem
  have hprint : (text col negated t).print ++ s =
      col ++ ' ' :: ((if negated then CmpOp.ne else CmpOp.eq).text ++ ' ' :: (t ++ s)) := by
    simp [Comparison.print]
  cases value with
  | int m =>
    rw [show isQuoted type = false from hfits.1] at htype
    cases htype
  | text u =>
    refine ⟨u, hget, ?_⟩
    rw [hprint, evalColCondition_eq (isName_of_mem hmem), colNameIndex_registry hmem, bind_some, htext,
      bind_some, colNameType_registry hmem, bind_some, htype, if_pos rfl, compareTexts_text]
    rfl

/-- A comparison on its own has the right value. -/
theorem evalColCondition_print {x : Comparison} (h : x.Fits T) (hx : x.isReflexive = false) :
    evalColCondition T.registry row.texts x.print = some (x.holds row) := by
  cases x with
  | int col op n =>
    have hint := evalColCondition_int row h (s := []) (.inl rfl)
    rwa [append_nil] at hint
  | text col negated t =>
    obtain ⟨u, hget, heval⟩ := evalColCondition_text row h []
    rw [append_nil, append_nil] at heval
    have hne : col ≠ t := by simpa [isReflexive] using hx
    rw [heval, if_neg hne, holds, hget]

theorem noOperator_of_splitOn_eq {w : Text} (h : t.splitOn ' ' = [w]) (hw : w ∉ operatorWords) : NoOperator t := by
  intro w' hw'
  rw [h, mem_singleton] at hw'
  rwa [hw']

theorem splitOn_of_notMem (h : ' ' ∉ t) : t.splitOn ' ' = [t] := by
  have hsplit : ([' '].intercalate [t]).splitOn ' ' = [t] :=
    splitOn_intercalate ' ' (by simpa using h) (cons_ne_nil _ _)
  rwa [intercalate_singleton] at hsplit

/-- No word of a comparison is an operator, if none on its right side is. -/
theorem noOperator_comparison {right : Text} (hcol : IsName col) (op : CmpOp) (hright : NoOperator right) :
    NoOperator (col ++ ' ' :: (op.text ++ ' ' :: right)) := by
  have hsp : ' ' ∉ col := fun h => hcol.chars _ h (by decide)
  have hop : ' ' ∉ op.text ∧ op.text ∉ operatorWords := by cases op <;> decide
  intro w hw
  rw [splitOn_append_cons_self, splitOn_append_cons_self, splitOn_of_notMem hsp, splitOn_of_notMem hop.1,
    mem_append, mem_append, mem_singleton, mem_singleton] at hw
  rcases hw with rfl | rfl | hw
  · exact hcol.notMem
  · exact hop.2
  · exact hright w hw

theorem isParen_of_isName (hcol : IsName col) : ∀ c ∈ col, isParen c = false := by
  intro c hc
  have h := hcol.chars c hc
  simp_all [isParen]

theorem mem_printInt {n : Int} {c : Char} (hc : c ∈ printInt n) : c = '-' ∨ c.isDigit = true := by
  cases n with
  | ofNat n => exact .inr (isDigit_of_mem hc)
  | negSucc n => exact (mem_cons.mp hc).imp_right isDigit_of_mem

theorem printInt_notMem (n : Int) : printInt n ∉ operatorWords := by
  have hops : ∀ w ∈ operatorWords, ∃ c ∈ w, c ≠ '-' ∧ c.isDigit = false := by
    have hall : operatorWords.all (·.any fun c => c ≠ '-' ∧ c.isDigit = false) = true := rfl
    simpa using hall
  intro h
  obtain ⟨c, hc, hne, hdigit⟩ := hops _ h
  rcases mem_printInt hc with rfl | h
  · exact hne rfl
  · rw [h] at hdigit
    cases hdigit

/-- No comparison holds a parenthesis or an operator. -/
theorem isClean_print {x : Comparison} (h : x.Fits T) : IsClean x.print := by
  have hparen {col right : Text} (hcol : IsName col) (op : CmpOp) (hright : ∀ c ∈ right, isParen c = false) :
      ∀ c ∈ col ++ ' ' :: (op.text ++ ' ' :: right), isParen c = false := by
    have hop : ∀ c ∈ op.text, isParen c = false := by
      have hall : op.text.all (!isParen ·) = true := by cases op <;> rfl
      simpa using hall
    intro c hc
    simp only [mem_append, mem_cons] at hc
    rcases hc with hc | rfl | hc | rfl | hc
    · exact isParen_of_isName hcol c hc
    · rfl
    · exact hop c hc
    · rfl
    · exact hright c hc
  cases x with
  | int col op n =>
    obtain ⟨⟨type, hmem, -⟩, -⟩ := h
    have hcol := isName_of_mem hmem
    have hsp : ' ' ∉ printInt n := fun h => by
      rcases mem_printInt h with h | h <;> exact absurd h (by decide)
    refine ⟨by simp [Comparison.print], hparen hcol op fun c hc => ?_, noOperator_comparison hcol op ?_⟩
    · rcases mem_printInt hc with rfl | h
      · rfl
      · exact (ne_of_isDigit h).2.2.2.2
    · exact noOperator_of_splitOn_eq (splitOn_of_notMem hsp) (printInt_notMem n)
  | text col negated t =>
    obtain ⟨⟨type, hmem, -⟩, ht⟩ := h
    have hcol := isName_of_mem hmem
    exact ⟨by simp [Comparison.print], hparen hcol _ ht.paren, noOperator_comparison hcol _ ht.notMem⟩

end Comparison

end Pequin.Sql
