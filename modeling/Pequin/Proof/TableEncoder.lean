import Pequin.Model.TableEncoder

/-!
# Keys of rows

The number of a table is written in digits, which are after the delimiter in the order of bytes. So the first delimiter
ends the number, and what has the same beginning up to it is of the same table.
-/

namespace Pequin

open Function List Search

theorem toNat_of_mem_digits {n : Nat} {c : Char} (h : c ∈ Nat.toDigits 10 n) :
    48 ≤ c.toNat ∧ (UInt8.ofNat c.toNat).toNat = c.toNat := by
  have hd := Nat.isDigit_of_mem_toDigits (by decide) (by decide) h
  simp only [Char.isDigit, Bool.and_eq_true, decide_eq_true_eq] at hd
  have hhi : c.toNat ≤ 57 := hd.2
  rw [UInt8.toNat_ofNat', Nat.mod_eq_of_lt (by omega)]
  exact ⟨hd.1, rfl⟩

theorem delimiter_lt_of_mem {n : Nat} {b : UInt8} (h : b ∈ decimal n) : delimiter < b := by
  obtain ⟨c, hc, rfl⟩ := mem_map.mp h
  obtain ⟨hlo, heq⟩ := toNat_of_mem_digits hc
  rw [UInt8.lt_iff_toNat_lt, heq]
  exact Nat.lt_of_lt_of_le (by decide) hlo

theorem decimal_injective : Injective decimal := by
  have hback (n : Nat) : (decimal n).map (fun b => Char.ofNat b.toNat) = Nat.toDigits 10 n := by
    rw [decimal, map_map]
    refine (map_congr_left fun c hc => ?_).trans (map_id _)
    simp [(toNat_of_mem_digits hc).2]
  have hofDigits (n : Nat) := Nat.ofDigitChars_toDigits (b := 10) (n := n) (by decide) (by decide)
  intro n m h
  rw [← hofDigits n, ← hback, h, hback, hofDigits]

/-- No other table comes between the version of a table and its rows: digits are after the delimiter. -/
theorem eq_of_between {a b x y : Bytes} (ha : ∀ c ∈ a, delimiter < c) (hb : ∀ c ∈ b, delimiter < c)
    (hx : x = [] ∨ ∃ x', x = delimiter :: x') (hlt : a < b ++ x) (hle : ¬ a ++ delimiter :: y < b ++ x) : b = a := by
  induction a generalizing b with
  | nil =>
    cases b with
    | nil => rfl
    | cons d b => exact absurd (cons_lt_cons_iff.mpr (.inl (hb d mem_cons_self))) hle
  | cons c a ih =>
    have hc := ha c mem_cons_self
    cases b with
    | nil =>
      rcases hx with rfl | ⟨x', rfl⟩
      · exact absurd hlt (not_lt_nil _)
      · rcases cons_lt_cons_iff.mp hlt with hlt | ⟨rfl, -⟩
        · exact absurd hlt (UInt8.lt_asymm hc)
        · exact absurd hc (UInt8.lt_irrefl _)
    | cons d b =>
      rw [cons_append, cons_append, cons_lt_cons_iff, not_or] at hle
      rcases cons_lt_cons_iff.mp hlt with hlt | ⟨rfl, hrest⟩
      · exact absurd hlt hle.1
      · rw [ih (fun c hc => ha c (mem_cons_of_mem _ hc)) (fun c hc => hb c (mem_cons_of_mem _ hc)) hrest
          fun h => hle.2 ⟨rfl, h⟩]

namespace TableEncoder

variable {s : TableEncoder}

def Inv (s : TableEncoder) : Prop :=
  ∀ t n, s.nameToNumerics t = some n → n < s.size ∧ s.numericsToName (decimal n) = some t

theorem encodeTable_spec (h : s.Inv) (t : Bytes) : (s.encodeTable t).1.Inv ∧
    (∃ n, (s.encodeTable t).1.nameToNumerics t = some n) ∧
    ∀ t' n, s.nameToNumerics t' = some n → (s.encodeTable t).1.nameToNumerics t' = some n := by
  unfold encodeTable
  cases ht : s.nameToNumerics t with
  | some n => exact ⟨h, ⟨n, ht⟩, fun _ _ h => h⟩
  | none =>
    refine ⟨fun t' n hn => ?_, ⟨s.size, update_self ..⟩, fun t' n hn => ?_⟩
    · by_cases heq : t' = t
      · subst heq
        cases (update_self t' (some s.size) s.nameToNumerics).symm.trans hn
        exact ⟨Nat.lt_succ_self _, update_self ..⟩
      · obtain ⟨hlt, hdec⟩ := h t' n ((update_of_ne heq ..).symm.trans hn)
        have hne : decimal n ≠ decimal s.size := fun h => hlt.ne (decimal_injective h)
        exact ⟨Nat.lt_succ_of_lt hlt, (update_of_ne hne ..).trans hdec⟩
    · exact (update_of_ne (by rintro rfl; simp [ht] at hn) ..).trans hn

theorem register_spec (h : s.Inv) (names : List Bytes) : (s.register names).Inv ∧
    (∀ t n, s.nameToNumerics t = some n → (s.register names).nameToNumerics t = some n) ∧
    ∀ t ∈ names, ∃ n, (s.register names).nameToNumerics t = some n := by
  induction names generalizing s with
  | nil => exact ⟨h, fun _ _ h => h, nofun⟩
  | cons t names ih =>
    obtain ⟨hinv, ⟨n, hn⟩, hkeep⟩ := encodeTable_spec h t
    obtain ⟨hinv', hkeep', hmem⟩ := ih hinv
    refine ⟨hinv', fun t' n' h' => hkeep' t' n' (hkeep t' n' h'), fun t' ht' => ?_⟩
    rcases mem_cons.mp ht' with rfl | ht'
    · exact ⟨n, hkeep' _ n hn⟩
    · exact hmem t' ht'

theorem encodeTableRow_eq {t : Bytes} {n : Nat} (h : s.nameToNumerics t = some n) (vs : List Bytes) :
    (s.encodeTableRow t vs).2 = decimal n ++ vs.flatMap (delimiter :: ·) := by
  rw [encodeTableRow, encodeTable, h]
  dsimp only
  generalize decimal n = a
  induction vs generalizing a with
  | nil => simp
  | cons v vs ih => simp [ih]

theorem splitValues_eq {v : Bytes} {vs : List Bytes} (hv : ∀ u ∈ v :: vs, delimiter ∉ u) {k : Nat}
    (hk : (vs.flatMap (delimiter :: ·)).length ≤ k) : splitValues k (v ++ vs.flatMap (delimiter :: ·)) = v :: vs := by
  induction vs generalizing v k with
  | nil =>
    have hfind : find [delimiter] (v ++ []) = none := (find_append (hv v (by simp)) []).trans rfl
    rw [append_nil] at hfind
    cases k <;> simp [splitValues, hfind]
  | cons w vs ih =>
    rw [flatMap_cons, length_append, length_cons] at hk
    obtain ⟨k, rfl⟩ : ∃ fuel, k = fuel + 1 := ⟨k - 1, by omega⟩
    rw [splitValues, flatMap_cons, cons_append, find_append (hv v (by simp))]
    simpa [find] using ih (fun u hu => hv u (mem_cons_of_mem v hu)) (k := k) (by omega)

theorem decodeTableRow_eq {t : Bytes} {n : Nat} (h : s.numericsToName (decimal n) = some t) {vs : List Bytes}
    (hne : vs ≠ []) (hvs : ∀ v ∈ vs, delimiter ∉ v) :
    s.decodeTableRow (decimal n ++ vs.flatMap (delimiter :: ·)) = some (t, vs) := by
  obtain ⟨v, vs, rfl⟩ := exists_cons_of_ne_nil hne
  have hfree : delimiter ∉ decimal n := fun hmem => UInt8.lt_irrefl _ (delimiter_lt_of_mem hmem)
  have hsplit := splitValues_eq hvs (k := (decimal n ++ delimiter :: (v ++ vs.flatMap (delimiter :: ·))).length) (by
    simp only [length_append, length_cons]
    omega)
  rw [decodeTableRow, find_append hfree]
  simpa [find, h] using hsplit

/-- Keys of rows stay when more tables are met, are decoded to what was encoded, and stand behind the version of their
table with nothing of another table in between. -/
theorem row_keys_decoded (names : List Bytes) :
    (∀ t ∈ names, ∀ vs more, rowKey (names ++ more) t vs = rowKey names t vs) ∧
    (∀ t ∈ names, ∀ vs, vs ≠ [] → (∀ v ∈ vs, delimiter ∉ v) →
      (({} : TableEncoder).register names).decodeTableRow (rowKey names t vs) = some (t, vs) ∧
      ∀ t' ∈ names, ∀ vs', vs' ≠ [] → (∀ v ∈ vs', delimiter ∉ v) → rowKey names t vs = rowKey names t' vs' →
        t = t' ∧ vs = vs') ∧
    ∀ t ∈ names, ∀ vs, vs ≠ [] → rowKey names t [] < rowKey names t vs ∧ ∀ t' ∈ names, ∀ vs',
      rowKey names t [] < rowKey names t' vs' → rowKey names t' vs' < rowKey names t vs → t' = t := by
  obtain ⟨hinv, -, hmem⟩ := register_spec (s := {}) nofun names
  have hkey : ∀ t ∈ names, ∃ n, (({} : TableEncoder).register names).nameToNumerics t = some n ∧
      ∀ vs, rowKey names t vs = decimal n ++ vs.flatMap (delimiter :: ·) := fun t ht =>
    (hmem t ht).imp fun n hn => ⟨hn, encodeTableRow_eq hn⟩
  have hdec : ∀ t ∈ names, ∀ vs, vs ≠ [] → (∀ v ∈ vs, delimiter ∉ v) →
      (({} : TableEncoder).register names).decodeTableRow (rowKey names t vs) = some (t, vs) := by
    intro t ht vs hne hvs
    obtain ⟨n, hn, heq⟩ := hkey t ht
    rw [heq]
    exact decodeTableRow_eq (hinv t n hn).2 hne hvs
  refine ⟨fun t ht vs more => ?_, fun t ht vs hne hvs => ⟨hdec t ht vs hne hvs, fun t' ht' vs' hne' hvs' heq => ?_⟩,
    fun t ht vs hne => ?_⟩
  · obtain ⟨n, hn, heq⟩ := hkey t ht
    have hn' := (register_spec hinv more).2.1 t n hn
    rw [register, register, ← foldl_append] at hn'
    exact (encodeTableRow_eq hn' vs).trans (heq vs).symm
  · have hsame := hdec t ht vs hne hvs
    rw [heq, hdec t' ht' vs' hne' hvs', Option.some.injEq, Prod.mk.injEq] at hsame
    exact ⟨hsame.1.symm, hsame.2.symm⟩
  · obtain ⟨n, hn, heq⟩ := hkey t ht
    obtain ⟨v, vs, rfl⟩ := exists_cons_of_ne_nil hne
    have hlt : decimal n ++ [] < decimal n ++ delimiter :: (v ++ vs.flatMap (delimiter :: ·)) :=
      append_left_lt (nil_lt_cons ..)
    rw [append_nil] at hlt
    rw [heq, heq, flatMap_nil, append_nil, flatMap_cons, cons_append]
    refine ⟨hlt, fun t' ht' vs' hlt hgt => ?_⟩
    obtain ⟨n', hn', heq'⟩ := hkey t' ht'
    rw [heq'] at hlt hgt
    have hsame := eq_of_between (fun _ => delimiter_lt_of_mem) (fun _ => delimiter_lt_of_mem) (by cases vs' <;> simp)
      hlt (List.lt_asymm hgt)
    have hdec' := (hinv t' n' hn').2
    rw [hsame, (hinv t n hn).2] at hdec'
    exact (Option.some.inj hdec').symm

end TableEncoder

end Pequin
