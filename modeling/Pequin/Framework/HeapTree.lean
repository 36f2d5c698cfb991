import Mathlib.Algebra.Order.Ring.Int
import Mathlib.Data.List.Basic

/-!
# Trees in an array

A tree with at most `m` children for each node: those of node `v` are `m v + 1, …, m v + m`, as far as the array goes.
`build` computes the inner nodes from the leaves, one block of siblings after the other, from the end of the array.
-/

namespace HeapTree

open Function List

def parent (m j : Nat) : Nat := (j - 1) / m

/-- The leftmost sibling of a node. -/
def first (m j : Nat) : Nat := (j - 1) / m * m + 1

/-- The number of siblings of a node, where `M` is the last node. -/
def siblings (m M j : Nat) : Nat := min m (M + 1 - first m j)

variable {m M i j k : Nat}

theorem first_eq : first m j = parent m j * m + 1 := rfl

theorem first_le (hj : 1 ≤ j) : first m j ≤ j := by
  have := Nat.div_mul_le_self (j - 1) m
  rw [first]
  omega

theorem lt_first_add (hm : 0 < m) : j < first m j + m := by
  have := Nat.lt_div_mul_add (a := j - 1) hm
  rw [first]
  omega

theorem parent_lt (hj : 1 ≤ j) : parent m j < j := by
  have := Nat.div_le_self (j - 1) m
  rw [parent]
  omega

theorem parent_lt_first (hm : 0 < m) : parent m j < first m j := by
  have := Nat.le_mul_of_pos_right (parent m j) hm
  rw [first_eq]
  omega

theorem parent_of_mem (hl : first m j ≤ k) (hr : k < first m j + m) : parent m k = parent m j := by
  rw [first_eq] at hl hr
  refine Nat.div_eq_of_lt_le ?_ ?_
  · omega
  · rw [Nat.add_one_mul]
    omega

theorem first_of_mem (hl : first m j ≤ k) (hr : k < first m j + m) : first m k = first m j := by
  rw [first_eq, parent_of_mem hl hr, first_eq]

theorem siblings_of_mem (hl : first m j ≤ k) (hr : k < first m j + m) : siblings m M k = siblings m M j := by
  rw [siblings, first_of_mem hl hr, siblings]

theorem parent_child (hm : 0 < m) (v : Nat) : parent m (m * v + 1) = v := by
  rw [parent, Nat.add_sub_cancel, Nat.mul_div_cancel_left v hm]

/-- A block ends at a multiple of `m`, or at the end of the array. -/
def IsEnd (m M i : Nat) : Prop := i = M ∨ m ∣ i

theorem lt_first_of_end (hm : 0 < m) (he : IsEnd m M i) (hij : i < j) (hj : j ≤ M) : i < first m j := by
  rcases he with rfl | ⟨q, rfl⟩
  · omega
  have hq : q ≤ (j - 1) / m := by
    rw [Nat.le_div_iff_mul_le hm, Nat.mul_comm]
    omega
  have := Nat.mul_le_mul_right m hq
  rw [first, Nat.mul_comm m q]
  omega

theorem siblings_of_end (hm : 0 < m) (he : IsEnd m M i) (hi : 1 ≤ i) (hM : i ≤ M) :
    siblings m M i = i + 1 - first m i := by
  have hlt := lt_first_add hm (j := i)
  rw [siblings]
  rcases he with rfl | ⟨q, rfl⟩
  · omega
  obtain ⟨p, rfl⟩ : ∃ p, q = p + 1 := Nat.exists_eq_add_one_of_ne_zero fun h => by simp [h] at hi
  have hfirst : first m (m * (p + 1)) = p * m + 1 := by
    have hdiv : (m * (p + 1) - 1) / m = p := by
      rw [Nat.mul_add_one]
      refine Nat.div_eq_of_lt_le ?_ ?_
      · rw [Nat.mul_comm]
        omega
      · rw [Nat.add_one_mul, Nat.mul_comm p m]
        omega
    rw [first, hdiv]
  rw [hfirst, Nat.mul_add_one, Nat.mul_comm m p] at *
  omega

theorem isEnd_first : IsEnd m M (first m i - 1) :=
  .inr ⟨(i - 1) / m, by rw [first, Nat.add_sub_cancel, Nat.mul_comm]⟩

/-- The last node of a depth, where the tree is full. -/
def lastAt (m : Nat) : Nat → Nat
  | 0 => 0
  | d + 1 => m * lastAt m d + m

theorem parent_le_lastAt {d : Nat} (hm : 0 < m) (h : j ≤ lastAt m (d + 1)) : parent m j ≤ lastAt m d := by
  rw [lastAt] at h
  rw [parent, ← Nat.lt_succ_iff, Nat.div_lt_iff_lt_mul hm, Nat.succ_mul, Nat.mul_comm]
  omega

/-- The size of a full tree. -/
theorem lastAt_mul (k d : Nat) : lastAt (k + 1) d * k + (k + 1) = (k + 1) ^ (d + 1) := by
  induction d with
  | zero => simp [lastAt]
  | succ d ih =>
    rw [Nat.pow_succ, ← ih, lastAt]
    grind

variable {H : Type*} {combine : List H → H} {a l fuel : Nat} {t t' : Nat → Option H} {b : List H} {P : H → Prop}
  {log : List (List H)}

/-- The values of the nodes `l, …, l + k - 1`, if all of them are there. -/
def block (t : Nat → Option H) : Nat → Nat → Option (List H)
  | _, 0 => some []
  | l, k + 1 =>
    match t l, block t (l + 1) k with
    | some x, some xs => some (x :: xs)
    | _, _ => none

theorem block_succ : block t l (k + 1) = some b ↔ ∃ x xs, t l = some x ∧ block t (l + 1) k = some xs ∧ b = x :: xs := by
  rw [block]
  split
  · rename_i x xs hx hxs
    simp [hx, hxs, eq_comm]
  · rename_i hnone
    simp only [reduceCtorEq, false_iff]
    rintro ⟨x, xs, hx, hxs, -⟩
    exact hnone x xs hx hxs

theorem length_block (h : block t l k = some b) : b.length = k := by
  induction k generalizing l b with
  | zero =>
    cases h
    rfl
  | succ k ih =>
    obtain ⟨x, xs, -, hxs, rfl⟩ := block_succ.mp h
    rw [length_cons, ih hxs]

theorem getElem?_block (h : block t l k = some b) (hi : i < k) : b[i]? = t (l + i) := by
  induction k generalizing l b i with
  | zero => omega
  | succ k ih =>
    obtain ⟨x, xs, hx, hxs, rfl⟩ := block_succ.mp h
    cases i with
    | zero => rw [Nat.add_zero, hx, getElem?_cons_zero]
    | succ i =>
      rw [getElem?_cons_succ, ih hxs (by omega)]
      congr 1
      omega

theorem exists_block (h : ∀ v, l ≤ v → v < l + k → (t v).isSome = true) : ∃ b, block t l k = some b := by
  induction k generalizing l with
  | zero => exact ⟨[], rfl⟩
  | succ k ih =>
    obtain ⟨x, hx⟩ := Option.isSome_iff_exists.mp (h l (Nat.le_refl l) (by omega))
    obtain ⟨xs, hxs⟩ := ih (l := l + 1) fun v hl hr => h v (by omega) (by omega)
    exact ⟨x :: xs, block_succ.mpr ⟨x, xs, hx, hxs, rfl⟩⟩

theorem block_congr (h : ∀ v, l ≤ v → v < l + k → t' v = t v) : block t' l k = block t l k := by
  induction k generalizing l with
  | zero => rfl
  | succ k ih =>
    rw [block, block, h l (Nat.le_refl l) (by omega), ih fun v hl hr => h v (by omega) (by omega)]

/-- Combine the blocks up to node `i`, from the last one down. The second result lists the blocks
that were combined. -/
def build (combine : List H → H) (m : Nat) :
    Nat → Nat → (Nat → Option H) → List (List H) → Option ((Nat → Option H) × List (List H))
  | 0, _, t, log => some (t, log)
  | fuel + 1, i, t, log =>
    if i ≤ 1 then some (t, log)
    else if m = 0 then none
    else
      match block t (first m i) (i + 1 - first m i) with
      | none => none
      | some b =>
        build combine m fuel (first m i - 1) (Function.update t (parent m i) (some (combine b))) (b :: log)

/-- The nodes after `i` are combined into their parents. -/
def Done (combine : List H → H) (m M : Nat) (t : Nat → Option H) (i : Nat) : Prop :=
  ∀ j, i < j → j ≤ M → ∃ b, block t (first m j) (siblings m M j) = some b ∧ t (parent m j) = some (combine b)

/-- The leaves are the nodes `a, …, M`, and every other one is a parent. -/
structure Shape (m M a : Nat) : Prop where
  two_le : 2 ≤ m
  parents : ∀ j, 1 ≤ j → j ≤ M → parent m j < a
  children : ∀ v, v < a → m * v + 1 ≤ M

theorem exists_block_of_done (hs : Shape m M a) (hM : i ≤ M)
    (hleaf : ∀ v, a ≤ v → v ≤ M → (t v).isSome = true) (hd : Done combine m M t i) :
    ∃ b, block t (first m i) (i + 1 - first m i) = some b := by
  have hm : 0 < m := by have := hs.two_le; omega
  refine exists_block fun v hl hr => ?_
  by_cases hv : a ≤ v
  · exact hleaf v hv (by omega)
  -- an inner node: its first child is behind `i`
  have hbehind : i < m * v + 1 := by
    have hlt := lt_first_add hm (j := i)
    have hpos : 1 ≤ first m i := by rw [first]; omega
    obtain ⟨u, rfl⟩ : ∃ u, v = u + 1 := ⟨v - 1, by omega⟩
    have := Nat.le_mul_of_pos_left u hm
    rw [Nat.mul_add_one]
    omega
  obtain ⟨b, -, hb⟩ := hd _ hbehind (hs.children v (by omega))
  rw [parent_child hm] at hb
  rw [hb]
  rfl

theorem Done.step (hm : 0 < m) (he : IsEnd m M i) (hi : 1 ≤ i) (hM : i ≤ M) (hd : Done combine m M t i)
    (hb : block t (first m i) (i + 1 - first m i) = some b) :
    Done combine m M (update t (parent m i) (some (combine b))) (first m i - 1) := by
  have hlt := parent_lt_first hm (j := i)
  have hle := first_le hi (m := m)
  intro j hj hjM
  by_cases hij : j ≤ i
  · have hr : j < first m i + m := by
      have := lt_first_add hm (j := i)
      omega
    have hl : first m i ≤ j := by omega
    refine ⟨b, ?_, by rw [parent_of_mem hl hr, update_self]⟩
    rw [first_of_mem hl hr, siblings_of_mem hl hr, siblings_of_end hm he hi hM, ← hb]
    exact block_congr fun v hv _ => update_of_ne (by omega) _ _
  · obtain ⟨b', hb', hparent⟩ := hd j (by omega) hjM
    have hafter : i < first m j := lt_first_of_end hm he (by omega) hjM
    have hne : parent m j ≠ parent m i := fun heq => by
      have : first m j = first m i := by rw [first_eq, heq, first_eq]
      omega
    refine ⟨b', ?_, by rw [update_of_ne hne, hparent]⟩
    rw [← hb']
    exact block_congr fun v hv _ => update_of_ne (by omega) _ _

/-- Afterwards every node is combined from its children. -/
theorem build_spec (hs : Shape m M a) (hf : i ≤ fuel) (he : IsEnd m M i) (hM : i ≤ M) (hone : i ≠ 1)
    (hleaf : ∀ v, a ≤ v → v ≤ M → (t v).isSome = true) (hd : Done combine m M t i) (log : List (List H)) :
    ∃ t' log', build combine m fuel i t log = some (t', log') ∧ Done combine m M t' 0 ∧ ∀ v, a ≤ v → t' v = t v := by
  have hm : 0 < m := by have := hs.two_le; omega
  induction fuel generalizing i t log with
  | zero =>
    obtain rfl : i = 0 := by omega
    exact ⟨t, log, rfl, hd, fun _ _ => rfl⟩
  | succ fuel ih =>
    by_cases hi : i ≤ 1
    · obtain rfl : i = 0 := by omega
      exact ⟨t, log, rfl, hd, fun _ _ => rfl⟩
    have hi1 : 1 ≤ i := by omega
    have hle := first_le hi1 (m := m)
    have hparent := hs.parents i hi1 hM
    obtain ⟨b, hb⟩ := exists_block_of_done hs hM hleaf hd
    have hkeep : ∀ v, a ≤ v → update t (parent m i) (some (combine b)) v = t v :=
      fun v hv => update_of_ne (by omega) _ _
    -- the next block ends at a multiple of `m`, which is not 1
    have hnext : first m i - 1 ≠ 1 := by
      intro h1
      have := Nat.eq_one_of_mul_eq_one_left h1
      have := hs.two_le
      omega
    obtain ⟨t', log', hbuild, hdone, hsame⟩ := ih (i := first m i - 1) (by omega) isEnd_first (by omega) hnext
      (fun v hv hvM => by rw [hkeep v hv]; exact hleaf v hv hvM) (hd.step hm he hi1 hM hb) (b :: log)
    refine ⟨t', log', ?_, hdone, fun v hv => by rw [hsame v hv, hkeep v hv]⟩
    rw [build, if_neg hi, if_neg (by omega), hb]
    exact hbuild

theorem build_of_le {v : Nat} {log log' : List (List H)} (h : build combine m fuel i t log = some (t', log'))
    (hv : i ≤ v) : t' v = t v := by
  induction fuel generalizing i t log with
  | zero =>
    cases h
    rfl
  | succ fuel ih =>
    rw [build] at h
    split at h
    · cases h
      rfl
    split at h
    · cases h
    split at h
    · cases h
    have hle := first_le (m := m) (j := i) (by omega)
    have hlt := parent_lt (m := m) (j := i) (by omega)
    exact (ih h (by omega)).trans (update_of_ne (by omega) ..)

/-- A value that was there before, or is combined from a block of the list. -/
def FromLog (combine : List H → H) (P : H → Prop) (log : List (List H)) (x : H) : Prop :=
  P x ∨ ∃ b ∈ log, x = combine b

/-- What is in the array, and what was combined, comes from the leaves and from the blocks combined. -/
structure Logged (combine : List H → H) (P : H → Prop) (t : Nat → Option H) (log : List (List H)) : Prop where
  nodes : ∀ v x, t v = some x → FromLog combine P log x
  blocks : ∀ b ∈ log, ∀ x ∈ b, FromLog combine P log x

theorem FromLog.mono {x : H} (h : FromLog combine P log x) (b : List H) : FromLog combine P (b :: log) x :=
  h.imp_right fun ⟨b', hb', hx⟩ => ⟨b', mem_cons_of_mem _ hb', hx⟩

/-- What is in the array is a leaf or combined from what was there. -/
theorem build_log {log log' : List (List H)}
    (hl : Logged combine P t log) (h : build combine m fuel i t log = some (t', log')) : Logged combine P t' log' := by
  induction fuel generalizing i t log with
  | zero =>
    cases h
    exact hl
  | succ fuel ih =>
    rw [build] at h
    split at h
    · cases h
      exact hl
    split at h
    · cases h
    split at h
    · cases h
    rename_i b hb
    refine ih ⟨fun v x hx => ?_, fun b' hb' x hx => ?_⟩ h
    · by_cases hv : v = parent m i
      · rw [hv, update_self, Option.some.injEq] at hx
        exact .inr ⟨b, mem_cons_self, hx.symm⟩
      · rw [update_of_ne hv] at hx
        exact (hl.nodes v x hx).mono b
    · refine FromLog.mono ?_ b
      rcases mem_cons.mp hb' with rfl | hb'
      · obtain ⟨k, hk, hget⟩ := mem_iff_getElem.mp hx
        have hget' := getElem?_block hb (length_block hb ▸ hk)
        rw [getElem?_eq_getElem hk, hget] at hget'
        exact hl.nodes _ x hget'.symm
      · exact hl.blocks b' hb' x hx

end HeapTree
