import Pequin.Proof.ConditionReading

/-!
# The value of a condition that is read as a whole
-/

namespace Pequin.Sql

open Bool Function Infix Line List Stack

variable {α : Type*} {s : Stack} {v : α → Bool} {l rest : Line α} {x : Item α} {d : Nat} {curr : Bool}

/-- No parenthesis that is open has a disjunct yet. -/
def Plain (s : Stack) : Prop := ∀ f ∈ s, f.1 = false

def conjuncts (s : Stack) : Bool := s.all (·.2)

section Stacks

variable {os t : Stack} {f : Frame}

theorem foldl_plain (hs : Plain s) (b : Bool) : s.foldl (fun b g => g.1 || g.2 && b) b = (b && conjuncts s) := by
  induction s generalizing b with
  | nil => simp [conjuncts]
  | cons f s ih =>
    rw [foldl_cons, hs f (by simp), Bool.false_or, ih fun g hg => hs g (mem_cons_of_mem _ hg)]
    rw [Bool.and_comm f.2 b, Bool.and_assoc]
    rfl

theorem value_cons (hs : Plain s) : value (f :: s) = ((f.1 || f.2) && conjuncts s) := foldl_plain hs _

theorem value_plain (hs : Plain s) (hne : s ≠ []) : value s = conjuncts s := by
  obtain ⟨f, s, rfl⟩ := exists_cons_of_ne_nil hne
  rw [value_cons fun g hg => hs g (mem_cons_of_mem _ hg), hs f (by simp), Bool.false_or]
  rfl

theorem enter_iterate (k : Nat) (s : Stack) : Stack.enter^[k] s = List.replicate k (false, true) ++ s := by
  induction k with
  | zero => rfl
  | succ k ih => rw [iterate_succ_apply', ih, Stack.enter, replicate_succ, cons_append]

theorem plain_enter_iterate (k : Nat) (hs : Plain s) : Plain (Stack.enter^[k] s) := by
  rw [enter_iterate]
  intro f hf
  rcases mem_append.mp hf with hf | hf
  · rw [eq_of_mem_replicate hf]
  · exact hs f hf

theorem conjuncts_enter_iterate (k : Nat) (s : Stack) : conjuncts (Stack.enter^[k] s) = conjuncts s := by
  rw [enter_iterate, conjuncts, all_append]
  simp [conjuncts]

theorem plain_leave (hs : Plain s) : Plain (Stack.leave s) := by
  match s with
  | [] => exact hs
  | [_] => exact hs
  | f :: g :: s =>
    intro h hh
    rcases mem_cons.mp hh with rfl | hh
    · exact hs g (by simp)
    · exact hs h (by simp [hh])

theorem leave_ne_nil (hs : s ≠ []) : Stack.leave s ≠ [] := by
  match s with
  | [_] => exact hs
  | _ :: _ :: _ => exact cons_ne_nil _ _

theorem plain_leave_iterate (k : Nat) (hs : Plain s) (hne : s ≠ []) :
    Plain (Stack.leave^[k] s) ∧ Stack.leave^[k] s ≠ [] := by
  induction k generalizing s with
  | zero => exact ⟨hs, hne⟩
  | succ k ih => exact ih (plain_leave hs) (leave_ne_nil hne)

theorem exec_plain (hs : Plain s) (hne : s ≠ []) :
    Plain (x.exec v s) ∧ x.exec v s ≠ [] ∧ value (x.exec v s) = (conjuncts s && v x.atom) := by
  have hplain := plain_enter_iterate x.opens hs
  have hconj := conjuncts_enter_iterate x.opens s
  have hne' : Stack.enter^[x.opens] s ≠ [] := by
    rw [enter_iterate]
    exact append_ne_nil_of_right_ne_nil _ hne
  obtain ⟨f, u, hu⟩ := exists_cons_of_ne_nil hne'
  rw [hu] at hplain hconj
  have hmeet : Plain (Stack.meet (v x.atom) (f :: u)) := by
    intro g hg
    rcases mem_cons.mp hg with rfl | hg
    · exact hplain f (by simp)
    · exact hplain g (mem_cons_of_mem _ hg)
  have hleave := plain_leave_iterate x.closes hmeet (cons_ne_nil _ _)
  rw [Item.exec, hu]
  refine ⟨hleave.1, hleave.2, ?_⟩
  rw [value_leave_iterate, value_plain hmeet (cons_ne_nil _ _), ← hconj]
  simp [Stack.meet, conjuncts, Bool.and_right_comm]

theorem leave_iterate (os : Stack) (n : Nat) (hn : n ≤ t.length) (ht : ∀ g ∈ t, g.2 = true) :
    ∃ f' t', Stack.leave^[n] (f :: (t ++ os)) = f' :: (t' ++ os) ∧ (∀ g ∈ t', g.2 = true) ∧ t'.length + n = t.length ∧
      (f'.1 || f'.2 || t'.any (·.1)) = (f.1 || f.2 || t.any (·.1)) := by
  induction n generalizing f t with
  | zero => exact ⟨f, t, rfl, ht, rfl, rfl⟩
  | succ n ih =>
    cases t with
    | nil => cases hn
    | cons g t =>
      rw [length_cons] at hn
      obtain ⟨f', t', hleave, ht', hlength, hany⟩ :=
        ih (f := (g.1, g.2 && (f.1 || f.2))) (t := t) (by omega)
          fun h hh => ht h (mem_cons_of_mem _ hh)
      refine ⟨f', t', hleave, ht', ?_, ?_⟩
      · rw [length_cons, ← hlength]
        omega
      · rw [hany, ht g (by simp), any_cons]
        cases g.1 <;> cases f.1 <;> cases f.2 <;> simp

theorem value_append (ht : ∀ g ∈ t, g.2 = true) (hos : Plain os) :
    value (f :: (t ++ os)) = ((f.1 || f.2 || t.any (·.1)) && conjuncts os) := by
  have hfold (b : Bool) : t.foldl (fun b g => g.1 || g.2 && b) b = (b || t.any (·.1)) := by
    induction t generalizing b with
    | nil => simp
    | cons g t ih =>
      rw [foldl_cons, ht g (by simp), Bool.true_and, ih fun h hh => ht h (mem_cons_of_mem _ hh),
        any_cons, or_comm g.1 b, Bool.or_assoc]
  show (t ++ os).foldl _ _ = _
  rw [foldl_append, hfold, foldl_plain hos]

/-- A comparison among the last disjuncts: of the parentheses `t` around it, one stays open. -/
theorem exec_disjunct (ht : ∀ g ∈ t, g.2 = true) (hne : t ≠ [])
    (hcloses : x.closes < t.length + x.opens) : ∃ f t', x.exec v (t ++ os) = f :: (t' ++ os) ∧ (∀ g ∈ t', g.2 = true) ∧
      t'.length + 1 + x.closes = t.length + x.opens ∧ (f.1 || f.2 || t'.any (·.1)) = (t.any (·.1) || v x.atom) := by
  have ht' : ∀ g ∈ List.replicate x.opens (false, true) ++ t, g.2 = true := by
    intro g hg
    rcases mem_append.mp hg with hg | hg
    · rw [eq_of_mem_replicate hg]
    · exact ht g hg
  have hlength : (List.replicate x.opens (false, true) ++ t).length = t.length + x.opens := by
    rw [length_append, length_replicate, Nat.add_comm]
  have hany : (List.replicate x.opens (false, true) ++ t).any (·.1) = t.any (·.1) := by simp
  obtain ⟨g, u, hu⟩ := exists_cons_of_ne_nil
    (append_ne_nil_of_right_ne_nil (List.replicate x.opens (false, true)) hne)
  rw [Item.exec, enter_iterate, ← append_assoc]
  rw [hu] at ht' hlength hany ⊢
  rw [length_cons] at hlength
  obtain ⟨f, t', hleave, htrue, hlength', hval⟩ := leave_iterate (f := (g.1, g.2 && v x.atom)) os x.closes
    (by omega) fun h hh => ht' h (mem_cons_of_mem _ hh)
  refine ⟨f, t', hleave, htrue, by omega, ?_⟩
  rw [hval, ht' g (by simp), ← hany, any_cons]
  cases g.1 <;> cases v x.atom <;> simp

end Stacks

theorem value_exec_item : value (x.exec v s) = value ({ x with closes := 0 }.exec v s) := value_leave_iterate _ _

theorem value_exec_disjuncts {t os : Stack} (hand : afterAnd l = none) (ht : ∀ g ∈ t, g.2 = true) (hne : t ≠ [])
    (hos : Plain os) (henc : encloses (t.length + l.head.opens) l = true) :
    value (l.exec v (t ++ os)) = (conjuncts os && (t.any (·.1) || l.atoms.any v)) := by
  induction l generalizing t with
  | last x =>
    obtain ⟨f, t', hexec, ht', -, hval⟩ := exec_disjunct (v := v) (x := { x with closes := 0 }) ht hne
      (Nat.add_pos_left (length_pos_of_ne_nil hne) _)
    rw [exec, value_exec_item, hexec, value_append ht' hos, hval, Bool.and_comm]
    simp [atoms]
  | link x conn rest ih =>
    cases conn with
    | and => cases hand
    | or =>
      rw [encloses, and_eq_true, decide_eq_true_eq] at henc
      obtain ⟨f, t', hexec, ht', hlength, hval⟩ := exec_disjunct (v := v) ht hne henc.1
      rw [exec, hexec]
      show value (rest.exec v (((f.1 || f.2, true) :: t') ++ os)) = _
      rw [ih hand (by simpa using ht') (cons_ne_nil _ _), any_cons, hval, atoms, any_cons, Bool.or_assoc]
      rw [length_cons, show t'.length + 1 = t.length + x.opens - x.closes by omega]
      exact henc.2

/-- What is open before a part of a line: `curr` are the conjuncts since the last parenthesis, `before` the others, and
`d` parentheses opened between. -/
structure Standing (d : Nat) (curr before : Bool) (s : Stack) : Prop where
  plain : Plain s
  ne_nil : s ≠ []
  conj : conjuncts s = (before && curr)
  enclosed (k : Nat) (h : d = k + 1) :
    ∃ os, s = (false, curr) :: (List.replicate k (false, true) ++ os) ∧ Plain os ∧ conjuncts os = before

theorem meet_enter_iterate (b : Bool) (k : Nat) :
    Stack.meet b (Stack.enter^[k + 1] s) = (false, b) :: (List.replicate k (false, true) ++ s) := by
  rw [enter_iterate, replicate_succ, cons_append]
  rfl

theorem value_exec_clause {k : Nat} {b : Bool} {s os : Stack} (hand : afterAnd rest = none)
    (hx : Stack.meet (v x.atom) (Stack.enter^[x.opens] s) = (false, b) :: (List.replicate k (false, true) ++ os))
    (hos : Plain os) (henc : encloses (k + 1) (.link x .or rest) = true) :
    value ((link x .or rest).exec v s) = (conjuncts os && (b || rest.atoms.any v)) := by
  rw [encloses, and_eq_true, decide_eq_true_eq] at henc
  have htrue : ∀ g ∈ List.replicate k (false, true), g.2 = true := fun g hg => by rw [eq_of_mem_replicate hg]
  obtain ⟨f, t, hleave, ht, hlength, hval⟩ := leave_iterate (f := (false, b)) os x.closes
    (by rw [length_replicate]; omega) htrue
  rw [length_replicate] at hlength
  rw [exec, Item.exec, hx, hleave]
  show value (rest.exec v (((f.1 || f.2, true) :: t) ++ os)) = _
  rw [value_exec_disjuncts hand (by simpa using ht) (cons_ne_nil _ _) hos, any_cons, hval]
  · simp
  · rw [length_cons, show t.length + 1 = k + 1 - x.closes by omega]
    exact henc.2

section Standing

variable {before : Bool}

theorem Standing.closes (h : Standing d curr before s) :
    Standing 0 true (before && (curr && v x.atom)) (x.exec v s) := by
  obtain ⟨hplain, hne, hval⟩ := exec_plain (v := v) (x := x) h.plain h.ne_nil
  refine ⟨hplain, hne, ?_, nofun⟩
  rw [← value_plain hplain hne, hval, h.conj, Bool.and_true, Bool.and_assoc]

theorem Standing.opens (h : Standing d curr before s) {k : Nat} (hopens : x.opens = k + 1) (hcloses : x.closes = 0) :
    Standing (k + 1) (v x.atom) (before && curr) (x.exec v s) := by
  obtain ⟨hplain, hne, hval⟩ := exec_plain (v := v) (x := x) h.plain h.ne_nil
  refine ⟨hplain, hne, ?_, fun k' hk' => ⟨s, ?_, h.plain, h.conj⟩⟩
  · rw [← value_plain hplain hne, hval, h.conj]
  · cases hk'
    rw [Item.exec, hcloses, hopens]
    exact meet_enter_iterate _ _

theorem Standing.meet (h : Standing d curr before s) (hopens : x.opens = 0) (hcloses : x.closes = 0) :
    Standing d (curr && v x.atom) before (x.exec v s) := by
  obtain ⟨hplain, hne, hval⟩ := exec_plain (v := v) (x := x) h.plain h.ne_nil
  refine ⟨hplain, hne, ?_, fun k hk => ?_⟩
  · rw [← value_plain hplain hne, hval, h.conj, Bool.and_assoc]
  · obtain ⟨os, rfl, hos, hbefore⟩ := h.enclosed k hk
    refine ⟨os, ?_, hos, hbefore⟩
    rw [Item.exec, hopens, hcloses]
    rfl

end Standing

theorem bound_and :
    bound d (.link x .and rest) = bound (if 0 < x.closes then 0 else if 0 < x.opens then x.opens else d) rest := rfl

theorem bound_clause (hand : (afterAnd rest).isSome) :
    bound d (.link x .or rest) = bound (if 0 < x.closes then 0 else if 0 < x.opens then x.opens else d) rest := by
  rw [bound, afterAnd, if_pos hand]

theorem bound_or (hand : afterAnd rest = none) :
    bound d (.link x .or rest) = encloses (if 0 < x.opens then x.opens else d) (.link x .or rest) := by
  rw [bound, if_neg (by simp [afterAnd, hand])]

theorem Standing.of_clause {o : Bool} {k : Nat} (hopens : x.opens = 0) (hcloses : 0 < x.closes)
    (hs : Plain s) (hne : s ≠ []) : Standing 0 true (conjuncts s && (o || v x.atom))
      (x.exec v ((o, true) :: (List.replicate k (false, true) ++ s))) := by
  have hplain := plain_enter_iterate k hs
  have hconj := conjuncts_enter_iterate k s
  rw [enter_iterate] at hplain hconj
  obtain ⟨g, u, hu⟩ := exists_cons_of_ne_nil (append_ne_nil_of_right_ne_nil
    (List.replicate k (false, true)) hne)
  rw [hu] at hplain hconj
  obtain ⟨n, hn⟩ := Nat.exists_eq_succ_of_ne_zero (Nat.pos_iff_ne_zero.mp hcloses)
  have hleave : Plain ((g.1, g.2 && (o || v x.atom)) :: u) := by
    intro h hh
    rcases mem_cons.mp hh with rfl | hh
    · exact hplain g (by simp)
    · exact hplain h (mem_cons_of_mem _ hh)
  have hexec : x.exec v ((o, true) :: (List.replicate k (false, true) ++ s)) =
      Stack.leave^[n] ((g.1, g.2 && (o || v x.atom)) :: u) := by
    rw [Item.exec, hopens, hn, hu, iterate_succ_apply]
    rfl
  obtain ⟨hplain', hne'⟩ := plain_leave_iterate n hleave (cons_ne_nil _ _)
  rw [hexec]
  refine ⟨hplain', hne', ?_, fun _ hd => by cases hd⟩
  rw [← value_plain hplain' hne', value_leave_iterate, value_plain hleave (cons_ne_nil _ _), ← hconj]
  simp [conjuncts, Bool.and_right_comm]

/-- The value of a line that is read as a whole, if the last clause is bound to the conjuncts before it. -/
theorem value_exec_eq_conjoin :
    (∀ d curr before s, complete false l = true → bound d l = true → Standing d curr before s →
      value (l.exec v s) = (before && conjoin v false l curr)) ∧
    (∀ d o k s, complete true l = true → (afterAnd l).isSome → bound d l = true → Plain s → s ≠ [] →
      value (l.exec v ((o, true) :: (List.replicate k (false, true) ++ s))) = (conjuncts s && conjoin v true l o)) := by
  induction l with
  | last x =>
    refine ⟨fun d curr before s _ _ hs => ?_, nofun⟩
    rw [exec, (exec_plain hs.plain hs.ne_nil).2.2, hs.conj, conjoin, Bool.and_assoc]
  | link x conn rest ih =>
    cases conn with
    | and =>
      constructor
      · intro d curr before s hcomplete hbound hs
        simp only [complete, and_eq_true, or_eq_true, decide_eq_true_eq] at hcomplete
        rw [bound_and] at hbound
        rw [conjoin, exec]
        show value (rest.exec v (x.exec v s)) = _
        split_ifs at hbound ⊢ with hcloses hopens
        · rw [ih.1 _ _ _ _ hcomplete.2 hbound hs.closes]
          simp only [Bool.and_assoc]
        · obtain ⟨k, hk⟩ := Nat.exists_eq_succ_of_ne_zero (Nat.pos_iff_ne_zero.mp hopens)
          rw [hk] at hbound
          rw [ih.1 _ _ _ _ hcomplete.2 hbound (hs.opens hk (by omega)), Bool.and_assoc]
        · exact ih.1 _ _ _ _ hcomplete.2 hbound (hs.meet (by omega) (by omega))
      · intro d o k s hcomplete _ hbound hs hne
        simp only [complete, and_eq_true, decide_eq_true_eq] at hcomplete
        rw [bound_and] at hbound
        rw [if_pos hcomplete.1.2] at hbound
        rw [conjoin, exec]
        show value (rest.exec v (x.exec v _)) = _
        rw [ih.1 _ _ _ _ hcomplete.2 hbound (.of_clause hcomplete.1.1 hcomplete.1.2 hs hne), Bool.and_assoc]
    | or =>
      constructor
      · intro d curr before s hcomplete hbound hs
        rw [complete] at hcomplete
        rw [conjoin]
        split_ifs at hcomplete ⊢ with hand hopens
        · simp only [and_eq_true, decide_eq_true_eq] at hcomplete
          obtain ⟨k, hk⟩ := Nat.exists_eq_succ_of_ne_zero (Nat.pos_iff_ne_zero.mp hcomplete.1.1)
          have hexec : x.exec v s = (false, v x.atom) :: (List.replicate k (false, true) ++ s) := by
            rw [Item.exec, hcomplete.1.2, hk]
            exact meet_enter_iterate _ _
          rw [exec, hexec]
          show value (rest.exec v ((v x.atom, true) :: (List.replicate k (false, true) ++ s))) = _
          rw [ih.2 _ _ _ _ hcomplete.2 hand (bound_clause hand ▸ hbound) hs.plain hs.ne_nil, hs.conj, Bool.and_assoc]
        · have hand' : afterAnd rest = none := by simpa using hand
          have henc := bound_or hand' ▸ hbound
          obtain ⟨k, hk⟩ := Nat.exists_eq_succ_of_ne_zero (Nat.pos_iff_ne_zero.mp hopens)
          rw [if_pos hopens, hk] at henc
          rw [value_exec_clause hand' (by rw [hk]; exact meet_enter_iterate _ _) hs.plain henc, hs.conj, Bool.and_assoc]
        · have hand' : afterAnd rest = none := by simpa using hand
          have henc := bound_or hand' ▸ hbound
          rw [if_neg hopens] at henc
          have hd : 0 < d := by
            rw [encloses, and_eq_true, decide_eq_true_eq] at henc
            omega
          obtain ⟨k, rfl⟩ := Nat.exists_eq_succ_of_ne_zero (Nat.pos_iff_ne_zero.mp hd)
          obtain ⟨os, rfl, hos, hbefore⟩ := hs.enclosed k rfl
          rw [value_exec_clause (b := curr && v x.atom) hand' _ hos henc, hbefore]
          rw [Nat.eq_zero_of_not_pos hopens]
          rfl
      · intro d o k s hcomplete hand hbound hs hne
        rw [afterAnd] at hand
        simp only [complete, and_eq_true, decide_eq_true_eq] at hcomplete
        have hexec : x.exec v ((o, true) :: (List.replicate k (false, true) ++ s)) =
            (o, v x.atom) :: (List.replicate k (false, true) ++ s) := by
          rw [Item.exec, hcomplete.1.1, hcomplete.1.2]
          rfl
        rw [conjoin, exec, hexec]
        exact ih.2 _ _ _ _ hcomplete.2 hand (bound_clause hand ▸ hbound) hs hne

/-! ## A last clause that escapes -/

/-- No parenthesis that is open is false already, other than the last but `d`. -/
def LiveBut (d : Nat) (s : Stack) : Prop := ∀ i f, s[i]? = some f → i ≠ d → (f.1 || f.2) = true

def Live (s : Stack) : Prop := ∀ f ∈ s, (f.1 || f.2) = true

theorem Live.value (hs : Live s) : value s = true := by
  have hfold {s : Stack} (hs : Live s) : s.foldl (fun b g => g.1 || g.2 && b) true = true := by
    induction s with
    | nil => rfl
    | cons f s ih =>
      rw [foldl_cons, Bool.and_true, hs f (by simp)]
      exact ih fun g hg => hs g (mem_cons_of_mem _ hg)
  cases s with
  | nil => rfl
  | cons f s =>
    show s.foldl _ _ = true
    rw [hs f (by simp)]
    exact hfold fun g hg => hs g (mem_cons_of_mem _ hg)

theorem LiveBut.enter (hs : LiveBut d s) : LiveBut (d + 1) (Stack.enter s) := by
  intro i f hf hi
  cases i with
  | zero =>
    cases hf
    rfl
  | succ i => exact hs i f hf (by omega)

theorem LiveBut.meet (hs : LiveBut d s) : LiveBut d (Stack.meet true s) := by
  cases s with
  | nil => exact hs
  | cons g s =>
    rw [Stack.meet, Bool.and_true]
    exact hs

theorem LiveBut.meet_zero (hs : LiveBut 0 s) (b : Bool) : LiveBut 0 (Stack.meet b s) := by
  cases s with
  | nil => exact hs
  | cons g s =>
    intro i f hf hi
    cases i with
    | zero => exact absurd rfl hi
    | succ i => exact hs (i + 1) f hf hi

theorem LiveBut.leave (hs : LiveBut d s) : LiveBut (d - 1) (Stack.leave s) := by
  match s with
  | [] => exact fun i f hf => by cases hf
  | [g] =>
    intro i f hf hi
    cases i with
    | zero => exact hs 0 f hf (by omega)
    | succ i => cases hf
  | g :: g' :: s =>
    intro i f hf hi
    cases i with
    | zero =>
      cases hf
      have hg := hs 0 g rfl (by omega)
      have hg' := hs 1 g' rfl (by omega)
      rw [hg, Bool.and_true]
      exact hg'
    | succ i => exact hs (i + 2) f hf (by omega)

theorem LiveBut.turn (hs : LiveBut d s) (conn : Conn) : LiveBut d (Stack.turn conn s) := by
  cases conn with
  | and => cases s <;> exact hs
  | or =>
    cases s with
    | nil => exact hs
    | cons g s =>
      intro i f hf hi
      cases i with
      | zero =>
        cases hf
        exact or_true _
      | succ i => exact hs (i + 1) f hf hi

theorem LiveBut.turn_or (hs : LiveBut 0 s) : Live (Stack.turn .or s) := by
  cases s with
  | nil => nofun
  | cons g s =>
    intro f hf
    obtain ⟨i, hi⟩ := mem_iff_getElem?.mp hf
    cases i with
    | zero =>
      cases hi
      exact or_true _
    | succ i => exact hs (i + 1) f hi (by omega)

theorem Live.liveBut (hs : Live s) (d : Nat) : LiveBut d s :=
  fun _ f hf _ => hs f (mem_of_getElem? hf)

theorem LiveBut.live (hs : LiveBut d s) (hd : s.length ≤ d) : Live s := by
  intro f hf
  obtain ⟨i, hi, rfl⟩ := mem_iff_getElem.mp hf
  exact hs i _ (List.getElem?_eq_getElem hi) (by omega)

theorem LiveBut.enter_iterate (hs : LiveBut d s) (k : Nat) : LiveBut (d + k) (Stack.enter^[k] s) := by
  induction k with
  | zero => exact hs
  | succ k ih =>
    rw [iterate_succ_apply']
    exact ih.enter

theorem LiveBut.leave_iterate (hs : LiveBut d s) (k : Nat) : LiveBut (d - k) (Stack.leave^[k] s) := by
  induction k with
  | zero => exact hs
  | succ k ih =>
    rw [iterate_succ_apply', ← Nat.sub_sub]
    exact ih.leave

theorem LiveBut.exec (hs : LiveBut d s) (hx : v x.atom = true) : LiveBut (d + x.opens - x.closes) (x.exec v s) := by
  rw [Item.exec, hx]
  exact (hs.enter_iterate x.opens).meet.leave_iterate x.closes

theorem Live.exec (hs : Live s) (hx : v x.atom = true) : Live (x.exec v s) :=
  ((hs.liveBut ((x.exec v s).length + x.closes)).exec hx).live (by omega)

theorem Live.exec_zero (hs : Live s) : LiveBut 0 (x.exec v s) := by
  have henter : Live (Stack.enter^[x.opens] s) :=
    ((hs.liveBut (Stack.enter^[x.opens] s).length).enter_iterate x.opens).live (Nat.le_add_right _ _)
  have hleave := ((henter.liveBut 0).meet_zero (v x.atom)).leave_iterate x.closes
  rwa [Nat.zero_sub] at hleave

theorem Live.turn (hs : Live s) (conn : Conn) : Live (Stack.turn conn s) :=
  ((hs.liveBut (Stack.turn conn s).length).turn conn).live le_rfl

theorem Live.exec_line (hs : Live s) : Live (l.exec (fun _ => true) s) := by
  induction l generalizing s with
  | last x => exact hs.exec rfl
  | link x conn rest ih => exact ih ((hs.exec rfl).turn conn)

section Escape

variable {v' : α → Bool}

theorem conjoin_congr {m : Bool} (h : ∀ a ∈ l.atoms, v a = v' a) : conjoin v m l curr = conjoin v' m l curr := by
  induction l generalizing m curr with
  | last x => cases m <;> simp only [conjoin, h x.atom (by simp [atoms])]
  | link x conn rest ih =>
    have hx : v x.atom = v' x.atom := h x.atom (by simp [atoms])
    have hrest : ∀ a ∈ rest.atoms, v a = v' a := fun a ha => h a (mem_cons_of_mem _ ha)
    have hany : rest.atoms.any v = rest.atoms.any v' := by
      rw [Bool.eq_iff_iff, any_eq_true, any_eq_true]
      exact exists_congr fun a => and_congr_right fun ha => by rw [hrest a ha]
    cases m <;> cases conn <;> simp only [conjoin, hx, hany, ih hrest]

/-- With all comparisons true, the value is true even if the last parenthesis but `d` is false. -/
def Escapes (d : Nat) (l : Line α) : Prop := ∀ s, LiveBut d s → Stack.value (l.exec (fun _ => true) s) = true

/-- For some comparisons the value is true, but read as false. -/
def Breaks (m : Bool) (l : Line α) (curr : Bool) : Prop :=
  ∃ v, (∀ s, Live s → Stack.value (l.exec v s) = true) ∧ conjoin v m l curr = false

theorem escapes_of_encloses (hand : afterAnd l = none) (h : encloses (d + l.head.opens) l = false) : Escapes d l := by
  induction l generalizing d with
  | last x => cases h
  | link x conn rest ih =>
    cases conn with
    | and => cases hand
    | or =>
      intro s hs
      have hx := hs.exec (v := fun _ => true) (x := x) rfl
      by_cases hcloses : x.closes < d + x.opens
      · refine ih hand ?_ _ (hx.turn .or)
        rw [encloses, and_eq_false_iff, decide_eq_false_iff_not] at h
        exact h.resolve_left fun h => h hcloses
      · rw [Nat.sub_eq_zero_of_le (by omega)] at hx
        exact hx.turn_or.exec_line.value

variable [DecidableEq α]

theorem update_of_mem {as : List α} {p a : α} (hp : p ∉ as) (ha : a ∈ as) (b : Bool) : update v p b a = v a :=
  update_of_ne (fun heq : a = p => hp (heq ▸ ha)) _ _

section

variable (hx : x.atom ∉ rest.atoms) {m : Bool}
include hx

theorem exec_update {conn : Conn} (v : α → Bool) (b : Bool) (s : Stack) :
    (link x conn rest).exec (update v x.atom b) s = rest.exec v (Stack.turn conn (x.exec (update v x.atom b) s)) :=
  exec_congr (l := rest) (fun _ ha => update_of_mem hx ha _) _

theorem conjoin_update (v : α → Bool) (b : Bool)
    (curr : Bool) : conjoin (update v x.atom b) m rest curr = conjoin v m rest curr :=
  conjoin_congr (fun _ ha => update_of_mem hx ha _)

theorem breaks_clause {o : Bool} (h : Breaks true rest o) (hcurr : ∀ v, v x.atom = o → conjoin v true rest o = false →
    conjoin v m (.link x .or rest) curr = false) : Breaks m (.link x .or rest) curr := by
  obtain ⟨v, hv, hread⟩ := h
  refine ⟨update v x.atom o, fun s hs => ?_, hcurr _ (update_self _ _ _) ?_⟩
  · rw [exec_update hx]
    exact hv _ hs.exec_zero.turn_or
  · rw [conjoin_update hx, hread]

theorem breaks_and (h : Breaks false rest true) (hcurr : ∀ v, v x.atom = true → conjoin v false rest true = false →
    conjoin v m (.link x .and rest) curr = false) : Breaks m (.link x .and rest) curr := by
  obtain ⟨v, hv, hread⟩ := h
  refine ⟨update v x.atom true, fun s hs => ?_, hcurr _ (update_self _ _ _) ?_⟩
  · rw [exec_update hx]
    exact hv _ ((hs.exec (update_self _ _ _)).turn .and)
  · rw [conjoin_update hx, hread]

theorem breaks_of_escapes (h : Escapes 0 rest) (hcurr : ∀ v, v x.atom = false → (∀ a ∈ rest.atoms, v a = true) →
    conjoin v m (.link x .and rest) curr = false) : Breaks m (.link x .and rest) curr := by
  refine ⟨update (fun _ => true) x.atom false, fun s hs => ?_, hcurr _ (update_self _ _ _) ?_⟩
  · rw [exec_update hx]
    exact h _ (hs.exec_zero.turn .and)
  · exact fun a ha => update_of_mem hx ha _

end

/-- A last clause that is not bound escapes from what is before the line, or the line is read wrongly for some
comparisons. -/
theorem escapes_or_breaks (hl : l.atoms.Nodup) : (∀ d, complete false l = true → bound d l = false →
      Escapes d l ∨ (Escapes 0 l ∧ conjoin (fun _ => true) false l false = false) ∨ Breaks false l true) ∧
    (∀ d, complete true l = true → (afterAnd l).isSome → bound d l = false → ∃ o, Breaks true l o) := by
  induction l with
  | last x => exact ⟨nofun, nofun⟩
  | link x conn rest ih =>
    obtain ⟨hx, hrest⟩ := nodup_cons.mp hl
    have ih := ih hrest
    cases conn with
    | and =>
      constructor
      · intro d hcomplete hbound
        simp only [complete, and_eq_true, or_eq_true, decide_eq_true_eq] at hcomplete
        rw [bound_and] at hbound
        have hbreaks (h : Breaks false rest true) : Breaks false (.link x .and rest) true :=
          breaks_and hx h fun v hvx hread => by
            simp only [conjoin, hvx, Bool.true_and, hread, ite_self]
        split_ifs at hbound with hcloses hopens
        · -- What is before the line is no matter: `x` can be false itself.
          have hescapes (h : Escapes 0 rest) : Breaks false (.link x .and rest) true :=
            breaks_of_escapes hx h fun v hvx _ => by rw [conjoin, if_pos hcloses, hvx]; rfl
          rcases ih.1 0 hcomplete.2 hbound with h | ⟨h, -⟩ | h
          · exact .inr (.inr (hescapes h))
          · exact .inr (.inr (hescapes h))
          · exact .inr (.inr (hbreaks h))
        · rcases ih.1 _ hcomplete.2 hbound with h | ⟨h, hread⟩ | h
          · -- The parentheses before `x` are those that close too early.
            refine .inr (.inl ⟨fun s hs => h _ ?_, ?_⟩)
            · have hexec := (hs.exec (v := fun _ => true) (x := x) rfl).turn .and
              rwa [Nat.zero_add, show x.closes = 0 by omega, Nat.sub_zero] at hexec
            · rw [conjoin, if_neg hcloses, if_pos hopens]
              rfl
          · refine .inr (.inr (breaks_of_escapes hx h fun v hvx hv => ?_))
            rw [conjoin, if_neg hcloses, if_pos hopens, hvx, conjoin_congr hv, hread]
            rfl
          · exact .inr (.inr (hbreaks h))
        · rcases ih.1 _ hcomplete.2 hbound with h | ⟨h, hread⟩ | h
          · refine .inl fun s hs => h _ ?_
            have hexec := (hs.exec (v := fun _ => true) (x := x) rfl).turn .and
            rwa [show x.opens = 0 by omega, show x.closes = 0 by omega, Nat.sub_zero] at hexec
          · refine .inr (.inr (breaks_of_escapes hx h fun v hvx hv => ?_))
            rw [conjoin, if_neg hcloses, if_neg hopens, hvx, conjoin_congr hv]
            exact hread
          · exact .inr (.inr (hbreaks h))
      · intro d hcomplete _ hbound
        simp only [complete, and_eq_true, decide_eq_true_eq] at hcomplete
        rw [bound_and, if_pos hcomplete.1.2] at hbound
        have hescapes (h : Escapes 0 rest) : Breaks true (.link x .and rest) false :=
          breaks_of_escapes hx h fun v hvx _ => by rw [conjoin, hvx]; rfl
        rcases ih.1 0 hcomplete.2 hbound with h | ⟨h, -⟩ | h
        · exact ⟨false, hescapes h⟩
        · exact ⟨false, hescapes h⟩
        · exact ⟨true, breaks_and hx h fun v _ hread => by rw [conjoin, hread, Bool.and_false]⟩
    | or =>
      constructor
      · intro d hcomplete hbound
        rw [complete] at hcomplete
        split_ifs at hcomplete with hand
        · simp only [and_eq_true, decide_eq_true_eq] at hcomplete
          rw [bound_clause hand] at hbound
          obtain ⟨o, h⟩ := ih.2 _ hcomplete.2 hand hbound
          refine .inr (.inr (breaks_clause hx h fun v hvx hread => ?_))
          rw [conjoin, if_pos hand, hvx, hread]
          rfl
        · have hand' : afterAnd rest = none := by simpa using hand
          rw [bound_or hand'] at hbound
          split_ifs at hbound with hopens
          · refine .inr (.inl ⟨escapes_of_encloses (l := .link x .or rest) hand' ?_, ?_⟩)
            · rw [Nat.zero_add]
              exact hbound
            · rw [conjoin, if_neg hand, if_pos hopens]
              rfl
          · refine .inl (escapes_of_encloses (l := .link x .or rest) hand' ?_)
            show encloses (d + x.opens) _ = false
            rw [show x.opens = 0 by omega]
            exact hbound
      · intro d hcomplete hand hbound
        rw [afterAnd] at hand
        simp only [complete, and_eq_true, decide_eq_true_eq] at hcomplete
        rw [bound_clause hand] at hbound
        obtain ⟨o, h⟩ := ih.2 _ hcomplete.2 hand hbound
        exact ⟨o, breaks_clause hx h fun v hvx hread => by rw [conjoin, hvx, Bool.or_self, hread]⟩

end Escape

section Condition

variable {c : Formula α}

theorem afterAnd_closing : afterAnd l.closing = (afterAnd l).map closing := by
  induction l with
  | last x => rfl
  | link x conn rest ih =>
    cases conn with
    | and => rfl
    | or => exact ih

theorem complete_closing (m : Bool) : complete m l.closing = complete m l := by
  induction l generalizing m with
  | last x => cases m <;> rfl
  | link x conn rest ih =>
    cases m <;> cases conn <;> simp only [closing, complete, afterAnd_closing, Option.isSome_map, ih]

theorem complete_opening (h : complete false l = true) : complete false l.opening = true := by
  cases l with
  | last x => rfl
  | link x conn rest =>
    cases conn with
    | and => simp_all [opening, complete]
    | or =>
      rw [complete] at h
      rw [opening, complete]
      split_ifs at h ⊢ <;> simp_all

theorem complete_paren (h : complete false l = true) : complete false l.paren = true :=
  complete_opening (by rw [complete_closing, h])

theorem conjoin_closing (m : Bool) : conjoin v m l.closing curr = conjoin v m l curr := by
  induction l generalizing m curr with
  | last x => cases m <;> rfl
  | link x conn rest ih =>
    cases m <;> cases conn <;>
      simp only [closing, conjoin, afterAnd_closing, Option.isSome_map, ih, atoms_closing]

theorem conjoin_opening : conjoin v false l.opening true = conjoin v false l true := by
  cases l with
  | last x => rfl
  | link x conn rest =>
    cases conn <;> simp only [opening, conjoin, Bool.true_and, Nat.succ_pos, ite_self]

theorem conjoin_paren : conjoin v false l.paren true = conjoin v false l true := by
  rw [paren, conjoin_opening, conjoin_closing]

theorem read_of_readable {seg : List α → Option Bool} (hc : Readable c) (hseg : ∀ a ∈ c.atoms, seg [a] = some (v a)) :
    read seg c.line = some (c.eval v) := by
  have hreads := (readsAs_of_complete (l := c.line) (by rwa [c.atoms_line])).1 hc.1
  have hstanding : Standing 0 true true [(false, true)] :=
    ⟨by simp [Plain], cons_ne_nil _ _, rfl, nofun⟩
  have hvalue := (value_exec_eq_conjoin (v := v)).1 0 true true _ (complete_paren hc.1) hc.2 hstanding
  rw [hreads.read, ← conjoin_paren, ← Bool.true_and (conjoin _ _ _ _), ← hvalue]
  exact congrArg some (Formula.value_exec_line (.paren c))

/-- The value of comparisons that are taken for one, if it is that of the first one. -/
def segOf (v : α → Bool) : List α → Option Bool
  | [] => none
  | a :: _ => some (v a)

theorem readable_of_read [DecidableEq α] (hc : c.atoms.Nodup) (h : ∀ v, read (segOf v) c.line = some (c.eval v)) :
    Readable c := by
  have hl : c.line.atoms.Nodup := by rwa [c.atoms_line]
  have hcomplete : complete false c.line = true := by
    by_contra hcomplete
    obtain ⟨p, hp, hunread⟩ := exists_unread hl (by simpa using hcomplete)
    obtain ⟨v, hv⟩ := Formula.exists_eval_update hc (c.atoms_line ▸ hp)
    have hagree : AgreeOff p (segOf (update v p true)) (segOf (update v p false)) := by
      intro a ha as
      rw [segOf, segOf, update_of_ne ha, update_of_ne ha]
    have hread := (hunread hagree).read
    rw [h, h, hv, hv] at hread
    cases hread
  refine ⟨hcomplete, ?_⟩
  by_contra hbound
  have hl' : c.line.paren.atoms.Nodup := by rwa [atoms_paren]
  -- The whole condition is in parentheses, so nothing escapes from it.
  have hescapes : ¬ Escapes 0 c.line.paren := by
    intro hescapes
    have hvalue := hescapes [(false, false)] fun i f hf hi => by
      cases i with
      | zero => exact absurd rfl hi
      | succ i => cases hf
    rw [(Formula.isConjunct_line c).2.paren] at hvalue
    cases hvalue
  rcases (escapes_or_breaks hl').1 0 (complete_paren hcomplete) (by simpa using hbound) with h' | ⟨h', -⟩ |
    ⟨v, hv, hread⟩
  · exact hescapes h'
  · exact hescapes h'
  · have htrue := hv [(false, true)] (by simp [Live])
    have hreads : ReadsAs (segOf v) v c.line := (readsAs_of_complete fun a _ => rfl).1 hcomplete
    rw [conjoin_paren] at hread
    rw [show c.line.paren.exec v _ = (Formula.paren c).line.exec v _ from rfl, Formula.value_exec_line] at htrue
    have heval := (h v).symm.trans hreads.read
    rw [hread, show c.eval v = true from htrue] at heval
    cases heval

end Condition

end Pequin.Sql
