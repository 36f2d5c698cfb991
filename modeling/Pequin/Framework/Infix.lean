import Mathlib.Algebra.Order.Ring.Int
import Mathlib.Data.List.Nodup
import Mathlib.Logic.Function.Iterate

/-!
# Formulas in infix notation

A conjunction binds tighter than a disjunction, so a disjunction that is part of a conjunction is written in
parentheses; `Formula.paren` is a formula that is in parentheses anyway.

Written from left to right a formula is a `Line`: its atoms with the parentheses that open before and close after each,
and the connectives between them. `Line.exec` evaluates a line with a stack of what is known of each open parenthesis,
and gives the value of the formula (`Formula.value_exec_line`).
-/

namespace Infix

open Bool Function List

variable {α β : Type*} {v v' : α → Bool}

inductive Conn where
  | and
  | or
  deriving DecidableEq, Repr

inductive Formula (α : Type*) where
  | atom (a : α)
  | paren (c : Formula α)
  | and (l r : Formula α)
  | or (l r : Formula α)
  deriving DecidableEq, Repr

namespace Formula

def eval (v : α → Bool) : Formula α → Bool
  | atom a => v a
  | paren c => c.eval v
  | and l r => l.eval v && r.eval v
  | or l r => l.eval v || r.eval v

def atoms : Formula α → List α
  | atom a => [a]
  | paren c => c.atoms
  | and l r => l.atoms ++ r.atoms
  | or l r => l.atoms ++ r.atoms

def map (f : α → β) : Formula α → Formula β
  | atom a => atom (f a)
  | paren c => paren (c.map f)
  | and l r => and (l.map f) (r.map f)
  | or l r => or (l.map f) (r.map f)

def isOr : Formula α → Bool
  | or _ _ => true
  | _ => false

variable {c : Formula α} {a : α}

theorem eval_congr (h : ∀ a ∈ c.atoms, v a = v' a) : c.eval v = c.eval v' := by
  induction c with
  | atom a => exact h a (by simp [atoms])
  | paren c ih => exact ih h
  | and l r ihl ihr | or l r ihl ihr =>
    simp only [atoms, mem_append] at h
    simp only [eval, ihl fun a ha => h a (.inl ha), ihr fun a ha => h a (.inr ha)]

theorem eval_map (f : α → β) (v : β → Bool) (c : Formula α) : (c.map f).eval v = c.eval (v ∘ f) := by
  induction c with
  | atom a => rfl
  | paren c ih => exact ih
  | and l r ihl ihr | or l r ihl ihr => simp only [map, eval, ihl, ihr]

theorem atoms_map (f : α → β) (c : Formula α) : (c.map f).atoms = c.atoms.map f := by
  induction c with
  | atom a => rfl
  | paren c ih => exact ih
  | and l r ihl ihr | or l r ihl ihr => rw [map, atoms, ihl, ihr, atoms, map_append]

theorem map_map {γ : Type*} (g : β → γ) (f : α → β) (c : Formula α) : (c.map f).map g = c.map (g ∘ f) := by
  induction c with
  | atom a => rfl
  | paren c ih => rw [map, map, ih, map]
  | and l r ihl ihr | or l r ihl ihr => rw [map, map, ihl, ihr, map]

theorem eval_const (b : Bool) : c.eval (fun _ => b) = b := by
  induction c with
  | atom a => rfl
  | paren c ih => exact ih
  | and l r ihl ihr | or l r ihl ihr => simp only [eval, ihl, ihr, Bool.and_self, Bool.or_self]

theorem eval_mono (h : ∀ a, v a = true → v' a = true) (hv : c.eval v = true) : c.eval v' = true := by
  induction c with
  | atom a => exact h a hv
  | paren c ih => exact ih hv
  | and l r ihl ihr =>
    simp only [eval, and_eq_true] at hv ⊢
    exact ⟨ihl hv.1, ihr hv.2⟩
  | or l r ihl ihr =>
    simp only [eval, or_eq_true] at hv ⊢
    exact hv.imp ihl ihr

section Sensitivity

variable [DecidableEq α]

/-- A valuation of one part of a formula, and a constant for all other atoms. -/
def within (c : Formula α) (v : α → Bool) (b : Bool) (a : α) : Bool := if a ∈ c.atoms then v a else b

theorem eval_update_within (ha : a ∈ c.atoms) (b b' : Bool) :
    c.eval (update (c.within v b) a b') = c.eval (update v a b') := by
  apply eval_congr
  intro a' ha'
  by_cases h : a' = a
  · subst h
    simp only [update_self]
  · simp only [update_of_ne h, within, if_pos ha']

theorem eval_update_within_of_disjoint {c d : Formula α} (ha : a ∈ c.atoms) (h : ∀ a ∈ d.atoms, a ∉ c.atoms)
    (b b' : Bool) : d.eval (update (c.within v b) a b') = b := by
  refine (eval_congr fun a' ha' => ?_).trans (eval_const b)
  have hne : a' ≠ a := fun heq => h a' ha' (heq ▸ ha)
  simp only [update_of_ne hne, within, if_neg (h a' ha')]

/-- The value of a formula depends on each of its atoms, if they are distinct. -/
theorem exists_eval_update (hc : c.atoms.Nodup) (ha : a ∈ c.atoms) : ∃ v, ∀ b, c.eval (update v a b) = b := by
  induction c with
  | atom a' =>
    rw [atoms, mem_singleton] at ha
    exact ⟨fun _ => false, fun b => by simp only [eval, ha, update_self]⟩
  | paren c ih => exact ih hc ha
  | and l r ihl ihr =>
    obtain ⟨hl, hr, hdisj⟩ := nodup_append'.mp hc
    rcases mem_append.mp ha with hal | har
    · obtain ⟨v, hv⟩ := ihl hl hal
      refine ⟨l.within v true, fun b => ?_⟩
      rw [eval, eval_update_within hal, hv, eval_update_within_of_disjoint hal fun a h h' => hdisj h' h, Bool.and_true]
    · obtain ⟨v, hv⟩ := ihr hr har
      refine ⟨r.within v true, fun b => ?_⟩
      rw [eval, eval_update_within har, hv, eval_update_within_of_disjoint har fun a h h' => hdisj h h', Bool.true_and]
  | or l r ihl ihr =>
    obtain ⟨hl, hr, hdisj⟩ := nodup_append'.mp hc
    rcases mem_append.mp ha with hal | har
    · obtain ⟨v, hv⟩ := ihl hl hal
      refine ⟨l.within v false, fun b => ?_⟩
      rw [eval, eval_update_within hal, hv, eval_update_within_of_disjoint hal fun a h h' => hdisj h' h, Bool.or_false]
    · obtain ⟨v, hv⟩ := ihr hr har
      refine ⟨r.within v false, fun b => ?_⟩
      rw [eval, eval_update_within har, hv, eval_update_within_of_disjoint har fun a h h' => hdisj h h', Bool.false_or]

end Sensitivity

end Formula

/-- An atom, the parentheses that open before it and those that close after it. -/
structure Item (α : Type*) where
  opens : Nat
  atom : α
  closes : Nat
  deriving DecidableEq, Repr

inductive Line (α : Type*) where
  | last (x : Item α)
  | link (x : Item α) (op : Conn) (rest : Line α)
  deriving DecidableEq, Repr

namespace Line

def head : Line α → Item α
  | last x => x
  | link x _ _ => x

def atoms : Line α → List α
  | last x => [x.atom]
  | link x _ rest => x.atom :: rest.atoms

def append : Line α → Conn → Line α → Line α
  | last x, op, l => link x op l
  | link x op' rest, op, l => link x op' (rest.append op l)

def opening : Line α → Line α
  | last x => last { x with opens := x.opens + 1 }
  | link x op rest => link { x with opens := x.opens + 1 } op rest

def closing : Line α → Line α
  | last x => last { x with closes := x.closes + 1 }
  | link x op rest => link x op rest.closing

def paren (l : Line α) : Line α := l.closing.opening

def map (f : α → β) : Line α → Line β
  | last x => last ⟨x.opens, f x.atom, x.closes⟩
  | link x op rest => link ⟨x.opens, f x.atom, x.closes⟩ op (rest.map f)

@[simp]
theorem atoms_append (l : Line α) (op : Conn) (l' : Line α) : (l.append op l').atoms = l.atoms ++ l'.atoms := by
  induction l with
  | last x => rfl
  | link x op' rest ih => simp only [append, atoms, ih, cons_append]

@[simp]
theorem atoms_opening (l : Line α) : l.opening.atoms = l.atoms := by cases l <;> rfl

@[simp]
theorem atoms_closing (l : Line α) : l.closing.atoms = l.atoms := by
  induction l with
  | last x => rfl
  | link x op rest ih => simp only [closing, atoms, ih]

@[simp]
theorem atoms_paren (l : Line α) : l.paren.atoms = l.atoms := by rw [paren, atoms_opening, atoms_closing]

theorem map_append (f : α → β) (l : Line α) (op : Conn) (l' : Line α) :
    (l.append op l').map f = (l.map f).append op (l'.map f) := by
  induction l with
  | last x => rfl
  | link x op' rest ih => simp only [append, map, ih]

theorem map_closing (f : α → β) (l : Line α) : l.closing.map f = (l.map f).closing := by
  induction l with
  | last x => rfl
  | link x op rest ih => simp only [closing, map, ih]

theorem map_paren (f : α → β) (l : Line α) : l.paren.map f = (l.map f).paren := by
  rw [paren, paren, ← map_closing]
  cases l.closing <;> rfl

end Line

/-- A formula, written from left to right. -/
def Formula.line : Formula α → Line α
  | atom a => .last ⟨0, a, 0⟩
  | paren c => c.line.paren
  | and l r =>
    (if l.isOr then l.line.paren else l.line).append .and (if r.isOr then r.line.paren else r.line)
  | or l r => l.line.append .or r.line

theorem Formula.atoms_line (c : Formula α) : c.line.atoms = c.atoms := by
  induction c with
  | atom a => rfl
  | paren c ih => rw [line, Line.atoms_paren, ih, atoms]
  | and l r ihl ihr =>
    have hl : (if l.isOr then l.line.paren else l.line).atoms = l.atoms := by split <;> simp [ihl]
    have hr : (if r.isOr then r.line.paren else r.line).atoms = r.atoms := by split <;> simp [ihr]
    rw [line, Line.atoms_append, hl, hr, atoms]
  | or l r ihl ihr => rw [line, Line.atoms_append, ihl, ihr, atoms]

theorem Formula.isOr_map (f : α → β) (c : Formula α) : (c.map f).isOr = c.isOr := by cases c <;> rfl

theorem Formula.line_map (f : α → β) (c : Formula α) : (c.map f).line = c.line.map f := by
  induction c with
  | atom a => rfl
  | paren c ih => rw [map, line, ih, line, Line.map_paren]
  | and l r ihl ihr =>
    rw [map, line, line, Line.map_append, isOr_map, isOr_map, ihl, ihr]
    split <;> split <;> simp only [Line.map_paren]
  | or l r ihl ihr => rw [map, line, line, Line.map_append, ihl, ihr]

/-- What is known of a parenthesis that is open: the value of its disjuncts so far, and that of the conjuncts of the
current one. -/
abbrev Frame := Bool × Bool

abbrev Stack := List Frame

namespace Stack

def enter (s : Stack) : Stack := (false, true) :: s

def leave : Stack → Stack
  | f :: g :: s => (g.1, g.2 && (f.1 || f.2)) :: s
  | s => s

/-- A conjunct. -/
def meet (b : Bool) : Stack → Stack
  | f :: s => (f.1, f.2 && b) :: s
  | [] => []

def turn : Conn → Stack → Stack
  | .or, f :: s => (f.1 || f.2, true) :: s
  | _, s => s

/-- The value if all parentheses are closed. -/
def value : Stack → Bool
  | [] => true
  | f :: s => s.foldl (fun b g => g.1 || g.2 && b) (f.1 || f.2)

theorem value_leave (s : Stack) : value (leave s) = value s := by
  match s with
  | [] => rfl
  | [_] => rfl
  | _ :: _ :: _ => rfl

theorem value_leave_iterate (n : Nat) (s : Stack) : value (leave^[n] s) = value s := by
  induction n generalizing s with
  | zero => rfl
  | succ n ih => rw [iterate_succ_apply, ih, value_leave]

end Stack

open Stack

def Item.exec (v : α → Bool) (x : Item α) (s : Stack) : Stack :=
  leave^[x.closes] (meet (v x.atom) (enter^[x.opens] s))

namespace Line

def exec (v : α → Bool) : Line α → Stack → Stack
  | last x, s => x.exec v s
  | link x op rest, s => rest.exec v (turn op (x.exec v s))

variable (v)

theorem exec_append (l : Line α) (op : Conn) (l' : Line α) (s : Stack) :
    (l.append op l').exec v s = l'.exec v (turn op (l.exec v s)) := by
  induction l generalizing s with
  | last x => rfl
  | link x op' rest ih => exact ih _

theorem exec_opening (l : Line α) (s : Stack) : l.opening.exec v s = l.exec v (enter s) := by
  cases l <;> rfl

theorem exec_closing (l : Line α) (s : Stack) : l.closing.exec v s = leave (l.exec v s) := by
  induction l generalizing s with
  | last x => exact iterate_succ_apply' _ _ _
  | link x op rest ih => exact ih _

theorem exec_paren (l : Line α) (s : Stack) : l.paren.exec v s = leave (l.exec v (enter s)) := by
  rw [paren, exec_opening, exec_closing]

theorem exec_congr {v v' : α → Bool} {l : Line α} (h : ∀ a ∈ l.atoms, v a = v' a) (s : Stack) :
    l.exec v s = l.exec v' s := by
  induction l generalizing s with
  | last x => simp only [exec, Item.exec, h x.atom (by simp [atoms])]
  | link x op rest ih =>
    simp only [exec, Item.exec, h x.atom (by simp [atoms])]
    exact ih (fun a ha => h a (mem_cons_of_mem _ ha)) _

end Line

/-- A line that is the next conjunct of the parenthesis it is in. -/
def Line.IsConjunct (v : α → Bool) (l : Line α) (b : Bool) : Prop :=
  ∀ f s, l.exec v (f :: s) = (f.1, f.2 && b) :: s

/-- A line that is a disjunct, or some, of the parenthesis it is in. -/
def Line.IsDisjunct (v : α → Bool) (l : Line α) (b : Bool) : Prop :=
  ∀ o s, ∃ f : Frame, l.exec v ((o, true) :: s) = f :: s ∧ (f.1 || f.2) = (o || b)

namespace Line

variable {l l' : Line α} {b b' : Bool}

theorem IsConjunct.isDisjunct (h : l.IsConjunct v b) : l.IsDisjunct v b :=
  fun _ _ => ⟨_, h _ _, by rw [Bool.true_and]⟩

theorem IsDisjunct.paren (h : l.IsDisjunct v b) : l.paren.IsConjunct v b := by
  intro f s
  obtain ⟨g, hg, hval⟩ := h false (f :: s)
  rw [exec_paren, enter, hg, leave, hval, Bool.false_or]

theorem IsConjunct.append (h : l.IsConjunct v b) (h' : l'.IsConjunct v b') :
    (l.append .and l').IsConjunct v (b && b') := by
  intro f s
  rw [exec_append, h]
  show l'.exec v ((f.1, f.2 && b) :: s) = _
  rw [h', Bool.and_assoc]

theorem IsDisjunct.append (h : l.IsDisjunct v b) (h' : l'.IsDisjunct v b') :
    (l.append .or l').IsDisjunct v (b || b') := by
  intro o s
  obtain ⟨f, hf, hfval⟩ := h o s
  obtain ⟨g, hg, hgval⟩ := h' (f.1 || f.2) s
  refine ⟨g, ?_, ?_⟩
  · rw [exec_append, hf, turn, hg]
  · rw [hgval, hfval, Bool.or_assoc]

end Line

namespace Formula

theorem isConjunct_line (c : Formula α) :
    (c.isOr = false → c.line.IsConjunct v (c.eval v)) ∧ c.line.IsDisjunct v (c.eval v) := by
  have of_isConjunct {c : Formula α} (h : c.line.IsConjunct v (c.eval v)) :
      (c.isOr = false → c.line.IsConjunct v (c.eval v)) ∧ c.line.IsDisjunct v (c.eval v) :=
    ⟨fun _ => h, h.isDisjunct⟩
  have factor {c : Formula α}
      (ih : (c.isOr = false → c.line.IsConjunct v (c.eval v)) ∧ c.line.IsDisjunct v (c.eval v)) :
      (if c.isOr then c.line.paren else c.line).IsConjunct v (c.eval v) := by
    by_cases h : c.isOr = true
    · rw [if_pos h]
      exact ih.2.paren
    · rw [if_neg h]
      exact ih.1 (by simpa using h)
  induction c with
  | atom a => exact of_isConjunct fun f s => rfl
  | paren c ih => exact of_isConjunct ih.2.paren
  | and l r ihl ihr => exact of_isConjunct ((factor ihl).append (factor ihr))
  | or l r ihl ihr => exact ⟨nofun, ihl.2.append ihr.2⟩

theorem value_exec_line (c : Formula α) : value (c.line.exec v [(false, true)]) = c.eval v := by
  obtain ⟨f, hf, hval⟩ := c.isConjunct_line.2 false []
  rw [hf]
  exact hval

end Formula

end Infix
