import Pequin.Framework.Infix
import Pequin.Model.SqlInterpreter

/-!
# How the interpreter reads a condition
-/

namespace Pequin.Sql

open Infix Line List Option

variable {conn : Conn} {α : Type*} {seg : List α → Option Bool} {x : Item α} {l rest r : Line α}

/-! ## The parts of a line that are searched for -/

def afterAnd : Line α → Option (Line α)
  | .last _ => none
  | .link _ .and rest => some rest
  | .link _ .or rest => afterAnd rest

def afterOp (l : Line α) : Option (Op × Line α) :=
  match afterAnd l, l with
  | some rest, _ => some (.and, rest)
  | none, .link _ _ rest => some (.or, rest)
  | none, .last _ => none

def opOf : Conn → Op
  | .and => .and
  | .or => .or

theorem afterOp_next (h : conn = .or → afterAnd rest = none) :
    afterOp (.link x conn rest) = some (opOf conn, rest) := by
  cases conn with
  | and => rfl
  | or =>
    unfold afterOp
    rw [afterAnd, h rfl]
    rfl

theorem afterOp_clause (h : afterAnd rest = some r) : afterOp (.link x .or rest) = some (.and, r) := by
  unfold afterOp
  rw [afterAnd, h]

/-- What a line has first: an `AND`, with the comparisons before it, or a parenthesis. -/
inductive Ahead (α : Type*) where
  | and (seg : List α) (rest : Line α)
  | opening (rest : Line α)
  | stop

def ahead : Line α → Ahead α
  | .last x => if 0 < x.opens then .opening (.last x) else .stop
  | .link x op rest =>
    if 0 < x.opens then .opening (.link x op rest)
    else if 0 < x.closes then .stop
    else
      match op with
      | .and => .and [x.atom] rest
      | .or =>
        match ahead rest with
        | .and seg rest => .and (x.atom :: seg) rest
        | next => next

theorem afterAnd_eq_some (h : afterAnd l = some rest) : ∃ as, l.atoms = l.head.atom :: (as ++ rest.atoms) := by
  induction l with
  | last x => cases h
  | link x op r ih =>
    cases op with
    | and =>
      cases h
      exact ⟨[], rfl⟩
    | or =>
      obtain ⟨as, has⟩ := ih h
      exact ⟨r.head.atom :: as, congrArg (x.atom :: ·) has⟩

theorem length_afterOp {op : Op} (h : afterOp l = some (op, rest)) : rest.atoms.length < l.atoms.length := by
  unfold afterOp at h
  split at h
  · rename_i hand
    cases h
    obtain ⟨as, has⟩ := afterAnd_eq_some hand
    simp only [has, length_cons, length_append]
    omega
  · cases h
    exact Nat.lt_succ_self _
  · cases h

theorem ahead_and {seg : List α} (h : ahead l = .and seg rest) :
    afterAnd l = some rest ∧ ∃ as, seg = l.head.atom :: as ∧ l.atoms = l.head.atom :: (as ++ rest.atoms) := by
  induction l generalizing seg with
  | last x =>
    rw [ahead] at h
    split at h <;> cases h
  | link x op r ih =>
    simp only [ahead] at h
    split_ifs at h
    cases op with
    | and =>
      cases h
      exact ⟨rfl, [], rfl, rfl⟩
    | or =>
      simp only at h
      split at h
      · rename_i seg' rest' hr
        cases h
        obtain ⟨hand, as, rfl, hatoms⟩ := ih hr
        exact ⟨hand, _, rfl, congrArg (x.atom :: ·) hatoms⟩
      · rename_i hne
        exact absurd h (hne seg rest)

theorem ahead_opening (h : ahead l = .opening rest) :
    afterAnd rest = afterAnd l ∧ 0 < rest.head.opens ∧ ∃ as, l.atoms = as ++ rest.atoms := by
  induction l with
  | last x =>
    rw [ahead] at h
    split_ifs at h with hopen
    cases h
    exact ⟨rfl, hopen, [], rfl⟩
  | link x op r ih =>
    simp only [ahead] at h
    split_ifs at h with hopen
    · cases h
      exact ⟨rfl, hopen, [], rfl⟩
    cases op with
    | and => cases h
    | or =>
      simp only at h
      split at h
      · cases h
      · obtain ⟨hand, hopen', as, has⟩ := ih h
        exact ⟨hand, hopen', x.atom :: as, congrArg (x.atom :: ·) has⟩

mutual

/-- How `EvalCond` reads a line. `seg` is the value of comparisons that are taken for one. -/
def read (seg : List α → Option Bool) (l : Line α) : Option Bool :=
  (readLoop seg l .start false).bind fun cond =>
    if l.head.opens = 0 then some cond
    else
      match _h : afterOp l with
      | none => some cond
      | some (op, rest) => (read seg rest).bind (combine op cond)
termination_by (l.atoms.length, 1)
decreasing_by
  · exact Prod.Lex.right _ (by omega)
  · exact Prod.Lex.left _ _ (length_afterOp _h)

/-- How the loop of the base case reads a line, after its first parentheses. -/
def readLoop (seg : List α → Option Bool) (l : Line α) (op : Op) (curr : Bool) : Option Bool :=
  match l with
  | .last x => (seg [x.atom]).bind (combine op curr)
  | .link x conn rest =>
    if 0 < x.closes then (seg [x.atom]).bind (combine op curr)
    else
      match conn with
      | .and => ((seg [x.atom]).bind (combine op curr)).bind (readRest seg rest .and)
      | .or =>
        match _h : ahead rest with
        | .and as rest' => ((seg (x.atom :: as)).bind (combine op curr)).bind (readRest seg rest' .and)
        | .opening rest' =>
          if (afterAnd rest').isSome then (read seg rest').bind (combine op curr)
          else ((seg [x.atom]).bind (combine op curr)).bind (readRest seg rest .or)
        | .stop => ((seg [x.atom]).bind (combine op curr)).bind (readRest seg rest .or)
termination_by (l.atoms.length, 0)
decreasing_by
  all_goals apply Prod.Lex.left
  all_goals simp only [atoms, length_cons]
  · omega
  · obtain ⟨-, as, -, has⟩ := ahead_and _h
    simp only [has, length_cons, length_append]
    omega
  · obtain ⟨-, -, as, has⟩ := ahead_opening _h
    simp only [has, length_append]
    omega
  · omega
  · omega

def readRest (seg : List α → Option Bool) (l : Line α) (op : Op) (curr : Bool) : Option Bool :=
  if 0 < l.head.opens then (read seg l).bind (combine op curr) else readLoop seg l op curr
termination_by (l.atoms.length, 2)
decreasing_by
  · exact Prod.Lex.right _ (by omega)
  · exact Prod.Lex.right _ (by omega)

end

section Equations

variable {op : Op} {curr cond : Bool}

theorem readLoop_last : readLoop seg (.last x) op curr = (seg [x.atom]).bind (combine op curr) := by
  rw [readLoop]

theorem readLoop_closes (h : 0 < x.closes) :
    readLoop seg (.link x conn rest) op curr = (seg [x.atom]).bind (combine op curr) := by
  cases conn <;> rw [readLoop, if_pos h]

theorem readLoop_or_and {as : List α} (h : x.closes = 0) (hrest : ahead rest = .and as r) :
    readLoop seg (.link x .or rest) op curr =
      ((seg (x.atom :: as)).bind (combine op curr)).bind (readRest seg r .and) := by
  rw [readLoop, if_neg (by omega)]
  split <;> simp_all

theorem readLoop_or_opening (h : x.closes = 0) (hrest : ahead rest = .opening r) (hr : (afterAnd r).isSome) :
    readLoop seg (.link x .or rest) op curr = (read seg r).bind (combine op curr) := by
  rw [readLoop, if_neg (by omega)]
  split <;> simp_all

theorem readLoop_or_stop (h : x.closes = 0) (hrest : ahead rest = .stop) : readLoop seg (.link x .or rest) op curr =
    ((seg [x.atom]).bind (combine op curr)).bind (readRest seg rest .or) := by
  rw [readLoop, if_neg (by omega)]
  split <;> simp_all

theorem readLoop_next (hconn : conn = .or → afterAnd rest = none) (h : x.closes = 0) :
    readLoop seg (.link x conn rest) op curr =
      ((seg [x.atom]).bind (combine op curr)).bind (readRest seg rest (opOf conn)) := by
  cases conn with
  | and => rw [readLoop, if_neg (by omega), opOf]
  | or =>
  have hrest := hconn rfl
  rw [readLoop, if_neg (by omega), opOf]
  split
  · rename_i hahead
    rw [(ahead_and hahead).1] at hrest
    cases hrest
  · rename_i hahead
    rw [(ahead_opening hahead).1, hrest]
    rfl
  · rfl

theorem readRest_of_opens (h : 0 < l.head.opens) : readRest seg l op curr = (read seg l).bind (combine op curr) := by
  rw [readRest, if_pos h]

theorem readRest_of_opens_eq_zero (h : l.head.opens = 0) : readRest seg l op curr = readLoop seg l op curr := by
  rw [readRest, if_neg (by omega)]

theorem read_of_opens_eq_zero (h : l.head.opens = 0) : read seg l = readLoop seg l .start false := by
  rw [read]
  simp [h]

def readAfter (seg : List α → Option Bool) (l : Line α) (cond : Bool) : Option Bool :=
  match afterOp l with
  | none => some cond
  | some (op, rest) => (read seg rest).bind (combine op cond)

theorem readAfter_of_none (h : afterOp l = none) : readAfter seg l cond = some cond := by
  rw [readAfter, h]

theorem readAfter_of_some (h : afterOp l = some (op, rest)) :
    readAfter seg l cond = (read seg rest).bind (combine op cond) := by
  rw [readAfter, h]

theorem read_of_opens (h : 0 < l.head.opens) : read seg l = (readLoop seg l .start false).bind (readAfter seg l) := by
  rw [read]
  congr 1
  funext cond
  rw [if_neg (by omega), readAfter]
  split <;> simp_all

end Equations

/-! ## What is read right -/

/-- Whether every comparison is read. A clause between two `AND`s is a single comparison or, as a whole, one disjunction
in parentheses, unless it is the last. Among the other comparisons, where parentheses close there are also some that
open. -/
def complete : Bool → Line α → Bool
  | _, .last _ => true
  | false, .link x .or rest =>
    if (afterAnd rest).isSome then 0 < x.opens && x.closes = 0 && complete true rest
    else (x.closes = 0 || 0 < x.opens) && complete false rest
  | false, .link x .and rest => (x.closes = 0 || 0 < x.opens) && complete false rest
  | true, .link x .or rest => x.opens = 0 && x.closes = 0 && complete true rest
  | true, .link x .and rest => x.opens = 0 && 0 < x.closes && complete false rest

/-- Whether one of the last `d` parentheses that are open stays so, up to the last comparison. -/
def encloses : Nat → Line α → Bool
  | _, .last _ => true
  | d, .link x _ rest => x.closes < d && encloses (d - x.closes + rest.head.opens) rest

/-- Whether a disjunction at the end stands in parentheses with the conjuncts before it, where `d` parentheses opened.
-/
def bound : Nat → Line α → Bool
  | _, .last _ => true
  | d, .link x op rest =>
    let d := if 0 < x.opens then x.opens else d
    if (afterAnd (.link x op rest)).isSome then bound (if 0 < x.closes then 0 else d) rest
    else encloses d (.link x op rest)

/-- The conditions that are read right. The whole condition counts as in parentheses. -/
def Readable (c : Formula α) : Prop := complete false c.line = true ∧ bound 0 c.line.paren = true
  deriving Decidable

/-! ## The value of a line that is read as a whole -/

/-- The value of a line that is read completely: `curr` is that of the conjuncts, or of the disjuncts of the clause. -/
def conjoin (v : α → Bool) : Bool → Line α → Bool → Bool
  | false, .last x, curr => curr && v x.atom
  | true, .last x, curr => curr || v x.atom
  | false, .link x .and rest, curr =>
    if 0 < x.closes then curr && (v x.atom && conjoin v false rest true)
    else if 0 < x.opens then curr && conjoin v false rest (v x.atom)
    else conjoin v false rest (curr && v x.atom)
  | false, .link x .or rest, curr =>
    if (afterAnd rest).isSome then curr && conjoin v true rest (v x.atom)
    else if 0 < x.opens then curr && (v x.atom || rest.atoms.any v)
    else curr && v x.atom || rest.atoms.any v
  | true, .link x .or rest, curr => conjoin v true rest (curr || v x.atom)
  | true, .link x .and rest, curr => (curr || v x.atom) && conjoin v false rest true

section Value

variable {v : α → Bool}

theorem conjoin_mono {curr : Bool} (h : conjoin v false l curr = true) : conjoin v false l true = true := by
  induction l generalizing curr with
  | last x => simp_all [conjoin]
  | link x op rest ih =>
    cases op with
    | and =>
      have ih' : conjoin v false rest (curr && v x.atom) = true → conjoin v false rest (v x.atom) = true := by
        cases v x.atom with
        | false => rw [Bool.and_false]; exact id
        | true => exact ih
      simp only [conjoin] at h ⊢
      split_ifs at h ⊢ <;> simp_all
    | or =>
      simp only [conjoin] at h ⊢
      split_ifs at h ⊢
      · simp_all
      · simp_all
      · rw [Bool.or_eq_true] at h ⊢
        exact h.imp_left fun h => by simp_all

theorem conjoin_and_conjoin (l : Line α) (curr : Bool) :
    (conjoin v false l curr && conjoin v false l true) = conjoin v false l curr := by
  cases h : conjoin v false l curr with
  | false => rfl
  | true => rw [conjoin_mono h, Bool.and_self]

theorem conjoin_of_afterAnd_eq_none (h : afterAnd l = none) : conjoin v false l true = l.atoms.any v := by
  cases l with
  | last x => simp [conjoin, atoms]
  | link x op rest =>
    cases op with
    | and => cases h
    | or =>
      rw [afterAnd] at h
      simp [conjoin, h, atoms]

theorem conjoin_of_opens (h : 0 < l.head.opens) (curr : Bool) :
    conjoin v false l curr = (curr && conjoin v false l true) := by
  cases l with
  | last x => simp [conjoin]
  | link x op rest =>
    cases op <;> simp only [conjoin] <;> split_ifs <;> simp_all [Line.head]

theorem ahead_of_complete (h : complete true l = true) (hand : (afterAnd l).isSome) : ahead l = .stop := by
  induction l with
  | last x => cases hand
  | link x op rest ih =>
    cases op <;> simp_all [complete, ahead, afterAnd]

theorem combine_start (curr : Bool) : combine .start curr = combine .and true := by
  funext b
  simp [combine]

theorem readLoop_start (l : Line α) (curr : Bool) : readLoop seg l .start curr = readLoop seg l .and true := by
  cases l with
  | last x => rw [readLoop_last, readLoop_last, combine_start]
  | link x op rest => cases op <;> rw [readLoop, readLoop, combine_start]

/-- A line is read as a whole, alone and after an `AND` or an `OR`. -/
structure ReadsAs (seg : List α → Option Bool) (v : α → Bool) (l : Line α) : Prop where
  read : read seg l = some (conjoin v false l true)
  and (curr : Bool) : readRest seg l .and curr = some (conjoin v false l curr)
  or (h : afterAnd l = none) (curr : Bool) : readRest seg l .or curr = some (curr || l.atoms.any v)

theorem ReadsAs.of_opens (h : 0 < l.head.opens) (hread : Sql.read seg l = some (conjoin v false l true)) :
    ReadsAs seg v l where
  read := hread
  and curr := by
    rw [readRest_of_opens h, hread, conjoin_of_opens h curr]
    rfl
  or hand curr := by
    rw [readRest_of_opens h, hread, conjoin_of_afterAnd_eq_none hand]
    rfl

theorem ReadsAs.of_loop (h : l.head.opens = 0) (hand : ∀ curr, readLoop seg l .and curr = some (conjoin v false l curr))
    (hor : afterAnd l = none → ∀ curr, readLoop seg l .or curr = some (curr || l.atoms.any v)) : ReadsAs seg v l where
  read := by rw [read_of_opens_eq_zero h, readLoop_start, hand]
  and curr := by rw [readRest_of_opens_eq_zero h, hand]
  or hnone curr := by rw [readRest_of_opens_eq_zero h, hor hnone]

section

variable (hx : seg [x.atom] = some (v x.atom))
include hx

theorem readsAs_last : ReadsAs seg v (.last x) := by
  have hloop (op : Op) (curr : Bool) : readLoop seg (.last x) op curr = combine op curr (v x.atom) := by
    rw [readLoop_last, hx, bind_some]
  rcases Nat.eq_zero_or_pos x.opens with hopens | hopens
  · exact .of_loop hopens (fun curr => hloop .and curr) fun _ curr => by
      rw [hloop, atoms, any_cons, any_nil, Bool.or_false]
      rfl
  · refine .of_opens hopens ?_
    rw [read_of_opens (l := .last x) hopens, hloop]
    rfl

theorem readsAs_and (hcloses : 0 < x.closes → 0 < x.opens)
    (hrest : ReadsAs seg v rest) : ReadsAs seg v (.link x .and rest) := by
  have hloop (curr : Bool) : readLoop seg (.link x .and rest) .and curr =
      some (if 0 < x.closes then curr && v x.atom else conjoin v false rest (curr && v x.atom)) := by
    split_ifs with h
    · rw [readLoop_closes h, hx]
      rfl
    · rw [readLoop_next (fun h : Conn.and = .or => nomatch h) (by omega), hx]
      exact hrest.and _
  rcases Nat.eq_zero_or_pos x.opens with hopens | hopens
  · refine .of_loop hopens (fun curr => ?_) nofun
    rw [hloop, conjoin, if_neg (by omega), if_neg (by omega), if_neg (by omega)]
  refine .of_opens hopens ?_
  rw [read_of_opens (l := .link x .and rest) hopens, readLoop_start, hloop, bind_some, readAfter_of_some rfl,
    hrest.read, bind_some, conjoin]
  split_ifs
  · rfl
  · exact congrArg some (conjoin_and_conjoin rest _)

theorem readsAs_or (hcloses : 0 < x.closes → 0 < x.opens)
    (hand : afterAnd rest = none) (hrest : ReadsAs seg v rest) : ReadsAs seg v (.link x .or rest) := by
  have hloop (op : Op) (curr b : Bool) (hb : combine op curr (v x.atom) = some b) :
      readLoop seg (.link x .or rest) op curr = some (if 0 < x.closes then b else b || rest.atoms.any v) := by
    split_ifs with h
    · rw [readLoop_closes h, hx, bind_some, hb]
    · rw [readLoop_next (fun _ => hand) (by omega), hx, bind_some, hb]
      exact hrest.or hand b
  rcases Nat.eq_zero_or_pos x.opens with hopens | hopens
  · refine .of_loop hopens (fun curr => ?_) fun _ curr => ?_
    · rw [hloop .and curr _ rfl, conjoin, hand, if_neg (by omega), if_neg (by simp), if_neg (by omega)]
    · rw [hloop .or curr _ rfl, if_neg (by omega), atoms, any_cons, Bool.or_assoc]
  · refine .of_opens hopens ?_
    rw [read_of_opens (l := .link x .or rest) hopens, readLoop_start, hloop .and true _ rfl, bind_some,
      readAfter_of_some (afterOp_next fun _ => hand), hrest.read, conjoin_of_afterAnd_eq_none hand,
      conjoin_of_afterAnd_eq_none (l := .link x .or rest) hand]
    split_ifs <;> simp [combine, opOf, atoms]

/-- A clause in parentheses: it is read up to where they close, and then what follows the `AND`. -/
theorem readsAs_clause {b : Bool}
    (hopens : 0 < x.opens) (hcloses : x.closes = 0) (hstop : ahead rest = .stop) (hand : afterAnd rest = some r)
    (hclause : ∀ curr, readRest seg rest .or curr = some (curr || b))
    (hval : ∀ curr, conjoin v true rest curr = ((curr || b) && conjoin v false r true)) (hr : ReadsAs seg v r) :
    ReadsAs seg v (.link x .or rest) := by
  refine .of_opens hopens ?_
  rw [read_of_opens (l := .link x .or rest) hopens, readLoop_start, readLoop_or_stop hcloses hstop, hx]
  show ((readRest seg rest .or (true && v x.atom)).bind _) = _
  rw [hclause, bind_some, readAfter_of_some (afterOp_clause hand), hr.read, conjoin, hand, if_pos isSome_some, hval]
  rfl

end

theorem readsAs_of_complete (hseg : ∀ a ∈ l.atoms, seg [a] = some (v a)) : (complete false l = true → ReadsAs seg v l) ∧
    (complete true l = true → ∀ r, afterAnd l = some r → ReadsAs seg v r ∧ ∃ b,
      (∀ curr, readRest seg l .or curr = some (curr || b)) ∧
      ∀ curr, conjoin v true l curr = ((curr || b) && conjoin v false r true)) := by
  induction l with
  | last x => exact ⟨fun _ => readsAs_last (hseg _ (by simp [atoms])), fun _ r h => by cases h⟩
  | link x op rest ih =>
    have hx : seg [x.atom] = some (v x.atom) := hseg _ (by simp [atoms])
    have ih := ih fun a ha => hseg a (mem_cons_of_mem _ ha)
    cases op with
    | and =>
      constructor
      · intro h
        simp only [complete, Bool.and_eq_true, Bool.or_eq_true, decide_eq_true_eq] at h
        exact readsAs_and hx (by omega) (ih.1 h.2)
      intro h r hr
      simp only [complete, Bool.and_eq_true, decide_eq_true_eq] at h
      cases hr
      refine ⟨ih.1 h.2, v x.atom, fun curr => ?_, fun curr => rfl⟩
      rw [readRest_of_opens_eq_zero (l := .link x .and rest) h.1.1, readLoop_closes h.1.2, hx]
      rfl
    | or =>
      constructor
      · intro h
        rw [complete] at h
        split_ifs at h with hand
        · simp only [Bool.and_eq_true, decide_eq_true_eq] at h
          obtain ⟨r, hr⟩ := isSome_iff_exists.mp hand
          obtain ⟨hreads, b, hb, hval⟩ := ih.2 h.2 r hr
          exact readsAs_clause hx h.1.1 h.1.2 (ahead_of_complete h.2 hand) hr hb hval hreads
        · simp only [Bool.and_eq_true, Bool.or_eq_true, decide_eq_true_eq] at h
          exact readsAs_or hx (by omega) (by simpa using hand) (ih.1 h.2)
      · intro h r hr
        simp only [complete, Bool.and_eq_true, decide_eq_true_eq] at h
        obtain ⟨hreads, b, hb, hval⟩ := ih.2 h.2 r hr
        refine ⟨hreads, v x.atom || b, fun curr => ?_, fun curr => ?_⟩
        · have hstop : ahead rest = .stop := ahead_of_complete h.2 (isSome_iff_exists.mpr ⟨r, hr⟩)
          rw [readRest_of_opens_eq_zero (l := .link x .or rest) h.1.1, readLoop_or_stop h.1.2 hstop, hx]
          show readRest seg rest .or (curr || v x.atom) = _
          rw [hb, Bool.or_assoc]
        · rw [conjoin, hval, Bool.or_assoc]

end Value

/-! ## Comparisons that are not read -/

section Unread

variable {seg' : List α → Option Bool} {p : α}

structure Agree (seg seg' : List α → Option Bool) (l : Line α) : Prop where
  read : read seg l = read seg' l
  loop (op : Op) (curr : Bool) : readLoop seg l op curr = readLoop seg' l op curr

theorem Agree.next (h : Agree seg seg' l) (op : Op) (curr : Bool) :
    readRest seg l op curr = readRest seg' l op curr := by
  rw [readRest, readRest, h.read, h.loop]

/-- After the loop, what follows the next operator is read if a parenthesis opens. -/
theorem Agree.of_loop (hloop : ∀ op curr, readLoop seg l op curr = readLoop seg' l op curr)
    (hread : ∀ op r, afterOp l = some (op, r) → 0 < l.head.opens → Sql.read seg r = Sql.read seg' r) :
    Agree seg seg' l := by
  refine ⟨?_, hloop⟩
  rcases Nat.eq_zero_or_pos l.head.opens with hopens | hopens
  · rw [read_of_opens_eq_zero hopens, read_of_opens_eq_zero hopens, hloop]
  rw [read_of_opens hopens, read_of_opens hopens, hloop]
  congr 1
  funext cond
  cases hop : afterOp l with
  | none => rw [readAfter_of_none hop, readAfter_of_none hop]
  | some opr =>
    rw [readAfter_of_some hop, readAfter_of_some hop, hread opr.1 opr.2 hop hopens]

theorem agree_link (hconn : conn = .or → afterAnd rest = none) (hx : seg [x.atom] = seg' [x.atom])
    (hrest : (0 < x.closes → 0 < x.opens) → Agree seg seg' rest) : Agree seg seg' (.link x conn rest) := by
  refine .of_loop (fun op curr => ?_) fun op r hop hopens => ?_
  · rcases Nat.eq_zero_or_pos x.closes with hcloses | hcloses
    · rw [readLoop_next hconn hcloses, readLoop_next hconn hcloses, hx]
      congr 1
      funext b
      exact (hrest (by omega)).next (opOf conn) b
    · rw [readLoop_closes hcloses, readLoop_closes hcloses, hx]
  · rw [afterOp_next hconn] at hop
    cases hop
    exact (hrest fun _ => hopens).read

theorem agree_clause (hand : afterAnd rest = some r)
    (hloop : ∀ op curr, readLoop seg (.link x .or rest) op curr = readLoop seg' (.link x .or rest) op curr)
    (hread : 0 < x.opens → Sql.read seg r = Sql.read seg' r) : Agree seg seg' (.link x .or rest) := by
  refine .of_loop hloop fun op r' hop hopens => ?_
  rw [afterOp_clause hand] at hop
  cases hop
  exact hread hopens

theorem agree_of_atoms (h : ∀ a ∈ l.atoms, ∀ as, seg (a :: as) = seg' (a :: as)) : Agree seg seg' l := by
  induction hn : l.atoms.length using Nat.strong_induction_on generalizing l with
  | _ n ih =>
    cases l with
    | last x =>
      refine .of_loop (fun op curr => ?_) nofun
      rw [readLoop_last, readLoop_last, h x.atom (by simp [atoms])]
    | link x conn rest =>
      subst hn
      have hx (as : List α) : seg (x.atom :: as) = seg' (x.atom :: as) := h x.atom (by simp [atoms]) as
      have hsuffix {l : Line α} (as : List α) (hl : rest.atoms = as ++ l.atoms) : Agree seg seg' l := by
        refine ih l.atoms.length ?_ (fun a ha => h a ?_) rfl
        · simp only [atoms, hl, length_cons, length_append]
          omega
        · simp [atoms, hl, ha]
      by_cases hconn : conn = .or → afterAnd rest = none
      · exact agree_link hconn (hx []) fun _ => hsuffix [] rfl
      obtain ⟨rfl, hand⟩ : conn = .or ∧ afterAnd rest ≠ none := by simpa using hconn
      obtain ⟨r, hr⟩ := ne_none_iff_exists'.mp hand
      obtain ⟨as, has⟩ := afterAnd_eq_some hr
      refine agree_clause hr (fun op curr => ?_) fun _ => (hsuffix (rest.head.atom :: as) has).read
      rcases Nat.eq_zero_or_pos x.closes with hcloses | hcloses
      · cases hahead : ahead rest with
        | and seg r' =>
          obtain ⟨-, as', rfl, has'⟩ := ahead_and hahead
          rw [readLoop_or_and hcloses hahead, readLoop_or_and hcloses hahead, hx]
          congr 1
          funext b
          exact (hsuffix (rest.head.atom :: as') has').next .and b
        | opening r' =>
          obtain ⟨hand', -, as', has'⟩ := ahead_opening hahead
          have hsome : (afterAnd r').isSome := by rw [hand', hr]; rfl
          rw [readLoop_or_opening hcloses hahead hsome, readLoop_or_opening hcloses hahead hsome,
            (hsuffix as' has').read]
        | stop =>
          rw [readLoop_or_stop hcloses hahead, readLoop_or_stop hcloses hahead, hx]
          congr 1
          funext b
          exact (hsuffix [] rfl).next .or b
      · rw [readLoop_closes hcloses, readLoop_closes hcloses, hx]

/-- Valuations that differ at most in one comparison. -/
def AgreeOff (p : α) (seg seg' : List α → Option Bool) : Prop := ∀ a ≠ p, ∀ as, seg (a :: as) = seg' (a :: as)

def UnreadLoop (p : α) (l : Line α) : Prop :=
  ∀ ⦃seg seg'⦄, AgreeOff p seg seg' → ∀ op curr, readLoop seg l op curr = readLoop seg' l op curr

def Unread (p : α) (l : Line α) : Prop := ∀ ⦃seg seg'⦄, AgreeOff p seg seg' → Agree seg seg' l

theorem unread_of_notMem (h : p ∉ l.atoms) : Unread p l :=
  fun _ _ hagree => agree_of_atoms fun a ha as => hagree a (fun heq => h (heq ▸ ha)) as

theorem notMem_atoms_afterAnd (hl : l.atoms.Nodup) (hand : afterAnd l = some r) : l.head.atom ∉ r.atoms := by
  obtain ⟨as, has⟩ := afterAnd_eq_some hand
  rw [has, nodup_cons, mem_append, not_or] at hl
  exact hl.1.2

theorem nodup_afterAnd (hl : l.atoms.Nodup) (hand : afterAnd l = some r) : r.atoms.Nodup := by
  obtain ⟨as, has⟩ := afterAnd_eq_some hand
  rw [has, nodup_cons] at hl
  exact (nodup_append'.mp hl.2).2.1

theorem mem_atoms_of_afterAnd (hand : afterAnd l = some r) (h : p ∈ r.atoms) : p ∈ l.atoms := by
  obtain ⟨as, has⟩ := afterAnd_eq_some hand
  simp [has, h]

theorem head_mem_atoms (l : Line α) : l.head.atom ∈ l.atoms := by cases l <;> simp [Line.head, Line.atoms]

theorem unreadLoop_of_closes (h : 0 < x.closes) (hp : x.atom ≠ p) : UnreadLoop p (.link x conn rest) := by
  intro seg seg' hagree op curr
  rw [readLoop_closes h, readLoop_closes h, hagree x.atom hp]

theorem unreadLoop_or (hcloses : x.closes = 0) (hstop : ahead rest = .stop) (hopens : rest.head.opens = 0)
    (hp : x.atom ≠ p) (h : UnreadLoop p rest) : UnreadLoop p (.link x .or rest) := by
  intro seg seg' hagree op curr
  rw [readLoop_or_stop hcloses hstop, readLoop_or_stop hcloses hstop, hagree x.atom hp]
  congr 1
  funext b
  rw [readRest_of_opens_eq_zero hopens, readRest_of_opens_eq_zero hopens, h hagree]

/-- A clause that ends with a parenthesis. Nothing after that is read, so it is the last, or a comparison is not read.
-/
theorem unreadLoop_of_stop (hl : l.atoms.Nodup) (hstop : ahead l = .stop) (hand : afterAnd l = some r) :
    l.head.opens = 0 ∧ (∀ p ∈ r.atoms, UnreadLoop p l) ∧
    ((∃ p ∈ l.atoms, p ∉ r.atoms ∧ UnreadLoop p l) ∨ complete true l = complete false r) := by
  induction l with
  | last x => cases hand
  | link x conn rest ih =>
    obtain ⟨hx, hrest⟩ := nodup_cons.mp hl
    simp only [ahead] at hstop
    split_ifs at hstop with hopens hcloses
    · -- The parenthesis closes here.
      have hunread (p : α) (hp : p ∈ rest.atoms) : UnreadLoop p (.link x conn rest) :=
        unreadLoop_of_closes hcloses fun heq => hx (heq ▸ hp)
      refine ⟨Nat.eq_zero_of_not_pos hopens, ?_, ?_⟩
      · intro p hp
        cases conn with
        | and =>
          cases hand
          exact hunread p hp
        | or => exact hunread p (mem_atoms_of_afterAnd hand hp)
      · cases conn with
        | and =>
          cases hand
          exact .inr (by simp [complete, Nat.eq_zero_of_not_pos hopens, hcloses])
        | or =>
          exact .inl ⟨rest.head.atom, mem_cons_of_mem _ (head_mem_atoms rest), notMem_atoms_afterAnd hrest hand,
            hunread _ (head_mem_atoms rest)⟩
    · cases conn with
      | and => cases hstop
      | or =>
        have hcloses : x.closes = 0 := Nat.eq_zero_of_not_pos hcloses
        have hstop' : ahead rest = .stop := by
          simp only at hstop
          split at hstop
          · cases hstop
          · exact hstop
        obtain ⟨hopens', hafter, hclause⟩ := ih hrest hstop' hand
        have hunread (p : α) (hp : p ∈ rest.atoms) (h : UnreadLoop p rest) : UnreadLoop p (.link x .or rest) :=
          unreadLoop_or hcloses hstop' hopens' (fun heq => hx (heq ▸ hp)) h
        refine ⟨Nat.eq_zero_of_not_pos hopens, fun p hp => ?_, hclause.imp ?_ fun h => ?_⟩
        · exact hunread p (mem_atoms_of_afterAnd hand hp) (hafter p hp)
        · rintro ⟨p, hp, hpr, h⟩
          exact ⟨p, mem_cons_of_mem _ hp, hpr, hunread p hp h⟩
        · simp [complete, Nat.eq_zero_of_not_pos hopens, hcloses, h]

theorem unread_clause (hand : afterAnd rest = some r) (hloop : UnreadLoop p (.link x .or rest))
    (hread : 0 < x.opens → Unread p r) : Unread p (.link x .or rest) :=
  fun _ _ hagree => agree_clause hand (hloop hagree) fun hopens => (hread hopens hagree).read

/-- A clause that is not the last, if what follows it is complete or has a comparison that is not read. -/
theorem exists_unread_clause (hl : (link x .or rest).atoms.Nodup) (hand : afterAnd rest = some r)
    (ih : complete false r = false → ∃ p ∈ r.atoms, Unread p r) (h : complete false (.link x .or rest) = false) :
    ∃ p ∈ (link x .or rest).atoms, Unread p (.link x .or rest) := by
  obtain ⟨hx, hrest⟩ := nodup_cons.mp hl
  have hne {p : α} (hp : p ∈ rest.atoms) : x.atom ≠ p := fun heq => hx (heq ▸ hp)
  have hhead : rest.head.atom ∈ rest.atoms := head_mem_atoms rest
  have hheadr : rest.head.atom ∉ r.atoms := notMem_atoms_afterAnd hrest hand
  rcases Nat.eq_zero_or_pos x.closes with hcloses | hcloses
  · cases hahead : ahead rest with
    | and as r' =>
      -- All comparisons of the clause are taken for one, so the second is not read.
      obtain ⟨hr', -⟩ := ahead_and hahead
      obtain rfl : r' = r := Option.some.inj (hr'.symm.trans hand)
      refine ⟨_, mem_cons_of_mem _ hhead, unread_clause hand (fun seg seg' hagree op curr => ?_)
        fun _ => unread_of_notMem hheadr⟩
      rw [readLoop_or_and hcloses hahead, readLoop_or_and hcloses hahead, hagree x.atom (hne hhead)]
      congr 1
      funext b
      exact (unread_of_notMem hheadr hagree).next .and b
    | opening r' =>
      -- What is before the parenthesis is not read.
      obtain ⟨hand', -, as, has⟩ := ahead_opening hahead
      have hsome : (afterAnd r').isSome := by rw [hand', hand]; rfl
      have hx' : x.atom ∉ r'.atoms := fun h => hx (by simp [has, h])
      refine ⟨x.atom, by simp [atoms], unread_clause hand (fun seg seg' hagree op curr => ?_)
        fun _ => unread_of_notMem fun h => hx (mem_atoms_of_afterAnd hand h)⟩
      rw [readLoop_or_opening hcloses hahead hsome, readLoop_or_opening hcloses hahead hsome,
        (unread_of_notMem hx' hagree).read]
    | stop =>
      obtain ⟨hopens', hafter, hclause⟩ := unreadLoop_of_stop hrest hahead hand
      have hloop {p : α} (hp : p ∈ rest.atoms) (h : UnreadLoop p rest) : UnreadLoop p (.link x .or rest) :=
        unreadLoop_or hcloses hahead hopens' (hne hp) h
      rcases hclause with ⟨p, hp, hpr, hunread⟩ | hcomplete
      · exact ⟨p, mem_cons_of_mem _ hp, unread_clause hand (hloop hp hunread) fun _ => unread_of_notMem hpr⟩
      -- The clause is read, and what follows it is if a parenthesis opens.
      have hunread {p : α} (hp : p ∈ r.atoms) (h : 0 < x.opens → Unread p r) :
          ∃ p ∈ (link x .or rest).atoms, Unread p (.link x .or rest) := by
        have hp' := mem_atoms_of_afterAnd hand hp
        exact ⟨p, mem_cons_of_mem _ hp', unread_clause hand (hloop hp' (hafter p hp)) h⟩
      rcases Nat.eq_zero_or_pos x.opens with hopens | hopens
      · exact hunread (head_mem_atoms r) fun h => by omega
      · obtain ⟨p, hp, hpr⟩ := ih (by simpa [complete, hand, hopens, hcloses, hcomplete] using h)
        exact hunread hp fun _ => hpr
  · exact ⟨_, mem_cons_of_mem _ hhead, unread_clause hand (unreadLoop_of_closes hcloses (hne hhead))
      fun _ => unread_of_notMem hheadr⟩

/-- A comparison before the next operator. What follows is read, unless a parenthesis closes that does not open there.
-/
theorem exists_unread_next (hl : (link x conn rest).atoms.Nodup)
    (hconn : conn = .or → afterAnd rest = none) (ih : complete false rest = false → ∃ p ∈ rest.atoms, Unread p rest)
    (h : complete false (.link x conn rest) = false) :
    ∃ p ∈ (link x conn rest).atoms, Unread p (.link x conn rest) := by
  obtain ⟨hx, hrest⟩ := nodup_cons.mp hl
  have hunread {p : α} (hp : p ∈ rest.atoms) (h : (0 < x.closes → 0 < x.opens) → Unread p rest) :
      ∃ p ∈ (link x conn rest).atoms, Unread p (.link x conn rest) :=
    ⟨p, mem_cons_of_mem _ hp, fun seg seg' hagree =>
      agree_link hconn (hagree x.atom (fun heq => hx (heq ▸ hp)) []) fun hparen => h hparen hagree⟩
  by_cases hparen : 0 < x.closes → 0 < x.opens
  · have hor : (x.closes = 0 || 0 < x.opens) = true := by
      simp only [Bool.or_eq_true, decide_eq_true_eq]
      omega
    have hcomplete : complete false rest = false := by
      cases conn with
      | and => simpa only [complete, hor, Bool.true_and] using h
      | or => simpa [complete, hconn rfl, hor] using h
    obtain ⟨p, hp, hpr⟩ := ih hcomplete
    exact hunread hp fun _ => hpr
  · exact hunread (head_mem_atoms rest) fun h => absurd h hparen

theorem exists_unread (hl : l.atoms.Nodup) (h : complete false l = false) : ∃ p ∈ l.atoms, Unread p l := by
  induction hn : l.atoms.length using Nat.strong_induction_on generalizing l with
  | _ n ih =>
    cases l with
    | last x => cases h
    | link x conn rest =>
      subst hn
      have hrest := (nodup_cons.mp hl).2
      by_cases hconn : conn = .or → afterAnd rest = none
      · exact exists_unread_next hl hconn (fun h => ih _ (Nat.lt_succ_self _) hrest h rfl) h
      obtain ⟨rfl, hand⟩ : conn = .or ∧ afterAnd rest ≠ none := by simpa using hconn
      obtain ⟨r, hr⟩ := ne_none_iff_exists'.mp hand
      refine exists_unread_clause hl hr (fun h => ih r.atoms.length ?_ ?_ h rfl) h
      · obtain ⟨as, has⟩ := afterAnd_eq_some hr
        simp only [atoms, has, length_cons, length_append]
        omega
      · exact nodup_afterAnd hrest hr

end Unread

end Pequin.Sql
