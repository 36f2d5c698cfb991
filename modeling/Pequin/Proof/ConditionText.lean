import Pequin.Model.SqlSyntax
import Pequin.Proof.ConditionReading

/-!
# The text of a condition

`EvalCond` searches the text of a condition for operators and parentheses. If the comparisons themselves have none, it
reads the line of the condition (`evalCond_text`).
-/

namespace Pequin.Sql

open Infix Line List Option Search

variable {α : Type*} (text : α → Text) {t u w : Text} {l : Line α} {x : Item α} {reg : ColRegistry} {row : List Text}

/-! ## Texts of lines -/

def hook : Conn → Text
  | .and => andHook
  | .or => orHook

def itemText (x : Item α) : Text := List.replicate x.opens '(' ++ text x.atom ++ List.replicate x.closes ')'

def lineText : Line α → Text
  | .last x => itemText text x
  | .link x conn rest => itemText text x ++ hook conn ++ lineText rest

theorem lineText_append (conn : Conn) (l' : Line α) :
    lineText text (l.append conn l') = lineText text l ++ hook conn ++ lineText text l' := by
  induction l with
  | last x => rfl
  | link x conn' rest ih => simp only [append, lineText, ih, append_assoc]

theorem lineText_opening : lineText text l.opening = '(' :: lineText text l := by
  cases l <;> simp [opening, lineText, itemText, replicate_succ]

theorem lineText_closing : lineText text l.closing = lineText text l ++ [')'] := by
  induction l with
  | last x => simp [closing, lineText, itemText, replicate_succ']
  | link x conn rest ih => simp only [closing, lineText, ih, append_assoc]

theorem lineText_paren : lineText text l.paren = '(' :: (lineText text l ++ [')']) := by
  rw [paren, lineText_opening, lineText_closing]

theorem lineText_line (c : Formula α) : lineText text c.line = print text c := by
  induction c with
  | atom a => simp [Formula.line, lineText, itemText, print]
  | paren c ih => rw [Formula.line, lineText_paren, ih, print]
  | and l r ihl ihr =>
    rw [Formula.line, lineText_append, print, hook]
    split <;> split <;> simp only [lineText_paren, ihl, ihr]
  | or l r ihl ihr => rw [Formula.line, lineText_append, ihl, ihr, print, hook]

/-- Comparisons with an `OR` between them. -/
def segText : List α → Text
  | [] => []
  | [a] => text a
  | a :: as => text a ++ orHook ++ segText as

def NoOperator (t : Text) : Prop := ∀ w ∈ t.splitOn ' ', w ∉ operatorWords

/-- A comparison, for the interpreter. -/
structure IsClean (t : Text) : Prop where
  ne_nil : t ≠ []
  paren : ∀ c ∈ t, isParen c = false
  noOperator : NoOperator t

def Clean (l : Line α) : Prop := ∀ a ∈ l.atoms, IsClean (text a)

theorem Clean.head {text : α → Text} (h : Clean text l) : IsClean (text l.head.atom) :=
  h _ (head_mem_atoms l)

theorem Clean.rest {text : α → Text} {conn : Conn} {rest : Line α} (h : Clean text (.link x conn rest)) :
    Clean text rest := fun a ha => h a (mem_cons_of_mem _ ha)

theorem paren_notMem : ∀ w ∈ operatorWords, '(' ∉ w ∧ ')' ∉ w := by decide

theorem NoOperator.cons (h : NoOperator t) : NoOperator ('(' :: t) := by
  intro w hw hop
  rcases mem_splitOn_cons (by decide) hw with hw | hparen
  · exact h w hw hop
  · exact (paren_notMem w hop).1 hparen

theorem NoOperator.concat (h : NoOperator t) : NoOperator (t ++ [')']) := by
  intro w hw hop
  rcases mem_splitOn_concat (by decide) hw with hw | hparen
  · exact h w hw hop
  · exact (paren_notMem w hop).2 hparen

theorem noOperator_itemText (h : NoOperator (text x.atom)) : NoOperator (itemText text x) := by
  have hopens : ∀ n, NoOperator (List.replicate n '(' ++ text x.atom) := by
    intro n
    induction n with
    | zero => exact h
    | succ n ih =>
      exact ih.cons
  have hcloses : ∀ n t, NoOperator t → NoOperator (t ++ List.replicate n ')') := by
    intro n
    induction n with
    | zero => exact fun t ht => by rwa [replicate_zero, append_nil]
    | succ n ih =>
      intro t ht
      rw [replicate_succ, ← singleton_append, ← append_assoc]
      exact ih _ ht.concat
  exact hcloses _ _ (hopens _)

theorem splitOn_hook {s : Text} (hw : ' ' ∉ w) :
    (u ++ (' ' :: (w ++ [' '])) ++ s).splitOn ' ' = u.splitOn ' ' ++ w :: s.splitOn ' ' := by
  rw [append_assoc, cons_append, append_assoc, singleton_append, splitOn_append_cons_self,
    splitOn_append_cons_self_of_not_mem hw]

theorem splitOn_orHook (u s : Text) : (u ++ orHook ++ s).splitOn ' ' = u.splitOn ' ' ++ "OR".toList :: s.splitOn ' ' :=
  splitOn_hook (w := "OR".toList) (by decide)

theorem and_notMem_splitOn_or {s : Text} (hu : NoOperator u) (hs : "AND".toList ∉ s.splitOn ' ') :
    "AND".toList ∉ (u ++ orHook ++ s).splitOn ' ' := by
  rw [splitOn_orHook, mem_append, mem_cons]
  rintro (h | h | h)
  · exact hu _ h (by decide)
  · exact absurd h (by decide)
  · exact hs h

theorem notMem_operatorWords : ∀ w ∈ operatorWords, ' ' ∉ w := by decide

theorem NoOperator.find (ht : NoOperator t) (hw : w ∈ operatorWords) : find (' ' :: (w ++ [' '])) t = none :=
  find_word_eq_none (notMem_operatorWords w hw) fun h => ht w h hw

theorem find_hook (hw : w ∈ operatorWords) (h : w ∉ t.splitOn ' ') (s : Text) :
    find (' ' :: (w ++ [' '])) (t ++ (' ' :: (w ++ [' '])) ++ s) = some t.length := by
  have hfind := find_word (notMem_operatorWords w hw) h s
  rwa [show t ++ ' ' :: (w ++ ' ' :: s) = t ++ (' ' :: (w ++ [' '])) ++ s by simp] at hfind

theorem getNextOperator_and (hu : "AND".toList ∉ u.splitOn ' ') (s : Text) :
    getNextOperator (u ++ andHook ++ s) = (.and, u.length, u.length + andHook.length) := by
  have h : find andHook (u ++ andHook ++ s) = some u.length := find_hook (by decide) hu s
  rw [getNextOperator, h]

theorem getNextOperator_or {s : Text} (hu : NoOperator u) (hs : "AND".toList ∉ s.splitOn ' ') :
    getNextOperator (u ++ orHook ++ s) = (.or, u.length, u.length + orHook.length) := by
  have hand : find andHook (u ++ orHook ++ s) = none := find_word_eq_none (by decide) (and_notMem_splitOn_or hu hs)
  have hor : find orHook (u ++ orHook ++ s) = some u.length :=
    find_hook (w := "OR".toList) (by decide) (fun h => hu _ h (by decide)) s
  rw [getNextOperator, hand]
  rw [hor]

theorem getNextOperator_none (ht : NoOperator t) : getNextOperator t = (.none, t.length, 0) := by
  have hand : find andHook t = none := ht.find (w := "AND".toList) (by decide)
  have hor : find orHook t = none := ht.find (w := "OR".toList) (by decide)
  have hin : find inHook t = none := ht.find (w := "IN".toList) (by decide)
  have hbetween : find betweenHook t = none := ht.find (w := "BETWEEN".toList) (by decide)
  rw [getNextOperator, hand]
  rw [hor]
  rw [hin]
  rw [hbetween]

/-! ## Where a line has its first operator -/

section Lines

variable {text} {rest r : Line α}

section

variable (hl : Clean text l)
include hl

theorem lineText_ne_nil : lineText text l ≠ [] := by
  have hx : text l.head.atom ≠ [] := hl.head.ne_nil
  cases l <;> simp_all [lineText, itemText, Line.head]

theorem lineText_afterAnd (hand : afterAnd l = some r) :
    ∃ u, lineText text l = u ++ andHook ++ lineText text r ∧ "AND".toList ∉ u.splitOn ' ' ∧ u ≠ [] := by
  induction l with
  | last x => cases hand
  | link x conn rest ih =>
    have hx : IsClean (text x.atom) := hl.head
    have hitem := noOperator_itemText text hx.noOperator
    have hne : itemText text x ≠ [] := by simp [itemText, hx.ne_nil]
    cases conn with
    | and =>
      cases hand
      exact ⟨itemText text x, rfl, fun h => hitem _ h (by decide), hne⟩
    | or =>
      obtain ⟨u, hu, hfree, -⟩ := ih hl.rest hand
      refine ⟨itemText text x ++ orHook ++ u, ?_, and_notMem_splitOn_or hitem hfree, by simp [hne]⟩
      rw [lineText, hu, hook]
      simp only [append_assoc]

theorem and_notMem_splitOn (hand : afterAnd l = none) : "AND".toList ∉ (lineText text l).splitOn ' ' := by
  induction l with
  | last x =>
    exact fun h => noOperator_itemText text hl.head.noOperator _ h (by decide)
  | link x conn rest ih =>
    cases conn with
    | and => cases hand
    | or => exact and_notMem_splitOn_or (noOperator_itemText text hl.head.noOperator) (ih hl.rest hand)

theorem getNextOperator_lineText : match afterOp l with
    | some (op, r) => ∃ u v, lineText text l = u ++ v ++ lineText text r ∧ u ≠ [] ∧ v ≠ [] ∧
        getNextOperator (lineText text l) = (op, u.length, u.length + v.length) ∧ (op = .and ∨ op = .or)
    | none => getNextOperator (lineText text l) = (.none, (lineText text l).length, 0) := by
  cases hand : afterAnd l with
  | some r =>
    have hop : afterOp l = some (.and, r) := by
      unfold afterOp
      rw [hand]
    obtain ⟨u, hu, hfree, hne⟩ := lineText_afterAnd hl hand
    rw [hop]
    exact ⟨u, andHook, hu, hne, by decide, by rw [hu, getNextOperator_and hfree], .inl rfl⟩
  | none =>
    cases l with
    | last x =>
      have hop : afterOp (.last x) = none := rfl
      exact getNextOperator_none (noOperator_itemText text hl.head.noOperator)
    | link x conn rest =>
      cases conn with
      | and => cases hand
      | or =>
        have hx : IsClean (text x.atom) := hl.head
        have hand' : afterAnd rest = none := hand
        rw [afterOp_next fun _ => hand']
        refine ⟨itemText text x, orHook, rfl, by simp [itemText, hx.ne_nil], by decide, ?_, .inr rfl⟩
        exact getNextOperator_or (noOperator_itemText text hx.noOperator)
          (and_notMem_splitOn hl.rest hand')

end

end Lines

section Loop

variable {text} {rest r : Line α} {pos : Option Nat} {n : Nat}

/-- The text of a line up to the first parenthesis if that closes, and the position of the one that opens otherwise. -/
inductive Facing (text : α → Text) : Line α → Text → Option Nat → Prop
  | opening {l : Line α} (h : 0 < l.head.opens) : Facing text l (lineText text l) (some 0)
  | last {x : Item α} (h : x.opens = 0) : Facing text (.last x) (text x.atom) none
  | closing {x : Item α} {conn : Conn} {rest : Line α} (h : x.opens = 0) (hcloses : 0 < x.closes) :
    Facing text (.link x conn rest) (text x.atom) none
  | link {x : Item α} {conn : Conn} {rest : Line α} {t : Text} {pos : Option Nat} (h : x.opens = 0)
    (hcloses : x.closes = 0) (hrest : Facing text rest t pos) :
    Facing text (.link x conn rest) (text x.atom ++ hook conn ++ t)
      (pos.map (· + (text x.atom ++ hook conn).length))

theorem ahead_of_opens (h : 0 < l.head.opens) : ahead l = .opening l := by
  cases l with
  | last x => exact if_pos h
  | link x conn rest =>
    exact if_pos h

theorem ahead_or (h : x.opens = 0) (hcloses : x.closes = 0) : ahead (.link x .or rest) = match ahead rest with
    | .and as r => .and (x.atom :: as) r
    | next => next := by
  cases hrest : ahead rest <;> simp only [ahead, h, hcloses, hrest, Nat.lt_irrefl, if_false]

theorem Facing.ahead (h : Facing text l t pos) (hl : Clean text l) : match Sql.ahead l with
    | .and as r => ∃ t' pos', Facing text r t' pos' ∧ t = segText text as ++ andHook ++ t' ∧
        pos = pos'.map (· + (segText text as ++ andHook).length) ∧ "AND".toList ∉ (segText text as).splitOn ' '
    | .opening r => ∃ u, t = u ++ lineText text r ∧ pos = some u.length
    | .stop => pos = none ∧ "AND".toList ∉ t.splitOn ' ' := by
  have hatom {x : Item α} (hx : IsClean (text x.atom)) : "AND".toList ∉ (text x.atom).splitOn ' ' :=
    fun h => hx.noOperator _ h (by decide)
  induction h with
  | opening h =>
    rw [ahead_of_opens h]
    exact ⟨[], rfl, rfl⟩
  | @last x h =>
    have hstop : Sql.ahead (.last x) = .stop := if_neg (by omega)
    rw [hstop]
    exact ⟨rfl, hatom hl.head⟩
  | @closing x conn rest h hcloses =>
    have hstop : Sql.ahead (.link x conn rest) = .stop := by simp [Sql.ahead, h, hcloses]
    rw [hstop]
    exact ⟨rfl, hatom hl.head⟩
  | @link x conn rest t pos h hcloses hrest ih =>
    have hx : IsClean (text x.atom) := hl.head
    have ih := ih hl.rest
    cases conn with
    | and =>
      have hand : Sql.ahead (.link x .and rest) = .and [x.atom] rest := by simp [Sql.ahead, h, hcloses]
      rw [hand]
      exact ⟨t, pos, hrest, rfl, rfl, hatom hx⟩
    | or =>
      rw [ahead_or h hcloses]
      cases hahead : Sql.ahead rest with
      | and as r =>
        rw [hahead] at ih
        obtain ⟨t', pos', hfacing, rfl, rfl, hand⟩ := ih
        obtain ⟨-, as', rfl, -⟩ := ahead_and hahead
        refine ⟨t', pos', hfacing, ?_, ?_, and_notMem_splitOn_or hx.noOperator hand⟩
        · simp only [segText, hook, append_assoc]
        rw [Option.map_map]
        congr 1
        funext n
        simp only [Function.comp_apply, segText, hook, length_append]
        omega
      | opening r =>
        rw [hahead] at ih
        obtain ⟨u, rfl, rfl⟩ := ih
        refine ⟨text x.atom ++ orHook ++ u, ?_, ?_⟩
        · simp only [hook, append_assoc]
        · simp only [hook, map_some, length_append]
          congr 1
          omega
      | stop =>
        rw [hahead] at ih
        obtain ⟨rfl, hand⟩ := ih
        exact ⟨rfl, and_notMem_splitOn_or hx.noOperator hand⟩

theorem Facing.eq_lineText (h : Facing text l t pos) (hpos : pos ≠ none) : t = lineText text l := by
  induction h with
  | opening h => rfl
  | last h => exact absurd rfl hpos
  | closing h hcloses => exact absurd rfl hpos
  | @link x conn rest t pos h hcloses hrest ih =>
    rw [lineText, ih (by simpa using hpos)]
    simp [itemText, h, hcloses]

variable {rec : Text → Option Bool} {op next : Op} {curr : Bool} {fuel : Nat}

theorem evalLoop_opening {p opPos opPosPost : Nat} (hnext : getNextOperator t = (next, opPos, opPosPost))
    (hspecial : next ≠ .special) (hp : p < opPos) :
    evalLoop reg row rec (fuel + 1) (some p) op curr t = (rec (t.drop p)).bind (combine op curr) := by
  simp only [evalLoop, hnext, if_neg hspecial, filter_some, decide_eq_true hp, if_true]

theorem evalLoop_next {u v t' : Text} {pos' : Option Nat} (hnext : getNextOperator (u ++ v ++ t') =
    (next, u.length, u.length + v.length)) (hop : next = .and ∨ next = .or) :
    evalLoop reg row rec (fuel + 1) (pos'.map (· + (u ++ v).length)) op curr (u ++ v ++ t') =
      ((evalColCondition reg row u).bind (combine op curr)).bind fun curr =>
        evalLoop reg row rec fuel pos' next curr t' := by
  have hspecial : next ≠ .special := by rcases hop with rfl | rfl <;> decide
  have hnone : next ≠ .none := by rcases hop with rfl | rfl <;> decide
  have hpos : (pos'.map (· + (u ++ v).length)).filter (· < u.length) = none := by
    cases pos' with
    | none => rfl
    | some p =>
      rw [map_some, filter_some, if_neg]
      rw [decide_eq_true_eq, length_append]
      omega
  have hsub : (pos'.map (· + (u ++ v).length)).map (· - (u.length + v.length)) = pos' := by
    cases pos' with
    | none => rfl
    | some p => simp [length_append]
  have htake : (u ++ v ++ t').take u.length = u := by rw [append_assoc, take_left]
  have hdrop : (u ++ v ++ t').drop (u.length + v.length) = t' := by
    rw [← length_append, drop_left]
  simp only [evalLoop, hnext, if_neg hspecial, hpos, if_neg hnone, hsub, htake, hdrop]
  cases evalColCondition reg row u <;> rfl

theorem evalLoop_last (ht : NoOperator t) :
    evalLoop reg row rec (fuel + 1) none op curr t = (evalColCondition reg row t).bind (combine op curr) := by
  simp only [evalLoop, getNextOperator_none ht, reduceCtorEq, if_false, filter_none, take_length, if_true]
  cases evalColCondition reg row t with
  | none => rfl
  | some b =>
    show (combine op curr b).bind some = _
    rw [bind_some]
    cases combine op curr b <;> rfl

section

variable (text reg row)

def segValue (as : List α) : Option Bool :=
  evalColCondition reg row (segText text as)

def LoopReads (rec : Text → Option Bool) (n fuel : Nat) :
    Prop :=
  ∀ ⦃l t pos⦄, Facing text l t pos → (∀ a ∈ l.atoms, IsClean (text a)) → (lineText text l).length < n →
    t.length < fuel → ∀ op curr, evalLoop reg row rec fuel pos op curr t = readRest (segValue text reg row) l op curr

end

theorem evalLoop_link {conn : Conn} (hloop : LoopReads text reg row rec n fuel) (hrest : Facing text rest t pos)
    (hl : Clean text (.link x conn rest)) (hn : (lineText text (.link x conn rest)).length ≤ n)
    (hfuel : (text x.atom ++ hook conn ++ t).length < fuel + 1) (hand : conn = .or → "AND".toList ∉ t.splitOn ' ') :
    evalLoop reg row rec (fuel + 1) (pos.map (· + (text x.atom ++ hook conn).length)) op curr
        (text x.atom ++ hook conn ++ t) = ((segValue text reg row [x.atom]).bind (combine op curr)).bind
        (readRest (segValue text reg row) rest (opOf conn)) := by
  have hx : IsClean (text x.atom) := hl.head
  have hpos := length_pos_of_ne_nil hx.ne_nil
  have hnext : getNextOperator (text x.atom ++ hook conn ++ t) =
      (opOf conn, (text x.atom).length, (text x.atom).length + (hook conn).length) := by
    cases conn with
    | and => exact getNextOperator_and (fun h => hx.noOperator _ h (by decide)) t
    | or => exact getNextOperator_or hx.noOperator (hand rfl)
  rw [evalLoop_next hnext (by cases conn <;> decide)]
  congr 1
  funext b
  refine hloop hrest hl.rest ?_ ?_ _ _
  · simp only [lineText, itemText, length_append] at hn
    omega
  · simp only [length_append] at hfuel
    omega

theorem evalLoop_seg {as : List α} (hloop : LoopReads text reg row rec n fuel) (hr : Facing text r t pos)
    (hl : Clean text r) (hn : (lineText text r).length < n)
    (hfuel : (segText text as ++ andHook ++ t).length < fuel + 1)
    (hand : "AND".toList ∉ (segText text as).splitOn ' ') :
    evalLoop reg row rec (fuel + 1) (pos.map (· + (segText text as ++ andHook).length)) op curr
        (segText text as ++ andHook ++ t) =
      ((segValue text reg row as).bind (combine op curr)).bind (readRest (segValue text reg row) r .and) := by
  rw [evalLoop_next (getNextOperator_and hand t) (.inl rfl)]
  congr 1
  funext b
  refine hloop hr hl hn ?_ _ _
  simp only [length_append, show andHook.length = 5 from rfl] at hfuel
  omega

theorem evalLoop_paren (hrec : rec (lineText text r) = read (segValue text reg row) r)
    (hl : Clean text l) (hu : lineText text l = u ++ lineText text r)
    (hr : Clean text r) (hand : afterAnd l = afterAnd r) (hsome : (afterAnd r).isSome) :
    evalLoop reg row rec (fuel + 1) (some u.length) op curr (lineText text l) =
      (read (segValue text reg row) r).bind (combine op curr) := by
  obtain ⟨r', hr'⟩ := isSome_iff_exists.mp hsome
  obtain ⟨w, hw, hfree, -⟩ := lineText_afterAnd hl (hand.trans hr')
  obtain ⟨w', hw', -, hne⟩ := lineText_afterAnd hr hr'
  have hlength : u.length < w.length := by
    have h := congrArg List.length (hw.symm.trans (hu.trans (congrArg (u ++ ·) hw')))
    have hpos := length_pos_of_ne_nil hne
    simp only [length_append] at h
    omega
  have hnext := getNextOperator_and hfree (lineText text r')
  rw [← hw] at hnext
  rw [evalLoop_opening hnext (by decide) hlength, hu, drop_left, hrec]

theorem evalLoop_facing (hrec : ∀ l, Clean text l → (lineText text l).length < n →
      rec (lineText text l) = read (segValue text reg row) l)
    (h : Facing text l t pos) (hl : Clean text l) (hn : (lineText text l).length ≤ n)
    (hopens : 0 < l.head.opens → (lineText text l).length < n) (hfuel : t.length < fuel) :
    evalLoop reg row rec fuel pos op curr t = readRest (segValue text reg row) l op curr := by
  induction fuel generalizing l t pos op curr with
  | zero => cases hfuel
  | succ fuel ih =>
    cases h with
    | opening h =>
      have hnext := getNextOperator_lineText hl
      rw [readRest_of_opens h]
      cases hop : afterOp l with
      | none =>
        rw [hop] at hnext
        rw [evalLoop_opening hnext (by decide) (length_pos_of_ne_nil (lineText_ne_nil hl)), drop_zero,
          hrec l hl (hopens h)]
      | some opr =>
        rw [hop] at hnext
        obtain ⟨u, v, -, hu, -, hnext, hspecial⟩ := hnext
        rw [evalLoop_opening hnext (by rcases hspecial with h | h <;> rw [h] <;> decide)
          (length_pos_of_ne_nil hu), drop_zero, hrec l hl (hopens h)]
    | @last x h =>
      rw [readRest_of_opens_eq_zero (l := .last x) h, readLoop_last]
      exact evalLoop_last hl.head.noOperator
    | @closing x conn rest h hcloses =>
      rw [readRest_of_opens_eq_zero (l := .link x conn rest) h, readLoop_closes hcloses]
      exact evalLoop_last hl.head.noOperator
    | @link x conn rest t pos h hcloses hrest =>
      have hclean : Clean text rest := hl.rest
      have hloop : LoopReads text reg row rec n fuel := fun l t pos hface hclean hlt hfuel op curr =>
        ih hface hclean hlt.le (fun _ => hlt) hfuel
      have hahead := hrest.ahead hclean
      rw [readRest_of_opens_eq_zero (l := .link x conn rest) h]
      by_cases hconn : conn = .or → afterAnd rest = none
      · rw [readLoop_next hconn hcloses]
        refine evalLoop_link hloop hrest hl hn hfuel fun hor => ?_
        cases hrest' : Sql.ahead rest with
        | and as r =>
          rw [(ahead_and hrest').1] at hconn
          cases hconn hor
        | opening r =>
          rw [hrest'] at hahead
          obtain ⟨u, -, hpos⟩ := hahead
          rw [hrest.eq_lineText (by simp [hpos])]
          exact and_notMem_splitOn hclean (hconn hor)
        | stop =>
          rw [hrest'] at hahead
          exact hahead.2
      · obtain ⟨rfl, hand⟩ : conn = .or ∧ afterAnd rest ≠ none := by simpa using hconn
        have hface : Facing text (.link x .or rest) _ _ := .link h hcloses hrest
        have hall := hface.ahead hl
        rw [ahead_or h hcloses] at hall
        cases hrest' : Sql.ahead rest with
        | and as r =>
          rw [hrest'] at hall
          obtain ⟨t', pos', hfacing, ht, hpos, hfree⟩ := hall
          obtain ⟨hr, as', -, has⟩ := ahead_and hrest'
          obtain ⟨u, hu, -⟩ := lineText_afterAnd (l := .link x .or rest) hl hr
          rw [readLoop_or_and hcloses hrest', ht, hpos]
          rw [ht] at hfuel
          refine evalLoop_seg hloop hfacing (fun a ha => hclean a (by simp [has, ha])) ?_ hfuel hfree
          simp only [hu, length_append, show andHook.length = 5 from rfl] at hn
          omega
        | opening r =>
          rw [hrest'] at hall
          obtain ⟨u, ht, hpos⟩ := hall
          obtain ⟨hr, -, as, has⟩ := ahead_opening hrest'
          have hcleanr : Clean text r := fun a ha => hclean a (by simp [has, ha])
          have hline := hface.eq_lineText (by rw [hpos]; exact some_ne_none _)
          have hsome : (afterAnd r).isSome := by rwa [hr, isSome_iff_ne_none]
          have hlt : (lineText text r).length < n := by
            obtain ⟨p, -, hp⟩ := map_eq_some_iff.mp hpos
            have hlength := congrArg List.length (hline.symm.trans ht)
            simp only [length_append, hook, show orHook.length = 4 from rfl] at hp hlength
            omega
          rw [readLoop_or_opening hcloses hrest' hsome, hpos, hline]
          exact evalLoop_paren (hrec r hcleanr hlt) hl (hline.symm.trans ht) hcleanr hr.symm hsome
        | stop =>
          rw [hrest'] at hahead
          rw [readLoop_or_stop hcloses hrest']
          exact evalLoop_link hloop hrest hl hn hfuel fun _ => hahead.2

theorem evalLoop_congr (rec rec' : Text → Option Bool) :
    evalLoop reg row rec fuel none op curr t = evalLoop reg row rec' fuel none op curr t := by
  induction fuel generalizing t op curr with
  | zero => rfl
  | succ fuel ih =>
    simp only [evalLoop, filter_none, map_none]
    split
    · rfl
    congr 1
    funext cond
    congr 1
    funext curr
    split
    · rfl
    · exact ih

end Loop

/-! ## Parentheses -/

section Parens

variable {text}

theorem findIdx_isParen_eq_none : t.findIdx? isParen = none ↔ ∀ c ∈ t, isParen c = false := by
  simp [List.findIdx?_eq_none_iff]

theorem findIdx_isParen_append (hu : ∀ c ∈ u, isParen c = false) :
    (u ++ t).findIdx? isParen = (t.findIdx? isParen).map (· + u.length) := by
  rw [List.findIdx?_append, findIdx_isParen_eq_none.mpr hu, none_or]

theorem isParen_hook (conn : Conn) : ∀ c ∈ hook conn, isParen c = false := by
  have hall : (hook conn).all (!isParen ·) = true := by cases conn <;> rfl
  simpa using hall

/-- The first parenthesis opens, at the position the loop is given, or closes, which ends its text. -/
theorem exists_facing (hl : Clean text l) :
    (∃ p, Facing text l (lineText text l) (some p) ∧ (lineText text l).findIdx? isParen = some p ∧
      (lineText text l)[p]? = some '(') ∨ ∃ t, Facing text l t none ∧ t.findIdx? isParen = none ∧
      (lineText text l = t ∨ ∃ s, lineText text l = t ++ ')' :: s) := by
  have hopening {l : Line α} (h : 0 < l.head.opens) :
      ∃ p, Facing text l (lineText text l) (some p) ∧ (lineText text l).findIdx? isParen = some p ∧
        (lineText text l)[p]? = some '(' := by
    obtain ⟨s, hs⟩ : ∃ s, lineText text l = '(' :: s := by
      obtain ⟨k, hk⟩ := Nat.exists_eq_succ_of_ne_zero (Nat.pos_iff_ne_zero.mp h)
      cases l <;> simp_all [lineText, itemText, Line.head, replicate_succ]
    exact ⟨0, .opening h, by rw [hs]; rfl, by rw [hs]; rfl⟩
  induction l with
  | last x =>
    have hx : IsClean (text x.atom) := hl.head
    rcases Nat.eq_zero_or_pos x.opens with hopens | hopens
    · refine .inr ⟨_, .last hopens, findIdx_isParen_eq_none.mpr hx.paren, ?_⟩
      simp only [lineText, itemText, hopens, replicate_zero, nil_append]
      cases x.closes with
      | zero => exact .inl (append_nil _)
      | succ n => exact .inr ⟨_, rfl⟩
    · exact .inl (hopening hopens)
  | link x conn rest ih =>
    have hx : IsClean (text x.atom) := hl.head
    rcases Nat.eq_zero_or_pos x.opens with hopens | hopens
    · rcases Nat.eq_zero_or_pos x.closes with hcloses | hcloses
      · have htext : lineText text (.link x conn rest) = text x.atom ++ hook conn ++ lineText text rest := by
          simp [lineText, itemText, hopens, hcloses]
        have hfree : ∀ c ∈ text x.atom ++ hook conn, isParen c = false := fun c hc =>
          (mem_append.mp hc).elim (hx.paren c) (isParen_hook conn c)
        rw [htext]
        rcases ih hl.rest with ⟨p, hface, hfind, hget⟩ | ⟨t, hface, hfind, hcut⟩
        · refine .inl ⟨p + (text x.atom ++ hook conn).length, .link hopens hcloses hface, ?_, ?_⟩
          · rw [findIdx_isParen_append hfree, hfind, map_some]
          · rw [List.getElem?_append_right (Nat.le_add_left _ _), Nat.add_sub_cancel, hget]
        refine .inr ⟨_, .link hopens hcloses hface, ?_, ?_⟩
        · rw [findIdx_isParen_append hfree, hfind, map_none]
        · refine hcut.imp (fun h => by rw [h]) ?_
          rintro ⟨s, hs⟩
          exact ⟨s, by rw [hs, append_assoc _ t]⟩
      · refine .inr ⟨_, .closing hopens hcloses, findIdx_isParen_eq_none.mpr hx.paren, .inr ?_⟩
        obtain ⟨n, hn⟩ := Nat.exists_eq_succ_of_ne_zero (Nat.pos_iff_ne_zero.mp hcloses)
        rw [lineText, itemText, hopens, hn, replicate_succ]
        exact ⟨List.replicate n ')' ++ hook conn ++ lineText text rest, by simp⟩
    · exact .inl (hopening hopens)

theorem exists_opening (h : 0 < l.head.opens) : ∃ l' : Line α, l = l'.opening ∧ l'.atoms = l.atoms := by
  cases l with
  | last x =>
    obtain ⟨_ | k, a, closes⟩ := x
    · cases h
    · exact ⟨.last ⟨k, a, closes⟩, rfl, rfl⟩
  | link x conn rest =>
    obtain ⟨_ | k, a, closes⟩ := x
    · cases h
    · exact ⟨.link ⟨k, a, closes⟩ conn rest, rfl, rfl⟩

/-- `EvalCond` after a parenthesis. What follows the operator is read once more for each one, to no effect. -/
theorem read_opening {seg : List α → Option Bool} : read seg l.opening = (read seg l).bind (readAfter seg l) := by
  have hloop : readLoop seg l.opening .start false = readLoop seg l .start false := by
    cases l with
    | last x => rw [opening, readLoop_last, readLoop_last]
    | link x conn rest => cases conn <;> rw [opening, readLoop, readLoop]
  have hop : afterOp l.opening = afterOp l := by
    cases l with
    | last x => rfl
    | link x conn rest =>
      by_cases hconn : conn = .or → afterAnd rest = none
      · rw [opening, afterOp_next hconn, afterOp_next hconn]
      · obtain ⟨rfl, hand⟩ : conn = .or ∧ afterAnd rest ≠ none := by simpa using hconn
        obtain ⟨r, hr⟩ := ne_none_iff_exists'.mp hand
        rw [opening, afterOp_clause hr, afterOp_clause hr]
  have hafter : readAfter seg l.opening = readAfter seg l := by
    funext cond
    rw [readAfter, readAfter, hop]
  have hopens : 0 < l.opening.head.opens := by cases l <;> exact Nat.succ_pos _
  rw [read_of_opens hopens, hloop, hafter]
  rcases Nat.eq_zero_or_pos l.head.opens with h | h
  · rw [read_of_opens_eq_zero h]
  rw [read_of_opens h, bind_assoc]
  congr 1
  funext cond
  cases hop' : afterOp l with
  | none => rw [readAfter_of_none hop', bind_some, readAfter_of_none hop']
  | some opr =>
    rw [readAfter_of_some hop']
    cases hread : read seg opr.2 with
    | none => rfl
    | some b =>
      cases hcomb : combine opr.1 cond b with
      | none => simp only [bind_some, hcomb, bind_none]
      | some b' =>
        rw [bind_some, hcomb, bind_some, readAfter_of_some hop', hread, bind_some]
        revert hcomb
        cases opr.1 <;> cases cond <;> cases b <;> cases b' <;> decide

theorem Facing.pos_of_opens {p : Nat} (h : Facing text l t (some p)) (hopens : l.head.opens = 0)
    (hl : Clean text l) : 0 < p := by
  generalize hpos : some p = pos at h
  cases h with
  | opening h => omega
  | last h => cases hpos
  | closing h hcloses => cases hpos
  | @link x conn rest t pos h hcloses hrest =>
    obtain ⟨p', -, hp⟩ := map_eq_some_iff.mp hpos.symm
    have hx : 0 < (text x.atom).length := length_pos_of_ne_nil hl.head.ne_nil
    rw [← hp, length_append]
    omega

theorem head_lineText (hl : Clean text l) : (lineText text l).head? ≠ some ')' := by
  have hx := hl.head
  have hhead : (itemText text l.head ++ (lineText text l).drop (itemText text l.head).length).head? ≠ some ')' := by
    obtain ⟨c, s, hs⟩ := exists_cons_of_ne_nil hx.ne_nil
    have hc := hx.paren c (by simp [hs])
    rw [itemText, hs]
    cases l.head.opens with
    | zero =>
      simp only [replicate_zero, nil_append, cons_append, List.head?_cons, Ne, some.injEq]
      rintro rfl
      cases hc
    | succ k => simp [replicate_succ]
  cases l with
  | last x => simpa [lineText, Line.head] using hhead
  | link x conn rest => simpa [lineText, Line.head, append_assoc] using hhead

theorem mem_atoms_of_afterOp {r : Line α} {op : Op} {a : α} (h : afterOp l = some (op, r)) (ha : a ∈ r.atoms) :
    a ∈ l.atoms := by
  unfold afterOp at h
  split at h
  · rename_i hand
    cases h
    exact mem_atoms_of_afterAnd hand ha
  · cases h
    exact mem_cons_of_mem _ ha
  · cases h

theorem evalCond_of_opens_eq_zero {fuel : Nat} (hrec : ∀ l, Clean text l → (lineText text l).length < fuel →
      evalCond reg row fuel (lineText text l) = read (segValue text reg row) l)
    (hl : Clean text l) (hfuel : (lineText text l).length ≤ fuel) (hopens : l.head.opens = 0) :
    evalCond reg row (fuel + 1) (lineText text l) = read (segValue text reg row) l := by
  have hread {pos : Option Nat} {t : Text} (hface : Facing text l t pos) :
      evalLoop reg row (evalCond reg row fuel) (t.length + 1) pos .start false t = read (segValue text reg row) l := by
    rw [evalLoop_facing hrec hface hl hfuel (fun h => by omega) (Nat.lt_succ_self _),
      readRest_of_opens_eq_zero hopens, read_of_opens_eq_zero hopens]
  rcases exists_facing hl with ⟨p, hface, hfind, hget⟩ | ⟨t, hface, hfind, rfl | ⟨s, hs⟩⟩
  · have hp : 0 < p := hface.pos_of_opens hopens hl
    rw [evalCond, hfind]
    simp only [hget, some.injEq, Char.reduceEq, if_false, if_pos hp]
    exact hread hface
  · rw [evalCond, hfind]
    exact hread hface
  · -- The text up to the parenthesis that closes goes to `EvalCond` again, and has no other one.
    have hfind' : (t ++ ')' :: s).findIdx? isParen = some t.length := by
      rw [findIdx_isParen_append (findIdx_isParen_eq_none.mp hfind)]
      exact congrArg some (Nat.zero_add _)
    have hget : (t ++ ')' :: s)[t.length]? = some ')' := by simp
    obtain ⟨fuel', rfl⟩ : ∃ fuel', fuel = fuel' + 1 := by
      rw [hs, length_append, length_cons] at hfuel
      exact ⟨fuel - 1, by omega⟩
    rw [hs, evalCond, hfind']
    simp only [hget, if_true, take_left]
    rw [evalCond, hfind]
    exact (evalLoop_congr _ _).trans (hread hface)

theorem evalCond_text (fuel : Nat) (hl : Clean text l) (hfuel : (lineText text l).length < fuel) :
    evalCond reg row fuel (lineText text l) = read (segValue text reg row) l := by
  induction fuel generalizing l with
  | zero => cases hfuel
  | succ fuel ih =>
    rcases Nat.eq_zero_or_pos l.head.opens with hopens | hopens
    · exact evalCond_of_opens_eq_zero (fun l hl hlt => ih hl hlt) hl (Nat.le_of_lt_succ hfuel) hopens
    obtain ⟨l', rfl, hatoms⟩ := exists_opening hopens
    have hl' : Clean text l' := fun a ha => hl a (hatoms ▸ ha)
    rw [lineText_opening, length_cons] at hfuel
    have hhead : (lineText text l').head? ≠ some ')' := head_lineText hl'
    rw [lineText_opening, read_opening, evalCond]
    show (evalCond reg row fuel (lineText text l')).bind _ = _
    rw [ih hl' (by omega)]
    congr 1
    funext cond
    have hnext := getNextOperator_lineText hl'
    cases hop : afterOp l' with
    | none =>
      rw [hop] at hnext
      rw [readAfter_of_none hop]
      simp only [drop_succ_cons, drop_zero, if_neg hhead, hnext, reduceCtorEq, if_false, if_true]
    | some opr =>
      rw [hop] at hnext
      obtain ⟨u, v, htext, hu, hv, hnext, hspecial⟩ := hnext
      have hne : opr.1 ≠ .special ∧ opr.1 ≠ .none := by rcases hspecial with h | h <;> rw [h] <;> decide
      have hdrop : (lineText text l').drop (u.length + v.length) = lineText text opr.2 := by
        rw [htext, ← length_append, drop_left]
      have hlt : (lineText text opr.2).length < fuel := by
        rw [htext] at hfuel
        simp only [length_append] at hfuel
        omega
      have hrest := ih (l := opr.2) (fun a ha => hl' a (mem_atoms_of_afterOp hop ha)) hlt
      rw [readAfter_of_some hop]
      simp only [drop_succ_cons, drop_zero, if_neg hhead, hnext, if_neg hne.1, if_neg hne.2, hdrop, hrest]

end Parens

end Pequin.Sql
