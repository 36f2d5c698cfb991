import Pequin.Framework.Search

/-!
# The SQL interpreter

`SQLTransformer` takes the conditions of statements apart by searching their texts for operators and parentheses.
`EvalPred` is the value of a condition for a row. A text is the list of its characters. A `Panic`, and what goes on to
read past the end of a text, are `none`.

Recursion goes to parts of the text, so the length of the text bounds its depth (`fuel`).
-/

namespace Pequin.Sql

abbrev Text := List Char

/-- The maps are functions. -/
structure ColRegistry where
  colNameType : Text → Option Text
  colNameIndex : Text → Option Nat
  colNames : List Text
  colQuotes : List Bool
  primaryKeyColsIdx : List (Text × Nat)

/-- The types of columns whose values are quoted. -/
def isQuoted (type : Text) : Bool := type = "TEXT".toList || type = "VARCHAR".toList

namespace ColRegistry

def empty : ColRegistry where
  colNameType := fun _ => none
  colNameIndex := fun _ => none
  colNames := []
  colQuotes := []
  primaryKeyColsIdx := []

/-- One column of `RegisterTables`. -/
def registerColumn (reg : ColRegistry) (col : Text × Text) : ColRegistry :=
  { reg with
    colNameType := Function.update reg.colNameType col.1 (some col.2)
    colNameIndex := Function.update reg.colNameIndex col.1 (some reg.colNames.length)
    colNames := reg.colNames ++ [col.1]
    colQuotes := reg.colQuotes ++ [isQuoted col.2] }

/-- `RegisterTables`, for one table. An index that is out of range is undefined behaviour, and left out here. -/
def register (columns : List (Text × Text)) (primaryKeyColIdx : List Nat) : ColRegistry :=
  let reg := columns.foldl registerColumn empty
  { reg with primaryKeyColsIdx := primaryKeyColIdx.filterMap fun i => (reg.colNames[i]?).map (·, i) }

end ColRegistry

/-- `op_t`. -/
inductive Op where
  | start
  | none
  | and
  | or
  | special
  deriving DecidableEq, Repr

def andHook : Text := " AND ".toList
def orHook : Text := " OR ".toList
def inHook : Text := " IN ".toList
def betweenHook : Text := " BETWEEN ".toList

/-- The operator, its position and the position after it. -/
def getNextOperator (t : Text) : Op × Nat × Nat :=
  match Search.find andHook t with
  | some pos => (.and, pos, pos + andHook.length)
  | none =>
    match Search.find orHook t with
    | some pos => (.or, pos, pos + orHook.length)
    | none =>
      match Search.find inHook t with
      | some pos => (.special, pos, pos + inHook.length)
      | none =>
        match Search.find betweenHook t with
        | some pos => (.special, pos, pos + betweenHook.length)
        | none => (.none, t.length, 0)

def isParen (c : Char) : Bool := c = '(' || c = ')'

def combine (op : Op) (left right : Bool) : Option Bool :=
  match op with
  | .start => some right
  | .and => some (left && right)
  | .or => some (left || right)
  | .none => none
  | .special => none

/-- The number at the beginning of a text, after its sign. -/
def stodDigits (negative : Bool) (t : Text) : Option Int :=
  let digits := t.takeWhile Char.isDigit
  let rest := t.dropWhile Char.isDigit
  let n := Nat.ofDigitChars 10 digits 0
  if digits = [] || rest.head?.any (· ∈ ['.', 'e', 'E', 'x', 'X']) || 2 ^ 53 < n then none
  else some (if negative then -n else n)

/-- `std::stod`, which ignores what follows the number. Numbers that are no integers, or are not exact as a `double`,
are left out. -/
def stod (t : Text) : Option Int :=
  match t.dropWhile Char.isWhitespace with
  | '-' :: t => stodDigits true t
  | '+' :: t => stodDigits false t
  | t => stodDigits false t

/-- The comparisons of `EvalColCondition` on numbers. -/
def compareNumbers (op : Text) (row pred : Int) : Option Bool :=
  if op = "=".toList then some (row = pred)
  else if op = "!=".toList then some (row ≠ pred)
  else if op = "<".toList then some (row < pred)
  else if op = ">".toList then some (row > pred)
  else if op = "<=".toList then some (row ≤ pred)
  else if op = ">=".toList then some (row ≥ pred)
  else none

/-- The comparisons of `EvalColCondition` on texts. -/
def compareTexts (op row pred : Text) : Option Bool :=
  if op = "=".toList then some (pred = row)
  else if op = "!=".toList then some (pred ≠ row)
  else none

/-- Positions before the beginning of the text wrap around. -/
def evalColCondition (reg : ColRegistry) (row : List Text) (t : Text) : Option Bool :=
  match t.findIdx? (· ∈ ['=', '!', '<', '>']) with
  | none => none
  | some pos =>
    let opStatement := t.drop pos
    let (op, right) :=
      match opStatement.findIdx? (· = ' ') with
      | some n => (opStatement.take n, opStatement.drop (n + 1))
      | none => (opStatement, opStatement)
    let left := if pos = 0 then t else t.take (pos - 1)
    if left = right then some true
    else
      (reg.colNameIndex left).bind fun idx =>
        (row[idx]?).bind fun value =>
          (reg.colNameType left).bind fun type =>
            if isQuoted type then compareTexts op value right
            else (stod value).bind fun rowVal => (stod right).bind fun predVal => compareNumbers op rowVal predVal

/-- The loop of the base case of `EvalCond`: comparisons up to the first parenthesis, at `pos`. If the next operator is
beyond it, the rest from the parenthesis on is evaluated on its own. -/
def evalLoop (reg : ColRegistry) (row : List Text) (evalCond : Text → Option Bool) :
    Nat → Option Nat → Op → Bool → Text → Option Bool
  | 0, _, _, _, _ => none
  | fuel + 1, pos, op, curr, t =>
    let (next, opPos, opPosPost) := getNextOperator t
    if next = .special then none
    else
      match pos.filter (· < opPos) with
      | some pos => (evalCond (t.drop pos)).bind fun cond => combine op curr cond
      | none =>
        (evalColCondition reg row (t.take opPos)).bind fun cond =>
          (combine op curr cond).bind fun curr =>
            if next = .none then some curr
            else evalLoop reg row evalCond fuel (pos.map (· - opPosPost)) next curr (t.drop opPosPost)

/-- The assignment to `end` comes after a `return`, so it stays 0. -/
def evalCond (reg : ColRegistry) (row : List Text) : Nat → Text → Option Bool
  | 0, _ => none
  | fuel + 1, t =>
    match t.findIdx? isParen with
    | none => evalLoop reg row (evalCond reg row fuel) (t.length + 1) none .start false t
    | some pos =>
      if t[pos]? = some ')' then evalCond reg row fuel (t.take pos)
      else if 0 < pos then evalLoop reg row (evalCond reg row fuel) (t.length + 1) (some pos) .start false t
      else
        let t := t.drop 1
        (evalCond reg row fuel t).bind fun cond =>
          if t.head? = some ')' then some cond
          else
            let (next, _, opPosPost) := getNextOperator t
            if next = .special then none
            else if next = .none then some cond
            else (evalCond reg row fuel (t.drop opPosPost)).bind fun right => combine next cond right

def evalPred (reg : ColRegistry) (pred : Text) (row : List Text) : Option Bool :=
  evalCond reg row (pred.length + 1) pred

end Pequin.Sql
