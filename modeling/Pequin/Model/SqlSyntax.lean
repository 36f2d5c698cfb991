import Pequin.Framework.Infix
import Pequin.Model.SqlInterpreter

/-!
# Conditions in SQL

What a condition says, and how it is written: the abstract side of the interpreter. A table has columns of integers and
of texts, and a condition is a formula of comparisons of a column with a literal.
-/

namespace Pequin.Sql

open Infix

variable {α : Type*}

/-- The words that are operators for the interpreter. -/
def operatorWords : List Text := ["AND".toList, "OR".toList, "IN".toList, "BETWEEN".toList]

/-- How a condition is written. -/
def print (text : α → Text) : Formula α → Text
  | .atom a => text a
  | .paren c => '(' :: (print text c ++ [')'])
  | .and l r =>
    (if l.isOr then '(' :: (print text l ++ [')']) else print text l) ++ andHook ++
      (if r.isOr then '(' :: (print text r ++ [')']) else print text r)
  | .or l r => print text l ++ orHook ++ print text r

inductive Value where
  | int (n : Int)
  | text (t : Text)
  deriving DecidableEq, Repr

def printInt : Int → Text
  | .ofNat n => Nat.toDigits 10 n
  | .negSucc n => '-' :: Nat.toDigits 10 (n + 1)

def Value.print : Value → Text
  | int n => printInt n
  | text t => t

/-- The integers that are exact as a `double`. -/
def IsExact (n : Int) : Prop := n.natAbs ≤ 2 ^ 53
  deriving Decidable

/-- The values of a column. -/
def Value.Fits (type : Text) : Value → Prop
  | int n => isQuoted type = false ∧ IsExact n
  | text _ => isQuoted type = true

/-- The names of columns: words that are neither operators nor numbers. -/
structure IsName (t : Text) : Prop where
  ne_nil : t ≠ []
  chars : ∀ c ∈ t, c ∉ [' ', '(', ')', '=', '!', '<', '>']
  head : ∀ c, t.head? = some c → c ≠ '-' ∧ c.isDigit = false
  notMem : t ∉ operatorWords

structure Table where
  /-- The names and types of the columns. -/
  columns : List (Text × Text)
  primaryKey : List Nat
  nodup : (columns.map Prod.fst).Nodup
  isName : ∀ col ∈ columns, IsName col.1

namespace Table

def names (T : Table) : List Text := T.columns.map Prod.fst

def registry (T : Table) : ColRegistry := .register T.columns T.primaryKey

end Table

structure Row (T : Table) where
  values : List Value
  fits : List.Forall₂ (fun col value => value.Fits col.2) T.columns values

namespace Row

variable {T : Table}

/-- `column_values`. -/
def texts (row : Row T) : List Text := row.values.map Value.print

def get (row : Row T) (col : Text) : Option Value := row.values[T.names.idxOf col]?

end Row

inductive CmpOp where
  | eq
  | ne
  | lt
  | gt
  | le
  | ge
  deriving DecidableEq, Repr

namespace CmpOp

def text : CmpOp → Text
  | eq => "=".toList
  | ne => "!=".toList
  | lt => "<".toList
  | gt => ">".toList
  | le => "<=".toList
  | ge => ">=".toList

def holds (op : CmpOp) (n m : Int) : Bool :=
  match op with
  | eq => n = m
  | ne => n ≠ m
  | lt => n < m
  | gt => n > m
  | le => n ≤ m
  | ge => n ≥ m

end CmpOp

/-- A comparison of a column with a literal: an integer, or a text that is equal or, if `negated`, is not. -/
inductive Comparison where
  | int (col : Text) (op : CmpOp) (n : Int)
  | text (col : Text) (negated : Bool) (t : Text)
  deriving DecidableEq, Repr

namespace Comparison

/-- How a comparison is written in a predicate, without quotes. -/
def print : Comparison → Text
  | int col op n => col ++ ' ' :: (op.text ++ ' ' :: printInt n)
  | text col negated t => col ++ ' ' :: ((if negated then CmpOp.ne else CmpOp.eq).text ++ ' ' :: t)

/-- A text without operator words or parentheses. -/
structure IsPlainText (t : Text) : Prop where
  notMem : ∀ w ∈ t.splitOn ' ', w ∉ operatorWords
  paren : ∀ c ∈ t, isParen c = false

/-- The comparisons of a table's columns. -/
def Fits (T : Table) : Comparison → Prop
  | int col _ n => (∃ type, (col, type) ∈ T.columns ∧ isQuoted type = false) ∧ IsExact n
  | text col _ t => (∃ type, (col, type) ∈ T.columns ∧ isQuoted type = true) ∧ IsPlainText t

/-- A text that is the name of the column it is compared with. -/
def isReflexive : Comparison → Bool
  | int _ _ _ => false
  | text col _ t => col = t

def holds {T : Table} (row : Row T) : Comparison → Bool
  | int col op n =>
    match row.get col with
    | some (.int m) => op.holds m n
    | _ => false
  | text col negated t =>
    match row.get col with
    | some (.text u) => (u = t) != negated
    | _ => false

end Comparison

end Pequin.Sql
