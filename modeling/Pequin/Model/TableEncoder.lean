import Pequin.Framework.Search
import Pequin.Model.Types

/-!
# Keys of rows

`table_kv_encoder.cc`. The key of a row is the number of its table and the values of its primary key, each behind a
delimiter; the number alone is the key of the table version. Tables are numbered as they are met.
-/

namespace Pequin

open Function

/-- `unique_delimiter`. -/
def delimiter : UInt8 := 35

/-- `std::to_string`. -/
def decimal (n : Nat) : Bytes := (Nat.toDigits 10 n).map fun c => UInt8.ofNat c.toNat

structure TableEncoder where
  nameToNumerics : Bytes → Option Nat := fun _ => none
  /-- The size of this map. -/
  size : Nat := 0
  numericsToName : Bytes → Option Bytes := fun _ => none

namespace TableEncoder

variable (s : TableEncoder)

def encodeTable (name : Bytes) : TableEncoder × Bytes :=
  match s.nameToNumerics name with
  | some n => (s, decimal n)
  | none =>
    ⟨⟨update s.nameToNumerics name (some s.size), s.size + 1, update s.numericsToName (decimal s.size) (some name)⟩,
      decimal s.size⟩

def encodeTableRow (name : Bytes) (values : List Bytes) : TableEncoder × Bytes :=
  ((s.encodeTable name).1, values.foldl (fun encoding v => encoding ++ delimiter :: v) (s.encodeTable name).2)

/-- The loop of `DecodeTableRow`, on what is left of the key. -/
def splitValues : Nat → Bytes → List Bytes
  | 0, key => [key]
  | fuel + 1, key =>
    match Search.find [delimiter] key with
    | none => [key]
    | some next => key.take next :: splitValues fuel (key.drop (next + 1))

/-- `DecodeTableRow` with `DecodeTable`: no delimiter or an unknown number end the process. -/
def decodeTableRow (key : Bytes) : Option (Bytes × List Bytes) :=
  match Search.find [delimiter] key with
  | none => none
  | some pos =>
    (s.numericsToName (key.take pos)).map fun name => (name, splitValues key.length (key.drop (pos + 1)))

/-- The tables that are met, one after the other. -/
def register (names : List Bytes) : TableEncoder := names.foldl (fun s name => (s.encodeTable name).1) s

/-- The key of a row after some tables were met. Without values it is the key of the table version. -/
def rowKey (names : List Bytes) (table : Bytes) (values : List Bytes) : Bytes :=
  ((({} : TableEncoder).register names).encodeTableRow table values).2

end TableEncoder

end Pequin
