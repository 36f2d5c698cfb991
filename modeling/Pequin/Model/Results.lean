import Pequin.Model.Reads
import Pequin.Model.SqlInterpreter

/-!
# Results of queries

`TransformResult` of the table store and `get_result` of `query_result_proto_builder.cc`, up to the serialization. The
list of values that the source cuts into rows comes as these rows.
-/

namespace Pequin

def orderHook : Sql.Text := " ORDER BY".toList

/-- The source asserts that no row is shorter. -/
def orderRowsByCol : List Bytes → List Bytes → Bool
  | _, [] => false
  | [], _ :: _ => true
  | l :: ls, r :: rs => if l < r then true else if r < l then false else orderRowsByCol ls rs

def getResult (columnNames : List Bytes) (rows : List (List Bytes)) (sort : Bool) : SQLResult where
  columnNames := columnNames
  rows := (if sort then rows.insertionSort fun l r => orderRowsByCol r l = false else rows).map (·.map some)

def transformResult (queryString : Sql.Text) (tupleDescriptor : List Bytes) (result : List (List Bytes)) : SQLResult :=
  let alreadySorted := (Search.find orderHook queryString).isSome
  getResult tupleDescriptor result !alreadySorted

end Pequin
