import Mathlib.Data.List.MinMax
import Pequin.Framework.Versions
import Pequin.Model.Types

/-!
# The version store

`VersionedKVStore` of `versionstore.h`: the versions of each key, and for each of them the last committed read.
-/

namespace Pequin

open Function

/-- The maps of the store. A key without an entry has no versions, or no reads. -/
structure VersionedKVStore (T V : Type) where
  store : Bytes → List (T × V) := fun _ => []
  lastReads : Bytes → T → Option T := fun _ _ => none

/-- The calls that change the store. -/
inductive VersionedKVStore.Call (T V : Type) where
  | put (key : Bytes) (value : V) (t : T)
  | commitGet (key : Bytes) (readTime commit : T)

namespace VersionedKVStore

variable {T V : Type} [LinearOrder T] (s : VersionedKVStore T V)

def inStore (key : Bytes) : Bool := !(s.store key).isEmpty

/-- The version before `upper_bound`: the latest one up to the time. -/
def getValue (key : Bytes) (t : T) : Option (T × V) := ((s.store key).filter (·.1 ≤ t)).argmax Prod.fst

def put (key : Bytes) (value : V) (t : T) : VersionedKVStore T V :=
  { s with store := update s.store key (Versions.insertNew t value (s.store key)) }

/-- Only an entry that is there is replaced. -/
def commitGet (key : Bytes) (readTime commit : T) : VersionedKVStore T V :=
  if s.inStore key then
    match s.getValue key readTime with
    | none => s
    | some v =>
      if (s.lastReads key v.1).any (· < commit) then
        { s with lastReads := update s.lastReads key (update (s.lastReads key) v.1 (some commit)) }
      else s
  else s

/-- `getLastRead` at a time; `none` is `false`. Without a version at the time the source reads past the end. -/
def getLastRead (key : Bytes) (t : T) : Option T :=
  if s.inStore key then (s.getValue key t).bind fun v => s.lastReads key v.1 else none

def call : Call T V → VersionedKVStore T V
  | .put key value t => s.put key value t
  | .commitGet key readTime commit => s.commitGet key readTime commit

end VersionedKVStore

end Pequin
