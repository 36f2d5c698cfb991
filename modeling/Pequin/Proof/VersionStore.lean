import Pequin.Model.VersionStore

/-!
# Last reads

No call creates an entry of `lastReads`, and `commitGet` replaces only entries that are there.
-/

namespace Pequin.VersionedKVStore

variable {T V : Type} [LinearOrder T] {s : VersionedKVStore T V}

/-- The commits of the reads that find the version `w` of the key. -/
def reads (key : Bytes) (w : T) : VersionedKVStore T V → List (Call T V) → List T
  | _, [] => []
  | s, .put k v t :: calls => reads key w (s.put k v t) calls
  | s, .commitGet k r c :: calls =>
    (if k = key ∧ (s.getValue k r).any (·.1 = w) then [c] else []) ++ reads key w (s.commitGet k r c) calls

theorem call_lastReads (h : s.lastReads = fun _ _ => none) (c : Call T V) : (s.call c).lastReads = fun _ _ => none := by
  cases c with
  | put key value t => exact h
  | commitGet key readTime commit =>
    simp only [call, commitGet, h]
    split
    · split
      · exact h
      · simpa using h
    · exact h

theorem foldl_lastReads (h : s.lastReads = fun _ _ => none) (calls : List (Call T V)) :
    (calls.foldl call s).lastReads = fun _ _ => none := by
  induction calls generalizing s with
  | nil => exact h
  | cons c calls ih => exact ih (call_lastReads h c)

/-- The last read of a version is right exactly if nothing has read it. -/
theorem last_read_iff (calls : List (Call T V)) (key : Bytes) (t : T) (v : T × V)
    (hv : (calls.foldl call {}).getValue key t = some v) :
    (calls.foldl call {}).getLastRead key t = (reads key v.1 {} calls).max? ↔ reads key v.1 {} calls = [] := by
  have hnone : (calls.foldl call {}).getLastRead key t = none := by simp [getLastRead, hv, foldl_lastReads]
  rw [hnone, eq_comm, List.max?_eq_none_iff]

/-- The read that commits at 9 has found the version 3, and the version 7 is unread. -/
theorem last_read_iff_unread :
    getLastRead (V := Nat) (commitGet (put (put {} [1] 0 3) [1] 5 7) [1] 4 9) [1] 8 = none :=
  (last_read_iff [.put [1] 0 3, .put [1] 5 7, .commitGet [1] 4 9] [1] 8 (7, 5) (by decide)).mpr (by decide)

/-- A read of the version 3 that commits at 9 is not noticed. -/
theorem lost_read : getLastRead (V := Nat) (commitGet (put {} [1] 0 3) [1] 4 9) [1] 4 = none ∧
    reads [1] 3 {} [.put [1] 0 3, .commitGet [1] 4 9] = [9] := by
  decide

end Pequin.VersionedKVStore
