import Mathlib.Algebra.Order.Ring.Int
import Mathlib.Order.Basic

/-!
# Multi-version histories

Transactions that take place at given times, read versions of objects and write new ones. A version is named by the
time of its writer. A transaction misses a version if it has read an older one and the missed one was written before it
(`Misses`). If none does, and each reads versions that were written, the transactions may be run one after the other in
the order of their times (`serial_of_not_misses`).
-/

namespace Multiversion

open List

variable {κ τ : Type*} [DecidableEq κ] [LinearOrder τ]

/-- A transaction: its time, the objects it reads and the versions it finds, and the objects it
writes. -/
structure Txn (κ τ : Type*) where
  time : τ
  reads : List (κ × τ)
  writes : List κ

/-- `r` reads version `v` of `k`, and `w` writes a later one before `r`. -/
structure Misses (r w : Txn κ τ) (k : κ) (v : τ) : Prop where
  reads : (k, v) ∈ r.reads
  writes : k ∈ w.writes
  after : v < w.time
  before : w.time < r.time

/-- The current versions after a transaction. -/
def install (s : κ → τ) (t : Txn κ τ) : κ → τ := fun k => if k ∈ t.writes then t.time else s k

/-- One transaction after the other: each finds the current versions. -/
def Serial : (κ → τ) → List (Txn κ τ) → Prop
  | _, [] => True
  | s, t :: l => (∀ x ∈ t.reads, s x.1 = x.2) ∧ Serial (install s t) l

/-- The version was there at the start, or is written in `l` before `t`. -/
def Written (s : κ → τ) (l : List (Txn κ τ)) (t : Txn κ τ) (x : κ × τ) : Prop :=
  x.2 = s x.1 ∨ ∃ w ∈ l, x.1 ∈ w.writes ∧ w.time = x.2 ∧ w.time < t.time

instance (s : κ → τ) (l : List (Txn κ τ)) (t : Txn κ τ) (x : κ × τ) : Decidable (Written s l t x) := by
  unfold Written; infer_instance

variable {s : κ → τ} {l : List (Txn κ τ)}

omit [LinearOrder τ] in
theorem serial_of_forall (h : ∀ p t q, l = p ++ t :: q → ∀ x ∈ t.reads, p.foldl install s x.1 = x.2) : Serial s l := by
  induction l generalizing s with
  | nil => trivial
  | cons t l ih =>
    refine ⟨h [] t l rfl, ih fun p t' q heq => ?_⟩
    exact h (t :: p) t' q (by rw [heq, cons_append])

/-- The current version of an object is the one at the start, or that of its last writer. -/
theorem foldl_install (hs : l.Pairwise fun a b => a.time < b.time) (k : κ) :
    (l.foldl install s k = s k ∧ ∀ w ∈ l, k ∉ w.writes) ∨
      ∃ w ∈ l, k ∈ w.writes ∧ l.foldl install s k = w.time ∧ ∀ w' ∈ l, k ∈ w'.writes → w'.time ≤ w.time := by
  induction l generalizing s with
  | nil => exact .inl ⟨rfl, nofun⟩
  | cons t l ih =>
    rw [pairwise_cons] at hs
    rw [foldl_cons]
    rcases ih (s := install s t) hs.2 with ⟨heq, hnone⟩ | ⟨w, hw, hk, heq, hlast⟩
    · by_cases hk : k ∈ t.writes
      · refine .inr ⟨t, mem_cons_self, hk, by rw [heq, install, if_pos hk], fun w hw hkw => ?_⟩
        rcases mem_cons.mp hw with rfl | hw
        · exact le_refl _
        · exact absurd hkw (hnone w hw)
      · refine .inl ⟨by rw [heq, install, if_neg hk], fun w hw => ?_⟩
        rcases mem_cons.mp hw with rfl | hw
        · exact hk
        · exact hnone w hw
    · refine .inr ⟨w, mem_cons_of_mem _ hw, hk, heq, fun w' hw' hkw' => ?_⟩
      rcases mem_cons.mp hw' with rfl | hw'
      · exact (hs.1 w hw).le
      · exact hlast w' hw' hkw'

theorem serial_of_not_misses (hs : l.Pairwise fun a b => a.time < b.time)
    (hstart : ∀ k, ∀ w ∈ l, s k < w.time) (hmiss : ∀ r ∈ l, ∀ w ∈ l, ∀ k v, ¬ Misses r w k v)
    (hwritten : ∀ t ∈ l, ∀ x ∈ t.reads, Written s l t x) : Serial s l := by
  refine serial_of_forall fun p t q hl x hx => ?_
  have ht : t ∈ l := by rw [hl]; exact mem_append_right _ mem_cons_self
  have hp : ∀ w ∈ p, w ∈ l := fun w hw => by rw [hl]; exact mem_append_left _ hw
  rw [hl, pairwise_append, pairwise_cons] at hs
  obtain ⟨hsp, ⟨hafter, -⟩, hbefore⟩ := hs
  -- what comes before has not overtaken the version read
  have hle : ∀ w ∈ p, x.1 ∈ w.writes → w.time ≤ x.2 := fun w hw hk => by
    by_contra hlt
    exact hmiss t ht w (hp w hw) x.1 x.2 ⟨hx, hk, not_le.mp hlt, hbefore w hw t mem_cons_self⟩
  rcases foldl_install hsp x.1 with ⟨heq, hnone⟩ | ⟨w, hw, hk, heq, hlast⟩
  · rcases hwritten t ht x hx with hinit | ⟨w, hw, hk, -, hlt⟩
    · rw [heq, hinit]
    -- a writer before `t` comes before it in the list
    rw [hl, mem_append, mem_cons] at hw
    rcases hw with hw | rfl | hw
    · exact absurd hk (hnone w hw)
    · exact absurd hlt (lt_irrefl _)
    · exact absurd (hafter w hw) hlt.not_gt
  · rw [heq]
    refine le_antisymm (hle w hw hk) ?_
    rcases hwritten t ht x hx with hinit | ⟨w', hw', hk', heq', hlt⟩
    · rw [hinit]
      exact (hstart x.1 w (hp w hw)).le
    rw [← heq']
    rw [hl, mem_append, mem_cons] at hw'
    rcases hw' with hw' | rfl | hw'
    · exact hlast w' hw' hk'
    · exact absurd hlt (lt_irrefl _)
    · exact absurd (hafter w' hw') hlt.not_gt

end Multiversion
