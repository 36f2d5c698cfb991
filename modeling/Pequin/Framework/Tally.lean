import Mathlib.Data.List.Nodup
import Mathlib.Data.List.Perm.Subperm

/-!
# Ballots of distinct voters

A collector keeps ballots, each cast by one voter, and takes one only from a voter that it has not heard from.
-/

namespace Tally

open List

variable {V B : Type*}

/-- `q` ballots with the property `P`, of distinct voters. -/
def Attained (voter : B → V) (P : B → Prop) (q : Nat) : Prop :=
  ∃ l : List B, (l.map voter).Nodup ∧ (∀ b ∈ l, P b) ∧ q ≤ l.length

/-- The ballots `l`, kept by a collector that has heard from `heard`. -/
structure Kept (voter : B → V) (P : B → Prop) (heard : List V) (l : List B) : Prop where
  nodup : (l.map voter).Nodup
  heard : ∀ b ∈ l, voter b ∈ heard
  proper : ∀ b ∈ l, P b

variable {voter : B → V} {P P' : B → Prop} {heard : List V} {l : List B} {q : Nat}

namespace Kept

theorem nil (heard : List V) : Kept voter P heard [] where
  nodup := nodup_nil
  heard _ h := by cases h
  proper _ h := by cases h

theorem hear (h : Kept voter P heard l) (v : V) : Kept voter P (v :: heard) l where
  nodup := h.nodup
  heard b hb := mem_cons_of_mem v (h.heard b hb)
  proper := h.proper

theorem cast (h : Kept voter P heard l) {b : B} (hb : P b) (hnew : voter b ∉ heard) :
    Kept voter P (voter b :: heard) (l ++ [b]) where
  nodup := by
    rw [map_append, map_singleton, nodup_append]
    refine ⟨h.nodup, nodup_singleton _, fun v hv w hw => ?_⟩
    obtain ⟨b', hb', rfl⟩ := mem_map.mp hv
    rw [mem_singleton.mp hw]
    exact fun e => hnew (e ▸ h.heard b' hb')
  heard b' hb' := by
    rcases mem_append.mp hb' with hb' | hb'
    · exact mem_cons_of_mem _ (h.heard b' hb')
    · rw [mem_singleton.mp hb']
      exact mem_cons_self
  proper b' hb' := by
    rcases mem_append.mp hb' with hb' | hb'
    · exact h.proper b' hb'
    · exact mem_singleton.mp hb' ▸ hb

theorem own (h : Kept voter P heard l) : Kept voter P (l.map voter) l where
  nodup := h.nodup
  heard _ hb := mem_map_of_mem hb
  proper := h.proper

theorem attained (h : Kept voter P heard l) (hq : q ≤ l.length) : Attained voter P q :=
  ⟨l, h.nodup, h.proper, hq⟩

end Kept

theorem attained_filter {f : B → Bool} (hnd : (l.map voter).Nodup) (hP : ∀ b ∈ l, f b = true → P b)
    (hq : q ≤ (l.filter f).length) : Attained voter P q := by
  refine ⟨l.filter f, hnd.sublist (filter_sublist.map voter), fun b hb => ?_, hq⟩
  obtain ⟨hmem, hf⟩ := mem_filter.mp hb
  exact hP b hmem hf

theorem Attained.mono (h : Attained voter P q) (hP : ∀ b, P b → P' b) : Attained voter P' q := by
  obtain ⟨l, hnd, hp, hq⟩ := h
  exact ⟨l, hnd, fun b hb => hP b (hp b hb), hq⟩

/-- There are no more such ballots than voters. -/
theorem Attained.le_length (h : Attained voter P q) {vs : List V} (hv : ∀ b, P b → voter b ∈ vs) : q ≤ vs.length := by
  obtain ⟨l, hnd, hP, hq⟩ := h
  have hsub : l.map voter ⊆ vs := by
    intro v hm
    obtain ⟨b, hb, rfl⟩ := mem_map.mp hm
    exact hv b (hP b hb)
  have hle := (subperm_of_subset hnd hsub).length_le
  rw [length_map] at hle
  exact Nat.le_trans hq hle

end Tally
