import Mathlib.Data.Finset.Card

/-!
# Quorums with faulty members

A statement `P` about processes is attested by `q` members of a finite set if there are `q` members of which every one
is faulty or satisfies `P`.

* `Attested.exists_correct`: more attesters than faults include a correct one;
* `Attested.meet`: two large quorums share a correct member.
-/

namespace Quorum

open List

variable {α : Type*}

/-- `q` members of `S` are each faulty or satisfy `P`. -/
def Attested (S : Finset α) (faulty : α → Prop) (P : α → Prop) (q : Nat) : Prop :=
  ∃ Q ⊆ S, q ≤ Q.card ∧ ∀ r ∈ Q, faulty r ∨ P r

namespace Attested

variable {S : Finset α} {faulty P P' : α → Prop} {q q' f : Nat}

theorem mono (h : Attested S faulty P q) (hq : q' ≤ q) (hP : ∀ r ∈ S, ¬ faulty r → P r → P' r) :
    Attested S faulty P' q' := by
  obtain ⟨Q, hQ, hcard, hall⟩ := h
  refine ⟨Q, hQ, hq.trans hcard, fun r hr => ?_⟩
  by_cases hf : faulty r
  · exact .inl hf
  · exact .inr (hP r (hQ hr) hf ((hall r hr).resolve_left hf))

variable [DecidableEq α]

theorem of_list {l : List α} (hnd : l.Nodup) (hS : ∀ r ∈ l, r ∈ S) (hP : ∀ r ∈ l, faulty r ∨ P r)
    (hq : q ≤ l.length) : Attested S faulty P q := by
  refine ⟨l.toFinset, fun r hr => hS r (mem_toFinset.mp hr), ?_, fun r hr => hP r (mem_toFinset.mp hr)⟩
  rw [toFinset_card_of_nodup hnd]
  exact hq

variable [DecidablePred faulty]

theorem meet (hf : (S.filter faulty).card ≤ f) (h : Attested S faulty P q)
    (h' : Attested S faulty P' q') (hq : S.card + f < q + q') : ∃ r ∈ S, ¬ faulty r ∧ P r ∧ P' r := by
  obtain ⟨Q, hQ, hcard, hall⟩ := h
  obtain ⟨Q', hQ', hcard', hall'⟩ := h'
  have hunion : (Q ∪ Q').card ≤ S.card := Finset.card_le_card (Finset.union_subset hQ hQ')
  have hsum := Finset.card_union_add_card_inter Q Q'
  have hlt : (S.filter faulty).card < (Q ∩ Q').card := by omega
  obtain ⟨r, hr, hgood⟩ := Finset.exists_mem_notMem_of_card_lt_card hlt
  obtain ⟨hrQ, hrQ'⟩ := Finset.mem_inter.mp hr
  have hcorrect : ¬ faulty r := fun hbad => hgood (Finset.mem_filter.mpr ⟨hQ hrQ, hbad⟩)
  exact ⟨r, hQ hrQ, hcorrect, (hall r hrQ).resolve_left hcorrect, (hall' r hrQ').resolve_left hcorrect⟩

theorem exists_correct (hf : (S.filter faulty).card ≤ f) (h : Attested S faulty P q) (hq : f < q) :
    ∃ r ∈ S, ¬ faulty r ∧ P r := by
  have hall : Attested S faulty (fun _ => True) S.card := ⟨S, le_refl S, le_refl _, fun _ _ => .inr trivial⟩
  obtain ⟨r, hr, hc, hP, -⟩ := meet hf h hall (by omega)
  exact ⟨r, hr, hc, hP⟩

end Attested

end Quorum
