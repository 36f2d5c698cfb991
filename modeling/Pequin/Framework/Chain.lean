import Mathlib.Algebra.Order.Ring.Int
import Mathlib.Order.Basic

/-!
# Chains in descending order

Lists of entries that have times, the latest first. Of several entries with one time the first counts.
-/

namespace Chain

open List

variable {τ α : Type*} [LinearOrder τ] {time : α → τ}

/-- The latest entry is first. -/
def Descending (time : α → τ) (l : List α) : Prop := l.Pairwise fun a b => time b ≤ time a

/-- The entries of a time. -/
def group (time : α → τ) (t : τ) (l : List α) : List α := l.filter fun a => time a = t

/-- Insertion at the place of the time. Unless `replace` is set, nothing happens if the time is taken. -/
def link (time : α → τ) (replace : Bool) (a : α) : List α → List α
  | [] => [a]
  | b :: l =>
    if time a < time b then b :: link time replace a l
    else if time b < time a || replace then a :: b :: l
    else b :: l

/-- The latest entry up to a time that has a property. -/
def latest (time : α → τ) (p : α → Bool) (t : τ) (l : List α) : Option α := l.find? fun a => time a ≤ t && p a

variable {t : τ} {a b : α} {l l' : List α} {p : α → Bool} {replace : Bool}

theorem group_cons_self (h : time a = t) : group time t (a :: l) = a :: group time t l := by
  simp [group, h]

theorem group_cons_of_ne (h : time a ≠ t) : group time t (a :: l) = group time t l := by
  simp [group, h]

theorem group_append (t : τ) (l l' : List α) : group time t (l ++ l') = group time t l ++ group time t l' :=
  filter_append ..

theorem mem_group : a ∈ group time t l ↔ a ∈ l ∧ time a = t := by
  simp [group]

theorem Descending.group_eq_nil (h : Descending time (a :: l)) (ht : time a < t) : group time t (a :: l) = [] := by
  rw [group, filter_eq_nil_iff]
  intro b hb
  rcases mem_cons.mp hb with rfl | hb
  · simpa using ht.ne
  · have hle := (pairwise_cons.mp h).1 b hb
    simpa using (lt_of_le_of_lt hle ht).ne

theorem Descending.of_sublist (h : Descending time l) (hsub : l'.map time <+ l.map time) : Descending time l' := by
  have hl : (l.map time).Pairwise fun s t => t ≤ s := pairwise_map.mpr h
  exact pairwise_map.mp (hl.sublist hsub)

theorem mem_link (h : b ∈ link time replace a l) : b = a ∨ b ∈ l := by
  induction l with
  | nil => exact .inl (mem_singleton.mp h)
  | cons c l ih =>
    rw [link] at h
    split_ifs at h
    · rcases mem_cons.mp h with rfl | h
      · exact .inr mem_cons_self
      · exact (ih h).imp_right (mem_cons_of_mem c)
    · exact mem_cons.mp h
    · exact .inr h

theorem Descending.link (h : Descending time l) (replace : Bool) (a : α) : Descending time (link time replace a l) := by
  induction l with
  | nil => exact pairwise_singleton _ _
  | cons b l ih =>
    obtain ⟨hb, hl⟩ := pairwise_cons.mp h
    rw [Chain.link]
    split_ifs with hlt hins
    · refine pairwise_cons.mpr ⟨fun c hc => ?_, ih hl⟩
      rcases mem_link hc with rfl | hc
      · exact hlt.le
      · exact hb c hc
    · refine pairwise_cons.mpr ⟨fun c hc => ?_, h⟩
      have hab : time b ≤ time a := not_lt.mp hlt
      rcases mem_cons.mp hc with rfl | hc
      · exact hab
      · exact (hb c hc).trans hab
    · exact h

theorem filter_link {q : α → Bool} (h : q a = false) : (link time replace a l).filter q = l.filter q := by
  induction l with
  | nil => simp [link, h]
  | cons b l ih =>
    rw [link]
    split_ifs
    · rw [filter_cons, filter_cons, ih]
    · simp [h]
    · rfl

theorem group_link_of_ne (h : time a ≠ t) : group time t (link time replace a l) = group time t l :=
  filter_link (by simpa using h)

theorem Descending.group_link_self (h : Descending time l) : group time (time a) (Chain.link time replace a l) =
    if group time (time a) l = [] ∨ replace = true then a :: group time (time a) l else group time (time a) l := by
  induction l with
  | nil => simp [Chain.link, group]
  | cons b l ih =>
    rw [Chain.link]
    rcases lt_trichotomy (time a) (time b) with hlt | heq | hgt
    · have ih := ih (pairwise_cons.mp h).2
      rw [if_pos hlt, group_cons_of_ne hlt.ne', group_cons_of_ne hlt.ne', ih]
    · rw [if_neg heq.not_lt]
      have hne : group time (time a) (b :: l) ≠ [] := by rw [group_cons_self heq.symm]; simp
      cases replace with
      | true =>
        simp only [Bool.or_true, ↓reduceIte, or_true]
        exact group_cons_self rfl
      | false => rw [if_neg (by simp [heq]), if_neg (by simp [hne])]
    · have hnil := h.group_eq_nil hgt
      rw [if_neg hgt.not_gt, if_pos (by simp [hgt]), group_cons_self rfl, if_pos (.inl hnil)]

theorem Descending.latest_spec (h : Descending time l) (hl : latest time p t l = some a) :
    (group time (time a) l).find? p = some a ∧ time a ≤ t ∧ p a = true ∧
      ∀ b ∈ l, p b = true → time b ≤ t → time b ≤ time a := by
  induction l with
  | nil => cases hl
  | cons c l ih =>
    obtain ⟨hc, hdesc⟩ := pairwise_cons.mp h
    rw [latest, find?_cons] at hl
    split at hl
    · rename_i hsome
      cases hl
      obtain ⟨hle, hp⟩ : time a ≤ t ∧ p a = true := by simpa using hsome
      refine ⟨by rw [group_cons_self rfl, find?_cons, hp], hle, hp, fun b hb _ _ => ?_⟩
      rcases mem_cons.mp hb with rfl | hb
      · exact le_rfl
      · exact hc b hb
    · rename_i hnone
      obtain ⟨hgroup, hle, hp, hmax⟩ := ih hdesc hl
      have hskip (hct : time c ≤ t) : p c = false := by simpa [hct] using hnone
      refine ⟨?_, hle, hp, fun b hb hpb hbt => ?_⟩
      · by_cases hca : time c = time a
        · rw [group_cons_self hca, find?_cons, hskip (hca.trans_le hle)]
          exact hgroup
        · rw [group_cons_of_ne hca]
          exact hgroup
      · rcases mem_cons.mp hb with rfl | hb
        · rw [hskip hbt] at hpb
          cases hpb
        · exact hmax b hb hpb hbt

theorem Descending.exists_latest (h : Descending time l) (ha : a ∈ l) (hp : p a = true) (hle : time a ≤ t) :
    ∃ b, latest time p t l = some b ∧ time a ≤ time b := by
  cases hb : latest time p t l with
  | none =>
    have := find?_eq_none.mp hb a ha
    simp [hle, hp] at this
  | some b => exact ⟨b, rfl, (h.latest_spec hb).2.2.2 a ha hp hle⟩

/-- Entries of one time are changed. Before that time, and where a later entry is the latest, nothing is seen of it. -/
theorem Descending.latest_of_groups {s : τ} (h : Descending time l) (h' : Descending time l')
    (hgroups : ∀ r, r ≠ s → group time r l' = group time r l) (hs : t < s ∨ s < time a)
    (ha : latest time p t l = some a) : latest time p t l' = some a := by
  obtain ⟨hfind, hle, hp, hmax⟩ := h.latest_spec ha
  have hne : ∀ b, time a ≤ time b → time b ≤ t → time b ≠ s := by
    intro b hab hbt heq
    rcases hs with hs | hs
    · exact absurd (hs.trans_le heq.ge) hbt.not_gt
    · exact absurd (hs.trans_le hab) heq.le.not_gt
  have hfind' : (group time (time a) l').find? p = some a := by rwa [hgroups _ (hne a le_rfl hle)]
  obtain ⟨b, hb, hab⟩ := h'.exists_latest (mem_group.mp (mem_of_find?_eq_some hfind')).1 hp hle
  obtain ⟨hfindb, hbt, hpb, -⟩ := h'.latest_spec hb
  have hmem : b ∈ group time (time b) l := by
    rw [← hgroups _ (hne b hab hbt)]
    exact mem_of_find?_eq_some hfindb
  have heq : time b = time a := le_antisymm (hmax b (mem_group.mp hmem).1 hpb hbt) hab
  rw [heq, hfind'] at hfindb
  rw [hb, hfindb]

/-- The latest entry up to a time depends on the first entries of the groups only. -/
theorem latest_eq {β : Type*} {content : α → β} (h : Descending time l) (h' : Descending time l')
    (hgroups : ∀ s, ((group time s l).find? p).map content = ((group time s l').find? p).map content) (t : τ) :
    (latest time p t l).map content = (latest time p t l').map content := by
  -- an entry of one chain has a counterpart in the other one
  have transfer {l l' : List α} (h' : Descending time l')
      (hgroups : ∀ s, ((group time s l).find? p).map content = ((group time s l').find? p).map content) {a : α}
      (ha : (group time (time a) l).find? p = some a) (hle : time a ≤ t) :
      ∃ b, latest time p t l' = some b ∧ time a ≤ time b := by
    have hs := hgroups (time a)
    rw [ha] at hs
    obtain ⟨c, hc, -⟩ := Option.map_eq_some_iff.mp hs.symm
    obtain ⟨hmem, htime⟩ := mem_group.mp (mem_of_find?_eq_some hc)
    have hpc := find?_some hc
    rw [← htime]
    exact h'.exists_latest hmem hpc (htime.trans_le hle)
  cases ha : latest time p t l with
  | none =>
    cases hb : latest time p t l' with
    | none => rfl
    | some b =>
      obtain ⟨hgroup, hle, -⟩ := h'.latest_spec hb
      obtain ⟨a, ha', -⟩ := transfer h (fun s => (hgroups s).symm) hgroup hle
      rw [ha] at ha'
      cases ha'
  | some a =>
    obtain ⟨hgroup, hle, -⟩ := h.latest_spec ha
    obtain ⟨b, hb, hab⟩ := transfer h' hgroups hgroup hle
    obtain ⟨hgroup', hle', -⟩ := h'.latest_spec hb
    obtain ⟨a', ha', hba⟩ := transfer h (fun s => (hgroups s).symm) hgroup' hle'
    rw [ha] at ha'
    cases ha'
    have heq : time a = time b := le_antisymm hab hba
    have hcontent := hgroups (time a)
    rw [hgroup, heq, hgroup'] at hcontent
    rw [hb]
    exact hcontent

end Chain
