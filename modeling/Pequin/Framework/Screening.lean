import Mathlib.Data.List.Induction
import Mathlib.Data.List.Nodup

/-!
# Filing a ballot before checking it

A collector files the key of each ballot, so that no second one with the key is taken, and has the ballot checked
later. A ballot that passes is counted, as long as the count for its key is not closed (`full`). Some votes need no
check. A ballot that will not pass takes the place of a later one that would.
-/

namespace Screening

open List Option

variable {K B : Type*}

inductive Arrival (K B : Type*) where
  | ballot (b : B)
  /-- A vote that needs no check. -/
  | vote (k : K)
  deriving DecidableEq

inductive Event (K B : Type*) where
  | arrive (a : Arrival K B)
  /-- The check of a ballot is done. -/
  | checked (b : B)

structure Collector (K B : Type*) where
  filed : List K := []
  pending : List B := []
  counted : List K := []

def arrivals (es : List (Event K B)) : List (Arrival K B) :=
  es.filterMap fun
    | .arrive a => some a
    | .checked _ => none

theorem arrivals_append (es fs : List (Event K B)) : arrivals (es ++ fs) = arrivals es ++ arrivals fs :=
  filterMap_append

@[simp] theorem arrivals_arrive (a : Arrival K B) (es : List (Event K B)) :
    arrivals (.arrive a :: es) = a :: arrivals es := rfl

@[simp] theorem arrivals_checked (b : B) (es : List (Event K B)) : arrivals (.checked b :: es) = arrivals es := rfl

section

variable (key : B → K) (ok keep : B → Bool)

def Arrival.keyOf : Arrival K B → K
  | .ballot b => key b
  | .vote k => k

/-- The arrival is counted if it is the first with its key. -/
def Arrival.counts : Arrival K B → Bool
  | .ballot b => ok b
  | .vote _ => true

def Arrival.kept : Arrival K B → Bool
  | .ballot b => keep b
  | .vote _ => true

open Arrival

@[simp] theorem keyOf_ballot (b : B) : (ballot b : Arrival K B).keyOf key = key b := rfl

@[simp] theorem keyOf_vote (k : K) : (vote k : Arrival K B).keyOf key = k := rfl

@[simp] theorem counts_ballot (b : B) : (ballot b : Arrival K B).counts ok = ok b := rfl

@[simp] theorem counts_vote (k : K) : (vote k : Arrival K B).counts ok = true := rfl

@[simp] theorem kept_ballot (b : B) : (ballot b : Arrival K B).kept keep = keep b := rfl

@[simp] theorem kept_vote (k : K) : (vote k : Arrival K B).kept keep = true := rfl

def Event.kept : Event K B → Bool
  | .arrive a => a.kept keep
  | .checked b => keep b

theorem arrivals_filter (es : List (Event K B)) :
    arrivals (es.filter (Event.kept keep)) = (arrivals es).filter (kept keep) := by
  induction es with
  | nil => rfl
  | cons e es ih =>
    cases e with
    | arrive a =>
      rw [filter_cons, arrivals_arrive, filter_cons, Event.kept, ← ih]
      split <;> rfl
    | checked b =>
      rw [filter_cons, arrivals_checked, Event.kept, ← ih]
      split <;> rfl

variable (full : List K → K → Bool)

def Collector.count (s : Collector K B) (k : K) : Collector K B :=
  if full s.counted k then s else { s with counted := s.counted ++ [k] }

variable [DecidableEq K]

def first (as : List (Arrival K B)) (k : K) : Option (Arrival K B) := as.find? fun a => a.keyOf key = k

/-- A vote that is counted among the arrivals that are kept is the first one with its key among all
of them. -/
def Unsuppressed (as : List (Arrival K B)) : Prop :=
  ∀ k a, first key (as.filter (kept keep)) k = some a → a.counts ok = true → first key as k = some a

variable [DecidableEq B]

def Collector.step (s : Collector K B) : Event K B → Collector K B
  | .arrive (.ballot b) =>
    if key b ∈ s.filed then s
    else { s with filed := key b :: s.filed, pending := s.pending ++ [b] }
  | .arrive (.vote k) =>
    if k ∈ s.filed then s else ({ s with filed := k :: s.filed } : Collector K B).count full k
  | .checked b =>
    if b ∈ s.pending then
      if ok b then ({ s with pending := s.pending.erase b } : Collector K B).count full (key b)
      else { s with pending := s.pending.erase b }
    else s

def Collector.run (s : Collector K B) (es : List (Event K B)) : Collector K B :=
  es.foldl (Collector.step key ok full) s

end

variable {key : B → K} {ok keep : B → Bool} {full : List K → K → Bool} {s s' : Collector K B}
  {as : List (Arrival K B)} {a : Arrival K B} {k : K} {b : B} {es : List (Event K B)}

@[simp] theorem count_filed : (s.count full k).filed = s.filed := by
  unfold Collector.count
  split <;> rfl

@[simp] theorem count_pending : (s.count full k).pending = s.pending := by
  unfold Collector.count
  split <;> rfl

theorem count_counted (h : full s.counted k = false) : (s.count full k).counted = s.counted ++ [k] := by
  rw [Collector.count, if_neg (by rw [h]; exact Bool.false_ne_true)]

theorem count_counted_congr (h : s.counted = s'.counted) : (s.count full k).counted = (s'.count full k).counted := by
  unfold Collector.count
  rw [h]
  split
  · exact h
  · rfl

theorem Event.kept_mono (hok : ∀ b, ok b = true → keep b = true) {e : Event K B} (he : e.kept ok = true) :
    e.kept keep = true := by
  cases e with
  | arrive a =>
    cases a with
    | ballot b => exact hok b he
    | vote k => rfl
  | checked b => exact hok b he

/-- What is counted, and what is to be counted, is the same. -/
def Alike (ok : B → Bool) (s s' : Collector K B) : Prop :=
  s'.pending.filter ok = s.pending.filter ok ∧ s'.counted = s.counted

theorem Alike.symm (h : Alike ok s s') : Alike ok s' s := ⟨h.1.symm, h.2.symm⟩

theorem Alike.trans {s'' : Collector K B} (h : Alike ok s s') (h' : Alike ok s' s'') : Alike ok s s'' :=
  ⟨h'.1.trans h.1, h'.2.trans h.2⟩

theorem Alike.count (h : Alike ok s s') : Alike ok (s.count full k) (s'.count full k) := by
  rw [Alike, count_pending, count_pending]
  exact ⟨h.1, count_counted_congr h.2⟩

variable [DecidableEq K]

theorem first_cons_of_eq (h : a.keyOf key = k) : first key (a :: as) k = some a := by
  rw [first, List.find?_cons_of_pos]
  exact decide_eq_true h

theorem first_cons_of_ne (h : a.keyOf key ≠ k) : first key (a :: as) k = first key as k := by
  rw [first, List.find?_cons_of_neg]
  · rfl
  · simpa using h

theorem first_append (as bs : List (Arrival K B)) :
    first key (as ++ bs) k = (first key as k).or (first key bs k) := List.find?_append

theorem first_key (h : first key as k = some a) : a.keyOf key = k := by
  simpa using List.find?_some h

theorem isSome_first : (first key as k).isSome = true ↔ ∃ x ∈ as, x.keyOf key = k := by
  simp [first, List.find?_isSome]

theorem exists_first_of_filter (h : first key (as.filter (Arrival.kept keep)) k = some a) :
    ∃ x, first key as k = some x :=
  isSome_iff_exists.mp (isSome_first.mpr ⟨a, mem_of_mem_filter (mem_of_find?_eq_some h), first_key h⟩)

theorem first_filter_of_kept (h : first key as k = some a) (hkept : a.kept keep = true) :
    first key (as.filter (Arrival.kept keep)) k = some a := by
  induction as with
  | nil => cases h
  | cons x as ih =>
    by_cases hx : x.keyOf key = k
    · rw [first_cons_of_eq hx, some.injEq] at h
      subst h
      rw [filter_cons_of_pos hkept]
      exact first_cons_of_eq hx
    · rw [first_cons_of_ne hx] at h
      rw [filter_cons]
      split
      · rw [first_cons_of_ne hx]
        exact ih h
      · exact ih h

/-- What is first among the arrivals that are kept only has one before it that is not kept. -/
theorem exists_unkept (h : first key (as.filter (Arrival.kept keep)) k = some a)
    (hne : first key as k ≠ some a) : ∃ x, first key as k = some x ∧ x.kept keep = false := by
  obtain ⟨x, hx⟩ := exists_first_of_filter h
  refine ⟨x, hx, ?_⟩
  by_contra hkept
  rw [first_filter_of_kept hx (Bool.not_eq_false _ ▸ hkept)] at h
  exact hne (hx.trans h)

/-! ## What is filed -/

theorem first_append_of_some {x : Arrival K B} (h : first key as k = some x) : first key (as ++ [a]) k = some x := by
  rw [first_append, h]
  rfl

theorem first_append_of_ne (h : a.keyOf key ≠ k) : first key (as ++ [a]) k = first key as k := by
  rw [first_append, first_cons_of_ne h]
  exact or_none

theorem first_append_of_new (h : first key as (a.keyOf key) = none) : first key (as ++ [a]) (a.keyOf key) = some a := by
  rw [first_append, h, first_cons_of_eq rfl]
  rfl

/-- The keys of the arrivals are filed. -/
def Filed (key : B → K) (as : List (Arrival K B)) (s : Collector K B) : Prop :=
  ∀ k, k ∈ s.filed ↔ (first key as k).isSome = true

theorem filed_nil : Filed key [] ({} : Collector K B) := fun k => by simp [first]

namespace Filed

variable (h : Filed key as s)
include h

theorem first_old (hfiled : a.keyOf key ∈ s.filed) (k : K) : first key (as ++ [a]) k = first key as k := by
  by_cases hk : a.keyOf key = k
  · obtain ⟨x, hx⟩ := isSome_iff_exists.mp ((h k).mp (hk ▸ hfiled))
    rw [first_append_of_some hx, hx]
  · exact first_append_of_ne hk

theorem first_new (hnew : a.keyOf key ∉ s.filed) : first key as (a.keyOf key) = none := by
  rw [← not_isSome_iff_eq_none]
  exact fun hsome => hnew ((h _).mpr hsome)

theorem cons (a : Arrival K B) (k : K) : k ∈ a.keyOf key :: s.filed ↔ (first key (as ++ [a]) k).isSome = true := by
  rw [mem_cons, h k, first_append, isSome_or, Bool.or_eq_true, or_comm]
  refine or_congr_right ⟨fun hk => ?_, fun hk => ?_⟩
  · rw [first_cons_of_eq hk.symm]
    rfl
  · by_contra hne
    rw [first_cons_of_ne fun e => hne e.symm] at hk
    cases hk

theorem step [DecidableEq B] (e : Event K B) : Filed key (as ++ arrivals [e]) (s.step key ok full e) := by
  intro k
  cases e with
  | arrive a =>
    have hfiled : (s.step key ok full (.arrive a)).filed =
        if a.keyOf key ∈ s.filed then s.filed else a.keyOf key :: s.filed := by
      cases a with
      | ballot b =>
        rw [Collector.step, keyOf_ballot]
        split <;> rfl
      | vote k =>
        rw [Collector.step, keyOf_vote]
        split
        · rfl
        · exact count_filed
    rw [hfiled, arrivals_arrive]
    split
    · exact (h k).trans (by rw [← h.first_old ‹_› k]; rfl)
    · exact h.cons a k
  | checked b =>
    rw [arrivals_checked, arrivals, filterMap_nil, append_nil, ← h k, Collector.step]
    split
    · split
      · rw [count_filed]
      · rfl
    · rfl

end Filed

section

variable [DecidableEq B]

theorem run_append (es : List (Event K B)) (e : Event K B) :
    Collector.run key ok full {} (es ++ [e]) = (Collector.run key ok full {} es).step key ok full e := foldl_append

theorem run_induction {P : List (Arrival K B) → Collector K B → Prop} (hnil : P [] {})
    (hstep : ∀ as s, ∀ e ∈ es, P as s → P (as ++ arrivals [e]) (s.step key ok full e)) :
    P (arrivals es) (Collector.run key ok full {} es) := by
  induction es using reverseRecOn with
  | nil => exact hnil
  | append_singleton es e ih =>
    rw [arrivals_append, run_append]
    exact hstep _ _ e mem_concat_self (ih fun as s e' he' => hstep as s e' (mem_append_left _ he'))

theorem filed_run (es : List (Event K B)) : Filed key (arrivals es) (Collector.run key ok full {} es) :=
  run_induction filed_nil fun _ _ e _ h => h.step e

end

/-! ## Removing what does not pass -/

theorem Unsuppressed.of_append {bs : List (Arrival K B)} (h : Unsuppressed key ok keep (as ++ bs)) :
    Unsuppressed key ok keep as := by
  intro k a hfirst hcounts
  have hwhole : first key (as ++ bs) k = some a := by
    refine h k a ?_ hcounts
    rw [filter_append, first_append, hfirst]
    rfl
  obtain ⟨x, hx⟩ := exists_first_of_filter hfirst
  rw [first_append, hx] at hwhole
  rw [hx]
  exact hwhole

theorem isSome_first_filter (hok : ∀ b, ok b = true → keep b = true) (h : Unsuppressed key ok keep (as ++ [a]))
    (ha : (Event.arrive a).kept ok = true) : (first key (as.filter (Arrival.kept keep)) (a.keyOf key)).isSome = true ↔
      (first key as (a.keyOf key)).isSome = true := by
  have hkept : a.kept keep = true := Event.kept_mono hok ha
  have hcounts : a.counts ok = true := by cases a <;> exact ha
  constructor
  · intro hsome
    obtain ⟨x, hx⟩ := isSome_iff_exists.mp hsome
    exact isSome_iff_exists.mpr (exists_first_of_filter hx)
  · intro hsome
    obtain ⟨x, hx⟩ := isSome_iff_exists.mp hsome
    by_contra hnone
    -- else the arrival is the first one that is kept, and is not the first of all
    have hfirst := h _ a (by
      rw [filter_append, filter_singleton, hkept]
      exact first_append_of_new (not_isSome_iff_eq_none.mp hnone)) hcounts
    rw [first_append_of_some hx, some.injEq] at hfirst
    rw [hfirst] at hx
    rw [first_filter_of_kept hx hkept] at hnone
    exact hnone rfl

section Removing

variable [DecidableEq B]

theorem alike_step {e : Event K B} (he : e.kept ok = false) : Alike ok s (s.step key ok full e) := by
  cases e with
  | arrive a =>
    cases a with
    | ballot b =>
      have hb : ok b = false := he
      rw [Collector.step]
      split
      · exact ⟨rfl, rfl⟩
      · exact ⟨by simp [hb], rfl⟩
    | vote k => cases he
  | checked b =>
    have hb : ok b = false := he
    rw [Collector.step, hb, if_neg Bool.false_ne_true]
    split
    · refine ⟨?_, rfl⟩
      rw [← erase_filter, erase_of_not_mem]
      simp [hb]
    · exact ⟨rfl, rfl⟩

theorem Alike.step (h : Alike ok s s') {e : Event K B} (he : e.kept ok = true)
    (hfiled : ∀ a, e = .arrive a → (a.keyOf key ∈ s'.filed ↔ a.keyOf key ∈ s.filed)) :
    Alike ok (s.step key ok full e) (s'.step key ok full e) := by
  cases e with
  | arrive a =>
    cases a with
    | ballot b =>
      have hiff : key b ∈ s'.filed ↔ key b ∈ s.filed := hfiled _ rfl
      rw [Collector.step, Collector.step]
      by_cases hf : key b ∈ s.filed
      · rw [if_pos hf, if_pos (hiff.mpr hf)]
        exact h
      · rw [if_neg hf, if_neg (hiff.not.mpr hf)]
        exact ⟨by rw [filter_append, filter_append, h.1], h.2⟩
    | vote k =>
      have hiff : k ∈ s'.filed ↔ k ∈ s.filed := hfiled _ rfl
      rw [Collector.step, Collector.step]
      by_cases hf : k ∈ s.filed
      · rw [if_pos hf, if_pos (hiff.mpr hf)]
        exact h
      · rw [if_neg hf, if_neg (hiff.not.mpr hf)]
        exact Alike.count h
  | checked b =>
    have hb : ok b = true := he
    have hmem : b ∈ s'.pending ↔ b ∈ s.pending := by
      have hfilter : ∀ l : List B, b ∈ l ↔ b ∈ l.filter ok := fun l => by
        rw [mem_filter, hb, and_iff_left rfl]
      rw [hfilter, h.1, ← hfilter]
    rw [Collector.step, Collector.step, hb, if_pos rfl, if_pos rfl]
    by_cases hp : b ∈ s.pending
    · rw [if_pos hp, if_pos (hmem.mpr hp)]
      refine Alike.count ⟨?_, h.2⟩
      rw [← erase_filter, ← erase_filter, h.1]
    · rw [if_neg hp, if_neg (hmem.not.mpr hp)]
      exact h

/-- Unless it takes the place of another, a ballot that does not pass changes nothing. -/
theorem counted_filter (hok : ∀ b, ok b = true → keep b = true) (h : Unsuppressed key ok keep (arrivals es)) :
    (Collector.run key ok full {} (es.filter (Event.kept keep))).counted =
      (Collector.run key ok full {} es).counted := by
  suffices hrun : Alike ok (Collector.run key ok full {} es)
      (Collector.run key ok full {} (es.filter (Event.kept keep))) from hrun.2
  induction es using reverseRecOn with
  | nil => exact ⟨rfl, rfl⟩
  | append_singleton es e ih =>
    rw [arrivals_append] at h
    have hrun := ih h.of_append
    rw [run_append, filter_append, filter_singleton]
    cases hpass : e.kept ok with
    | true =>
      rw [Event.kept_mono hok hpass, cond_true, run_append]
      refine hrun.step hpass fun a he => ?_
      subst he
      rw [filed_run, filed_run, arrivals_filter]
      exact isSome_first_filter hok h hpass
    | false =>
      have hinert : ∀ s, Alike ok s (s.step key ok full e) := fun s => alike_step hpass
      cases e.kept keep with
      | true =>
        rw [cond_true, run_append]
        exact ((hinert _).symm.trans hrun).trans (hinert _)
      | false =>
        rw [cond_false, append_nil]
        exact (hinert _).symm.trans hrun

end Removing

/-! ## What a run counts -/

/-- A collector after the arrivals `as`. The vote `owed`, if there is one, is about to be counted. -/
structure Inv (key : B → K) (ok : B → Bool) (full : List K → K → Bool) (as : List (Arrival K B))
    (owed : Option K) (s : Collector K B) : Prop where
  pending : ∀ b ∈ s.pending, first key as (key b) = some (.ballot b) ∧ key b ∉ s.counted ∧ owed ≠ some (key b)
  nodup_pending : (s.pending.map key).Nodup
  counted : ∀ k ∈ s.counted, ∃ a, first key as k = some a ∧ a.counts ok = true
  nodup : s.counted.Nodup
  owes : ∀ k, owed = some k → (∃ a, first key as k = some a ∧ a.counts ok = true) ∧ k ∉ s.counted
  /-- A vote is waited for or counted, or the count was closed. -/
  settled : ∀ k a, first key as k = some a → a.counts ok = true →
    owed = some k ∨ (∃ b ∈ s.pending, key b = k) ∨ k ∈ s.counted ∨ full s.counted k = true

theorem inv_nil : Inv key ok full [] none {} where
  pending b hb := by cases hb
  nodup_pending := nodup_nil
  counted k hk := by cases hk
  nodup := nodup_nil
  owes k h := by cases h
  settled k a h := by cases h

/-- More votes do not open a count again. -/
def Closing (full : List K → K → Bool) : Prop :=
  ∀ l k k', full l k = true → full (l ++ [k']) k = true

namespace Inv

theorem count (hfull : Closing full) (h : Inv key ok full as (some k) s) :
    Inv key ok full as none (s.count full k) := by
  obtain ⟨hfirst, hnew⟩ := h.owes k rfl
  cases hf : full s.counted k with
  | true =>
    rw [Collector.count, if_pos hf]
    refine { h with
      pending := fun b hb => ⟨(h.pending b hb).1, (h.pending b hb).2.1, nofun⟩
      owes := nofun
      settled := fun k' a ha hcounts => .inr ?_ }
    rcases h.settled k' a ha hcounts with e | hs
    · cases e
      exact .inr (.inr hf)
    · exact hs
  | false =>
    have hc := count_counted hf
    refine ⟨?_, by rw [count_pending]; exact h.nodup_pending, ?_, ?_, nofun, ?_⟩
    · intro b hb
      rw [count_pending] at hb
      obtain ⟨h₁, h₂, h₃⟩ := h.pending b hb
      refine ⟨h₁, ?_, nofun⟩
      rw [hc, mem_append, mem_singleton, not_or]
      exact ⟨h₂, fun e => h₃ (by rw [e])⟩
    · intro k' hk'
      rw [hc, mem_append, mem_singleton] at hk'
      rcases hk' with hk' | rfl
      · exact h.counted k' hk'
      · exact hfirst
    · rw [hc, ← concat_eq_append]
      exact h.nodup.concat hnew
    · intro k' a ha hcounts
      rw [hc, count_pending]
      rcases h.settled k' a ha hcounts with e | hs | hs | hs
      · cases e
        exact .inr (.inr (.inl (mem_append_right _ mem_cons_self)))
      · exact .inr (.inl hs)
      · exact .inr (.inr (.inl (mem_append_left _ hs)))
      · exact .inr (.inr (.inr (hfull _ _ _ hs)))

theorem skip (hf : Filed key as s) (h : Inv key ok full as none s) (hfiled : a.keyOf key ∈ s.filed) :
    Inv key ok full (as ++ [a]) none s := by
  refine { h with pending := ?_, counted := ?_, owes := nofun, settled := ?_ }
  all_goals simp only [hf.first_old hfiled]
  · exact h.pending
  · exact h.counted
  · exact h.settled

theorem first_keep {x : Arrival K B} (hx : first key as k = some x ∧ x.counts ok = true) :
    ∃ x, first key (as ++ [a]) k = some x ∧ x.counts ok = true :=
  ⟨x, first_append_of_some hx.1, hx.2⟩

theorem ballot (hf : Filed key as s) (h : Inv key ok full as none s) (hnew : key b ∉ s.filed) :
    Inv key ok full (as ++ [.ballot b]) none
      { s with filed := key b :: s.filed, pending := s.pending ++ [b] } := by
  have hnone := hf.first_new (a := .ballot b) hnew
  have hfirst : first key (as ++ [.ballot b]) (key b) = some (.ballot b) := first_append_of_new hnone
  have hcounted : key b ∉ s.counted := fun hk => by
    obtain ⟨x, hx, -⟩ := h.counted _ hk
    rw [keyOf_ballot, hx] at hnone
    cases hnone
  refine ⟨?_, ?_, ?_, h.nodup, nofun, ?_⟩
  · intro b' hb'
    rcases mem_append.mp hb' with hb' | hb'
    · obtain ⟨h₁, h₂, -⟩ := h.pending b' hb'
      exact ⟨first_append_of_some h₁, h₂, nofun⟩
    · rw [mem_singleton.mp hb']
      exact ⟨hfirst, hcounted, nofun⟩
  · rw [map_append, map_singleton, ← concat_eq_append]
    refine h.nodup_pending.concat fun hmem => ?_
    obtain ⟨b', hb', e⟩ := mem_map.mp hmem
    have hfirst' := (h.pending b' hb').1
    rw [e] at hfirst'
    rw [keyOf_ballot, hfirst'] at hnone
    cases hnone
  · exact fun k hk => (h.counted k hk).elim fun x hx => first_keep hx
  · intro k x hx hcounts
    by_cases hk : key b = k
    · exact .inr (.inl ⟨b, mem_append_right _ mem_cons_self, hk⟩)
    · rw [first_append_of_ne (a := .ballot b) hk] at hx
      refine (h.settled k x hx hcounts).imp_right fun hs => hs.imp_left ?_
      rintro ⟨b', hb', e⟩
      exact ⟨b', mem_append_left _ hb', e⟩

theorem vote (hf : Filed key as s) (h : Inv key ok full as none s) (hnew : k ∉ s.filed) :
    Inv key ok full (as ++ [.vote k]) (some k) { s with filed := k :: s.filed } := by
  have hnone := hf.first_new (a := .vote k) hnew
  rw [keyOf_vote] at hnone
  have hfirst : first key (as ++ [.vote k]) k = some (.vote k) := first_append_of_new hnone
  refine ⟨?_, h.nodup_pending, ?_, h.nodup, ?_, ?_⟩
  · intro b hb
    obtain ⟨h₁, h₂, -⟩ := h.pending b hb
    refine ⟨first_append_of_some h₁, h₂, fun e => ?_⟩
    rw [some.inj e, h₁] at hnone
    cases hnone
  · exact fun k hk => (h.counted k hk).elim fun x hx => first_keep hx
  · intro k' e
    cases e
    refine ⟨⟨_, hfirst, rfl⟩, fun hk => ?_⟩
    obtain ⟨x, hx, -⟩ := h.counted k hk
    rw [hx] at hnone
    cases hnone
  · intro k' x hx hcounts
    by_cases hk : k = k'
    · exact .inl (by rw [hk])
    · rw [first_append_of_ne (a := .vote k) hk] at hx
      exact .inr ((h.settled k' x hx hcounts).resolve_left nofun)

end Inv

variable [DecidableEq B]

theorem Inv.erase (h : Inv key ok full as none s) (hb : b ∈ s.pending) :
    Inv key ok full as (if ok b then some (key b) else none) { s with pending := s.pending.erase b } := by
  have hnodup : s.pending.Nodup := h.nodup_pending.of_map
  obtain ⟨hfirst, hcounted, -⟩ := h.pending b hb
  have hother : ∀ b' ∈ s.pending.erase b, key b' ≠ key b := by
    intro b' hb' e
    have hne : b' ≠ b := (hnodup.mem_erase_iff.mp hb').1
    exact hne (inj_on_of_nodup_map h.nodup_pending (mem_of_mem_erase hb') hb e)
  refine ⟨fun b' hb' => ?_, h.nodup_pending.sublist (erase_sublist.map key), h.counted, h.nodup,
    fun k e => ?_, fun k x hx hcounts => ?_⟩
  · obtain ⟨h₁, h₂, -⟩ := h.pending b' (mem_of_mem_erase hb')
    refine ⟨h₁, h₂, fun e => ?_⟩
    split at e
    · exact hother b' hb' (some.inj e).symm
    · cases e
  · split at e
    · rename_i hok
      cases e
      exact ⟨⟨_, hfirst, hok⟩, hcounted⟩
    · cases e
  · rcases (h.settled k x hx hcounts).resolve_left nofun with ⟨b', hb', rfl⟩ | hs
    · by_cases hbb : b' = b
      · subst hbb
        rw [hfirst, some.injEq] at hx
        rw [← hx, counts_ballot] at hcounts
        exact .inl (if_pos hcounts)
      · exact .inr (.inl ⟨b', (hnodup.mem_erase_iff).mpr ⟨hbb, hb'⟩, rfl⟩)
    · exact .inr (.inr hs)

theorem Inv.step (hfull : Closing full) (hf : Filed key as s) (h : Inv key ok full as none s) (e : Event K B) :
    Inv key ok full (as ++ arrivals [e]) none (s.step key ok full e) := by
  cases e with
  | arrive a =>
    cases a with
    | ballot b =>
      rw [Collector.step]
      split
      · rename_i hfiled
        exact .skip hf h hfiled
      · rename_i hnew
        exact .ballot hf h hnew
    | vote k =>
      rw [Collector.step]
      split
      · rename_i hfiled
        exact .skip hf h hfiled
      · rename_i hnew
        exact (Inv.vote hf h hnew).count hfull
  | checked b =>
    rw [Collector.step, arrivals_checked, arrivals, filterMap_nil, append_nil]
    split
    · rename_i hb
      have herase := h.erase hb
      split
      · rename_i hok
        rw [if_pos hok] at herase
        exact herase.count hfull
      · rename_i hok
        rw [if_neg hok] at herase
        exact herase
    · exact h

/-- What is counted, and what is waited for, at the end of a run. -/
theorem inv_run (hfull : Closing full) (es : List (Event K B)) :
    Inv key ok full (arrivals es) none (Collector.run key ok full {} es) :=
  (run_induction (P := fun as s => Filed key as s ∧ Inv key ok full as none s) ⟨filed_nil, inv_nil⟩
    fun _ _ e _ h => ⟨h.1.step e, h.2.step hfull h.1 e⟩).2

/-- As long as no ballot passes, what is counted are votes that need no check. -/
theorem counted_votes (hes : ∀ b, Event.checked b ∈ es → ok b = false) :
    ∀ k ∈ (Collector.run key ok full {} es).counted, first key (arrivals es) k = some (.vote k) := by
  refine (run_induction (P := fun as s => Filed key as s ∧ ∀ k ∈ s.counted, first key as k = some (.vote k))
    ⟨filed_nil, nofun⟩ ?_).2
  rintro as s e he ⟨hfiled, hvotes⟩
  refine ⟨hfiled.step e, fun k hk => ?_⟩
  cases e with
  | arrive a =>
    cases a with
    | ballot b =>
      rw [Collector.step] at hk
      refine first_append_of_some (hvotes k ?_)
      split at hk
      · exact hk
      · exact hk
    | vote k' =>
      rw [Collector.step] at hk
      split at hk
      · exact first_append_of_some (hvotes k hk)
      rename_i hnew
      rw [Collector.count] at hk
      split at hk
      · exact first_append_of_some (hvotes k hk)
      · rcases mem_append.mp hk with hk | hk
        · exact first_append_of_some (hvotes k hk)
        · rw [mem_singleton.mp hk]
          exact first_append_of_new (a := .vote k') (hfiled.first_new hnew)
  | checked b =>
    rw [Collector.step, hes b he, if_neg Bool.false_ne_true] at hk
    rw [arrivals_checked, arrivals, filterMap_nil, append_nil]
    refine hvotes k ?_
    split at hk
    · exact hk
    · exact hk

/-- A count that votes without a check do not close. -/
def Open (key : B → K) (full : List K → K → Bool) (as : List (Arrival K B)) : Prop :=
  ∀ (l : List K) (k : K), l.Nodup → (∀ k' ∈ l, first key as k' = some (.vote k')) → full l k = false

section

variable (hfull : Closing full) (hes : ∀ b, Event.checked b ∈ es → ok b = false) (hopen : Open key full (arrivals es))
include hfull hes hopen

theorem full_unchecked (k : K) : full (Collector.run key ok full {} es).counted k = false :=
  hopen _ k (inv_run hfull es).nodup (counted_votes hes)

theorem counted_vote {k' : K} (hfirst : first key (arrivals es) k = some (.vote k')) :
    k ∈ (Collector.run key ok full {} es).counted := by
  have hinv : Inv key ok full (arrivals es) none (Collector.run key ok full {} es) := inv_run hfull es
  rcases (hinv.settled k _ hfirst (counts_vote ok k')).resolve_left nofun with ⟨b, hb, rfl⟩ | hk | hk
  · rw [(hinv.pending b hb).1] at hfirst
    cases hfirst
  · exact hk
  · rw [full_unchecked hfull hes hopen k] at hk
    cases hk

theorem counted_checked (hok : ok b = true) (hfirst : first key (arrivals es) (key b) = some (.ballot b)) :
    key b ∈ (Collector.run key ok full {} (es ++ [.checked b])).counted := by
  have hinv : Inv key ok full (arrivals es) none (Collector.run key ok full {} es) := inv_run hfull es
  have hmem : b ∈ (Collector.run key ok full {} es).pending := by
    rcases (hinv.settled _ _ hfirst hok).resolve_left nofun with ⟨b', hb', e⟩ | hk | hk
    · have hfirst' := (hinv.pending b' hb').1
      rw [e, hfirst, some.injEq] at hfirst'
      cases hfirst'
      exact hb'
    · rw [counted_votes hes _ hk] at hfirst
      cases hfirst
    · rw [full_unchecked hfull hes hopen] at hk
      cases hk
  have hroom : ¬full (Collector.run key ok full {} es).counted (key b) = true := by
    rw [full_unchecked hfull hes hopen]
    exact Bool.false_ne_true
  rw [run_append, Collector.step, hok, if_pos rfl, if_pos hmem, Collector.count, if_neg hroom]
  exact mem_append_right _ mem_cons_self

end

end Screening
