import Mathlib.Algebra.Order.Ring.Int
import Mathlib.Data.List.Basic

/-!
# Runs of a partial step function

`step : σ → ε → Option σ` is `none` where an event is not enabled. `exec` runs a list of events.
-/

namespace Run

open List Option

variable {σ ε : Type*} (step : σ → ε → Option σ) {ok : σ → ε → Prop} {s t : σ} {es : List ε}

/-- The state after a list of events. -/
def exec : σ → List ε → Option σ
  | s, [] => some s
  | s, e :: es =>
    match step s e with
    | none => none
    | some s' => exec s' es

/-- Every step of the run meets `ok`, a condition on the state before it and the event. -/
def Meets (ok : σ → ε → Prop) : σ → List ε → Prop
  | _, [] => True
  | s, e :: es => ok s e ∧ ∀ s', step s e = some s' → Meets ok s' es

variable {step}

instance Meets.decidable (ok : σ → ε → Prop) [∀ s e, Decidable (ok s e)] :
    ∀ (s : σ) (es : List ε), Decidable (Meets step ok s es)
  | _, [] => .isTrue trivial
  | s, e :: es =>
    match h : step s e with
    | none => decidable_of_iff (ok s e) ⟨fun ho => ⟨ho, fun s' hs => by rw [h] at hs; cases hs⟩, fun hm => hm.1⟩
    | some s' =>
      have : Decidable (Meets step ok s' es) := Meets.decidable ok s' es
      decidable_of_iff (ok s e ∧ Meets step ok s' es)
        ⟨fun ho => ⟨ho.1, fun s₁ hs => by rw [h, some.injEq] at hs; exact hs ▸ ho.2⟩, fun hm => ⟨hm.1, hm.2 s' h⟩⟩

theorem Meets.mono {ok' : σ → ε → Prop} (hok : ∀ s e, ok s e → ok' s e)
    (h : Meets step ok s es) : Meets step ok' s es := by
  induction es generalizing s with
  | nil => trivial
  | cons e es ih => exact ⟨hok s e h.1, fun s' hs => ih (h.2 s' hs)⟩

theorem Meets.and_of_mem {Q : ε → Prop}
    (h : Meets step ok s es) (hQ : ∀ e ∈ es, Q e) : Meets step (fun s e => ok s e ∧ Q e) s es := by
  induction es generalizing s with
  | nil => trivial
  | cons e es ih =>
    exact ⟨⟨h.1, hQ e mem_cons_self⟩, fun s' hs => ih (h.2 s' hs) fun e' he => hQ e' (mem_cons_of_mem e he)⟩

theorem exec_cons {e : ε} (h : exec step s (e :: es) = some t) :
    ∃ s', step s e = some s' ∧ exec step s' es = some t := by
  rw [exec] at h
  split at h
  · cases h
  · rename_i s' hs
    exact ⟨s', hs, h⟩

/-- A loop of the source is a run of its body. -/
theorem foldlM_eq_exec (s : σ) (es : List ε) : es.foldlM step s = exec step s es := by
  induction es generalizing s with
  | nil => rfl
  | cons e es ih =>
    rw [foldlM_cons, exec]
    cases step s e with
    | none => rfl
    | some s' => exact ih s'

theorem exec_of_any {p : σ → Bool} (h : (exec step s es).any p = true) : ∃ t, exec step s es = some t ∧ p t = true := by
  cases he : exec step s es with
  | none => rw [he] at h; cases h
  | some t => rw [he] at h; exact ⟨t, rfl, h⟩

/-- The same for runs whose steps meet a condition on the event and the state before it. -/
theorem exec_invariant_of_meets {P : σ → Prop} (hstep : ∀ {s e s'}, P s → ok s e → step s e = some s' → P s')
    (hs : P s) (hm : Meets step ok s es) (h : exec step s es = some t) : P t := by
  induction es generalizing s with
  | nil =>
    rw [exec, some.injEq] at h
    exact h ▸ hs
  | cons e es ih =>
    obtain ⟨s', h₁, h₂⟩ := exec_cons h
    exact ih (hstep hs hm.1 h₁) (hm.2 s' h₁) h₂

/-- The same for what also depends on the events so far. -/
theorem exec_history_of_meets {P : List ε → σ → Prop}
    (hstep : ∀ {past s e s'}, P past s → ok s e → step s e = some s' → P (past ++ [e]) s')
    {past : List ε} (hs : P past s) (hm : Meets step ok s es) (h : exec step s es = some t) : P (past ++ es) t := by
  induction es generalizing past s with
  | nil =>
    rw [exec, some.injEq] at h
    rw [append_nil]
    exact h ▸ hs
  | cons e es ih =>
    obtain ⟨s', h₁, h₂⟩ := exec_cons h
    have hrest := ih (hstep hs hm.1 h₁) (hm.2 s' h₁) h₂
    rwa [append_assoc, singleton_append] at hrest

theorem Meets.append {fs : List ε} (hm : Meets step ok s (es ++ fs))
    (h : exec step s es = some t) : Meets step ok s es ∧ Meets step ok t fs := by
  induction es generalizing s with
  | nil =>
    rw [exec, some.injEq] at h
    exact ⟨trivial, h ▸ hm⟩
  | cons e es ih =>
    obtain ⟨s', h₁, h₂⟩ := exec_cons h
    obtain ⟨hes, hfs⟩ := ih (hm.2 s' h₁) h₂
    refine ⟨⟨hm.1, fun s₁ hs₁ => ?_⟩, hfs⟩
    rw [h₁, some.injEq] at hs₁
    exact hs₁ ▸ hes

theorem meets_true (s : σ) (es : List ε) : Meets step (fun _ _ => True) s es := by
  induction es generalizing s with
  | nil => trivial
  | cons e es ih => exact ⟨trivial, fun s' _ => ih s'⟩

/-- What every step keeps holds at the end of every run. -/
theorem exec_invariant {P : σ → Prop} (hstep : ∀ {s e s'}, P s → step s e = some s' → P s')
    (hs : P s) (h : exec step s es = some t) : P t :=
  exec_invariant_of_meets (fun hp _ hst => hstep hp hst) hs (meets_true s es) h

/-- A state that a run of steps which meet the condition leads to. -/
def Reaches (step : σ → ε → Option σ) (ok : σ → ε → Prop) (s t : σ) : Prop :=
  ∃ es, Meets step ok s es ∧ exec step s es = some t

namespace Reaches

variable {ok : σ → ε → Prop} {s t : σ}

theorem refl (s : σ) : Reaches step ok s s := ⟨[], trivial, rfl⟩

theorem head {s' : σ} {e : ε} (hok : ok s e) (hs : step s e = some s')
    (h : Reaches step ok s' t) : Reaches step ok s t := by
  obtain ⟨es, hm, hexec⟩ := h
  refine ⟨e :: es, ⟨hok, fun s₁ h₁ => ?_⟩, ?_⟩
  · rw [hs, some.injEq] at h₁
    exact h₁ ▸ hm
  · rw [exec, hs]
    exact hexec

theorem single (e : ε) (hok : ok s e) (hs : step s e = some t) : Reaches step ok s t :=
  head hok hs (refl t)

theorem trans {s' : σ} (h : Reaches step ok s s') (h' : Reaches step ok s' t) : Reaches step ok s t := by
  obtain ⟨es, hm, hexec⟩ := h
  induction es generalizing s with
  | nil =>
    rw [exec, some.injEq] at hexec
    exact hexec ▸ h'
  | cons e es ih =>
    obtain ⟨s₁, h₁, h₂⟩ := exec_cons hexec
    exact head hm.1 h₁ (ih (hm.2 s₁ h₁) h₂)

theorem invariant {P : σ → Prop} (hstep : ∀ {s e s'}, P s → ok s e → step s e = some s' → P s')
    (hs : P s) (h : Reaches step ok s t) : P t := by
  obtain ⟨es, hm, hexec⟩ := h
  exact exec_invariant_of_meets hstep hs hm hexec

end Reaches

end Run
