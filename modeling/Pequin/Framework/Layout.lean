import Mathlib.Data.List.Basic

/-!
# Formats with a layout

A format writes values as strings without marking where a part ends. What is needed to find the parts again is the
layout of a value: how many entries its lists have, how long its strings are, which optional parts are there.
`Format.cancel`: two values with one layout can be told apart by what is written.
-/

/-- A way to write values as strings, and their layout. -/
structure Format (B α : Type) where
  Layout : Type
  layout : α → Layout
  encode : α → List B
  cancel : ∀ {a b : α} {x y : List B}, layout a = layout b → encode a ++ x = encode b ++ y → a = b ∧ x = y

namespace Format

open List

variable {B α β : Type}

theorem encode_inj (F : Format B α) {a b : α} (hl : F.layout a = F.layout b) (h : F.encode a = F.encode b) : a = b :=
  (F.cancel (x := []) (y := []) hl (by rw [h])).1

/-- Values that all take the same number of characters. -/
def fixed (f : α → List B) (n : Nat) (hlen : ∀ a, (f a).length = n) (hinj : Function.Injective f) : Format B α where
  Layout := Unit
  layout _ := ()
  encode := f
  cancel {a b _ _} _ h :=
    let ⟨hf, hxy⟩ := append_inj h (by rw [hlen a, hlen b])
    ⟨hinj hf, hxy⟩

def string : Format B (List B) where
  Layout := Nat
  layout := length
  encode := id
  cancel hl h := append_inj h hl

def pair (F : Format B α) (G : Format B β) : Format B (α × β) where
  Layout := F.Layout × G.Layout
  layout a := (F.layout a.1, G.layout a.2)
  encode a := F.encode a.1 ++ G.encode a.2
  cancel {a b x y} hl h := by
    obtain ⟨hl₁, hl₂⟩ := Prod.mk.inj hl
    rw [append_assoc, append_assoc] at h
    obtain ⟨h₁, hrest⟩ := F.cancel hl₁ h
    obtain ⟨h₂, hxy⟩ := G.cancel hl₂ hrest
    exact ⟨Prod.ext h₁ h₂, hxy⟩

def list (F : Format B α) : Format B (List α) where
  Layout := List F.Layout
  layout := map F.layout
  encode := flatMap F.encode
  cancel {a b x y} hl h := by
    induction a generalizing b with
    | nil =>
      obtain rfl : b = [] := map_eq_nil_iff.mp hl.symm
      exact ⟨rfl, h⟩
    | cons head tail ih =>
      cases b with
      | nil => cases hl
      | cons head' tail' =>
        obtain ⟨hl₁, hl₂⟩ := cons.inj hl
        rw [flatMap_cons, flatMap_cons, append_assoc, append_assoc] at h
        obtain ⟨h₁, hrest⟩ := F.cancel hl₁ h
        obtain ⟨h₂, hxy⟩ := ih hl₂ hrest
        exact ⟨by rw [h₁, h₂], hxy⟩

/-- A value of one kind or of the other, without a tag. -/
def either (F : Format B α) (G : Format B β) : Format B (α ⊕ β) where
  Layout := F.Layout ⊕ G.Layout
  layout := Sum.map F.layout G.layout
  encode := Sum.elim F.encode G.encode
  cancel {a b x y} hl h := by
    cases a with
    | inl a =>
      cases b with
      | inl b =>
        obtain ⟨hab, hxy⟩ := F.cancel (Sum.inl.inj hl) h
        exact ⟨by rw [hab], hxy⟩
      | inr b => cases hl
    | inr a =>
      cases b with
      | inl b => cases hl
      | inr b =>
        obtain ⟨hab, hxy⟩ := G.cancel (Sum.inr.inj hl) h
        exact ⟨by rw [hab], hxy⟩

def option (F : Format B α) : Format B (Option α) where
  Layout := Option F.Layout
  layout := Option.map F.layout
  encode a := a.elim [] F.encode
  cancel {a b x y} hl h := by
    cases a with
    | none =>
      cases b with
      | none => exact ⟨rfl, h⟩
      | some b => cases hl
    | some a =>
      cases b with
      | none => cases hl
      | some b =>
        obtain ⟨hab, hxy⟩ := F.cancel (Option.some.inj hl) h
        exact ⟨by rw [hab], hxy⟩

/-- A value that is determined by what is written of it. -/
def via (F : Format B β) (f : α → β) (hf : Function.Injective f) : Format B α where
  Layout := F.Layout
  layout a := F.layout (f a)
  encode a := F.encode (f a)
  cancel hl h :=
    let ⟨hab, hxy⟩ := F.cancel hl h
    ⟨hf hab, hxy⟩

end Format
