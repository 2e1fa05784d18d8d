import Mathlib

/-!
# Support — Forest — meets of covering relations

A relation that covers like a tree: what covers one thing is in line, each of two covering the other
or being covered by it.  The meet of two lists takes the narrower of each pair in line, and covers
exactly what both lists cover (`covers_meet`); it is empty exactly where they cover nothing in common
(`meet_eq_nil_iff`).
-/

namespace Forest
variable {α : Type*} {r : α → α → Prop}

/-- A reflexive and transitive relation under which what covers one thing is in line. -/
structure IsForest (r : α → α → Prop) : Prop where
  refl : ∀ a, r a a
  trans : ∀ {a b c}, r a b → r b c → r a c
  inLine : ∀ {a b c}, r a c → r b c → r a b ∨ r b a

/-- The narrower of two in line, and nothing of two that are not. -/
structure Picks (r : α → α → Prop) (pick : α → α → Option α) : Prop where
  narrower : ∀ {a b x}, pick a b = some x → r b a ∧ x = a ∨ r a b ∧ x = b
  apart : ∀ {a b}, pick a b = none → ¬ r a b ∧ ¬ r b a

/-- Some element of the list covers it. -/
def Covers (r : α → α → Prop) (l : List α) (c : α) : Prop := ∃ a ∈ l, r a c

/-- The narrower of each pair in line. -/
def meet (pick : α → α → Option α) (l l' : List α) : List α :=
  l.flatMap fun a => l'.filterMap (pick a)

variable {pick : α → α → Option α} {l l' : List α}

theorem mem_meet {x : α} : x ∈ meet pick l l' ↔ ∃ a ∈ l, ∃ b ∈ l', pick a b = some x := by
  simp [meet]

theorem Covers.append {c : α} : Covers r (l ++ l') c ↔ Covers r l c ∨ Covers r l' c := by
  simp [Covers, or_and_right, exists_or]

section
variable (hr : IsForest r) (hpick : Picks r pick)
include hr hpick

/-- **The meet covers what both cover.** -/
theorem covers_meet (c : α) : Covers r (meet pick l l') c ↔ Covers r l c ∧ Covers r l' c := by
  constructor
  · rintro ⟨x, hx, hxc⟩
    obtain ⟨a, ha, b, hb, hab⟩ := mem_meet.mp hx
    rcases hpick.narrower hab with ⟨hba, rfl⟩ | ⟨hab', rfl⟩
    · exact ⟨⟨x, ha, hxc⟩, b, hb, hr.trans hba hxc⟩
    · exact ⟨⟨a, ha, hr.trans hab' hxc⟩, x, hb, hxc⟩
  · rintro ⟨⟨a, ha, hac⟩, b, hb, hbc⟩
    cases hab : pick a b with
    | none =>
      obtain ⟨hnot, hnot'⟩ := hpick.apart hab
      exact ((hr.inLine hac hbc).elim hnot hnot').elim
    | some x =>
      refine ⟨x, mem_meet.mpr ⟨a, ha, b, hb, hab⟩, ?_⟩
      rcases hpick.narrower hab with ⟨-, rfl⟩ | ⟨-, rfl⟩
      · exact hac
      · exact hbc

/-- **The meet is empty where nothing is covered by both.** -/
theorem meet_eq_nil_iff : meet pick l l' = [] ↔ ∀ c, ¬ (Covers r l c ∧ Covers r l' c) := by
  constructor
  · intro hnil c hc
    obtain ⟨x, hx, -⟩ := (covers_meet hr hpick c).mpr hc
    rw [hnil] at hx
    cases hx
  · intro hnone
    rw [List.eq_nil_iff_forall_not_mem]
    intro x hx
    exact hnone x ((covers_meet hr hpick x).mp ⟨x, hx, hr.refl x⟩)

end

end Forest
