import Mathlib.Data.Option.Basic
import Mathlib.Order.Basic

/-!
# Support — Truth — the three truth values of SQL

A condition over columns that may be NULL is true, false or unknown.  A comparison with NULL is
unknown, and a row is selected where its condition `Holds`, which an unknown one does not.
`holds_and` and `holds_or` read a condition part by part.
-/

abbrev Truth := Option Bool

namespace Truth

/-- Whether a row with this condition is selected. -/
def Holds (t : Truth) : Prop := t = some true

instance instDecidableHolds (t : Truth) : Decidable t.Holds := inferInstanceAs (Decidable (_ = _))

/-- False where either is, and else unknown where either is. -/
def and : Truth → Truth → Truth
  | some false, _ => some false
  | _, some false => some false
  | some true, t => t
  | none, _ => none

/-- True where either is, and else unknown where either is. -/
def or : Truth → Truth → Truth
  | some true, _ => some true
  | _, some true => some true
  | some false, t => t
  | none, _ => none

/-- A comparison of two columns, unknown where either is NULL. -/
def compare {α : Type} (r : α → α → Prop) [∀ a b, Decidable (r a b)] (a b : Option α) : Truth :=
  a.bind fun a => b.map fun b => decide (r a b)

/-- `IS NULL`, which is never unknown. -/
def isNull {α : Type} (a : Option α) : Truth := some a.isNone

@[simp] theorem holds_and {s t : Truth} : (s.and t).Holds ↔ s.Holds ∧ t.Holds := by
  rcases s with _ | _ | _ <;> rcases t with _ | _ | _ <;> simp [Truth.and, Holds]

@[simp] theorem holds_or {s t : Truth} : (s.or t).Holds ↔ s.Holds ∨ t.Holds := by
  rcases s with _ | _ | _ <;> rcases t with _ | _ | _ <;> simp [Truth.or, Holds]

variable {α : Type} {r : α → α → Prop} [∀ a b, Decidable (r a b)]

@[simp] theorem holds_compare {a b : α} : (compare r (some a) (some b)).Holds ↔ r a b := by
  simp [compare, Holds]

@[simp] theorem holds_isNull {a : Option α} : (isNull a).Holds ↔ a = none := by
  simp [isNull, Holds]

end Truth
