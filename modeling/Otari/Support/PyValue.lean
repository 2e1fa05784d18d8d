import Mathlib

/-!
# Support — PyValue — the values a JSON document is read as

What `json.loads` makes of a document: `None`, booleans, integers of any size, floats, strings, lists
and dictionaries.  A dictionary is a family of values over a finite set of names, so it has each name
once, and two with the same values under the same names are the same in whatever order they are kept.

Integers, floats and booleans are told apart here.  Python's `==` is coarser (`pyEq`): it does not tell
`True` from `1` or from `1.0`.
-/

/-- A float that a JSON number is read as. -/
inductive PyFloat where
  | finite (q : ℚ)
  | negZero
  | inf (negative : Bool)
deriving DecidableEq

/-- A value that holds no other. -/
inductive Scalar where
  | null
  | bool (b : Bool)
  | int (n : ℤ)
  | float (x : PyFloat)
  | str (s : String)
deriving DecidableEq

inductive PyValue where
  | scalar (a : Scalar)
  | arr (n : ℕ) (items : Fin n → PyValue)
  | obj (keys : Finset String) (vals : {k // k ∈ keys} → PyValue)

namespace Scalar

/-- Python's truth. -/
def truthy : Scalar → Bool
  | null => false
  | bool b => b
  | int n => n ≠ 0
  | float (.finite q) => q ≠ 0
  | float .negZero => false
  | float (.inf _) => true
  | str s => s ≠ ""

/-- The number a value is equal to, an infinity by its sign. -/
def number? : Scalar → Option (ℚ ⊕ Bool)
  | null => none
  | bool b => some (.inl (if b then 1 else 0))
  | int n => some (.inl n)
  | float (.finite q) => some (.inl q)
  | float .negZero => some (.inl 0)
  | float (.inf negative) => some (.inr negative)
  | str _ => none

/-- `==` of two values that hold no other: numbers by what they are equal to. -/
def pyEq (a b : Scalar) : Bool :=
  match a.number?, b.number? with
  | some x, some y => x = y
  | _, _ => a = b

@[simp] theorem pyEq_self (a : Scalar) : a.pyEq a = true := by
  rw [pyEq]
  split
  · rename_i x y hx hy
    rw [hx] at hy
    simpa using hy
  · simp

theorem pyEq_str {a : Scalar} {s : String} : a.pyEq (.str s) = true ↔ a = .str s := by
  rw [pyEq]
  split
  · rename_i hy
    cases hy
  · simp

end Scalar

namespace PyValue

/-- `None`. -/
def none : PyValue := .scalar .null

/-- `dict.get`, of a dictionary. -/
def get : PyValue → String → Option PyValue
  | obj keys vals, key => if h : key ∈ keys then some (vals ⟨key, h⟩) else Option.none
  | _, _ => Option.none

def items : PyValue → List PyValue
  | arr _ items => List.ofFn items
  | _ => []

/-- A value that holds no other. -/
def scalar? : PyValue → Option Scalar
  | scalar a => some a
  | _ => Option.none

def ofList (l : List PyValue) : PyValue := .arr l.length l.get

/-- A dictionary written out, each name once. -/
def dict (fields : List (String × PyValue)) : PyValue :=
  .obj (fields.map Prod.fst).toFinset fun k => (fields.lookup k.1).getD none

def isDict : PyValue → Bool
  | obj _ _ => true
  | _ => false

/-- Python's truth. -/
def truthy : PyValue → Bool
  | scalar a => a.truthy
  | arr n _ => n ≠ 0
  | obj keys _ => keys ≠ ∅

def string? : Option PyValue → Option (List Char)
  | some (scalar (.str s)) => some s.toList
  | _ => Option.none

def dict? (value : Option PyValue) : Option PyValue := value.filter isDict

@[simp] theorem get_obj {keys : Finset String} {vals : {k // k ∈ keys} → PyValue}
    (k : {k // k ∈ keys}) : (obj keys vals).get k = some (vals k) := by
  rw [get, dif_pos k.2]

@[simp] theorem items_arr {n : ℕ} (l : Fin n → PyValue) : (arr n l).items = List.ofFn l := rfl

theorem arr_congr {n m : ℕ} (h : n = m) {l : Fin n → PyValue} {l' : Fin m → PyValue}
    (hl : ∀ i : Fin n, l i = l' (Fin.cast h i)) : arr n l = arr m l' := by
  subst h
  exact congrArg (arr n) (funext hl)

theorem ofList_items {n : ℕ} (l : Fin n → PyValue) : ofList (List.ofFn l) = arr n l :=
  arr_congr List.length_ofFn fun i => by
    rw [List.get_ofFn]

/-! ### Equality -/

/-- `==`. -/
def pyEq : PyValue → PyValue → Bool
  | scalar a, scalar b => a.pyEq b
  | arr n l, arr m l' =>
    if h : n = m then decide (∀ i : Fin n, pyEq (l i) (l' (Fin.cast h i)) = true) else false
  | obj keys vals, obj keys' vals' =>
    if h : keys = keys' then
      decide (∀ k : {k // k ∈ keys}, pyEq (vals k) (vals' ⟨k.1, h ▸ k.2⟩) = true)
    else false
  | _, _ => false

@[simp] theorem pyEq_self (v : PyValue) : v.pyEq v = true := by
  induction v with
  | scalar a => exact a.pyEq_self
  | arr n l ih => simp [pyEq, ih]
  | obj keys vals ih => simp [pyEq, ih]

theorem pyEq_str {v : PyValue} {s : String} :
    v.pyEq (.scalar (.str s)) = true ↔ v = .scalar (.str s) := by
  cases v with
  | scalar a =>
    rw [pyEq, Scalar.pyEq_str]
    simp
  | arr n l => simp [pyEq]
  | obj keys vals => simp [pyEq]

theorem pyEq_arr {n m : ℕ} {l : Fin n → PyValue} {l' : Fin m → PyValue}
    (h : (arr n l).pyEq (arr m l') = true) :
    ∃ hn : n = m, ∀ i : Fin n, (l i).pyEq (l' (Fin.cast hn i)) = true := by
  rw [pyEq] at h
  split at h
  · rename_i hn
    exact ⟨hn, of_decide_eq_true h⟩
  · cases h

/-- No number and no truth value is in it. -/
def worded : PyValue → Bool
  | scalar a => a.number?.isNone
  | arr _ l => decide (∀ i, (l i).worded = true)
  | obj _ vals => decide (∀ k, (vals k).worded = true)

/-- **Where there is no number `==` is equality.** -/
theorem eq_of_pyEq {v w : PyValue} (hw : w.worded = true) (h : v.pyEq w = true) : v = w := by
  induction w generalizing v with
  | scalar a =>
    cases v with
    | scalar b => simpa [pyEq, Scalar.pyEq, Option.isNone_iff_eq_none.mp hw] using h
    | arr | obj => cases h
  | arr n l ih =>
    cases v with
    | arr m l' =>
      obtain ⟨hn, heq⟩ := pyEq_arr h
      exact arr_congr hn fun i => ih _ (of_decide_eq_true hw _) (heq i)
    | scalar | obj => cases h
  | obj keys vals ih =>
    cases v with
    | obj keys' vals' =>
      rw [pyEq] at h
      split at h
      · rename_i hkeys
        subst hkeys
        exact congrArg (obj _) (funext fun k => ih k (of_decide_eq_true hw k) (of_decide_eq_true h k))
      · cases h
    | scalar | arr => cases h

end PyValue
