import Mathlib

/-!
# Support — Expiry — logs whose items run out

Every item of a log runs out at an instant of its own.  A log that forgets items which ran out
shows the same live items ever after (`SameFrom`), so however and whenever it forgets, what it
answers about its live items does not change.
-/

namespace Expiry
open List
variable {ι κ τ : Type*} [LinearOrder τ] {expiry : ι → τ} {T now : τ} {xs ys zs : List ι}

/-- The items that have not run out at `now`. -/
def live (expiry : ι → τ) (now : τ) (xs : List ι) : List ι :=
  xs.filter fun x => now < expiry x

/-- From `T` on, the two logs show the same live items. -/
def SameFrom (expiry : ι → τ) (T : τ) (xs ys : List ι) : Prop :=
  ∀ now, T ≤ now → live expiry now xs = live expiry now ys

@[simp] theorem live_nil : live expiry now [] = [] := rfl

theorem live_append : live expiry now (xs ++ ys) = live expiry now xs ++ live expiry now ys :=
  filter_append xs ys

theorem mem_live {x : ι} : x ∈ live expiry now xs ↔ x ∈ xs ∧ now < expiry x := by
  rw [live, mem_filter, decide_eq_true_eq]

theorem live_sublist : (live expiry now xs).Sublist xs :=
  filter_sublist

theorem live_eq_nil (h : ∀ x ∈ xs, expiry x ≤ now) : live expiry now xs = [] := by
  refine filter_eq_nil_iff.mpr fun x hx => ?_
  rw [decide_eq_true_eq, not_lt]
  exact h x hx

theorem live_live (h : T ≤ now) : live expiry now (live expiry T xs) = live expiry now xs := by
  rw [live, live, filter_filter]
  refine filter_congr fun x _ => ?_
  rw [Bool.and_eq_left_iff_imp, decide_eq_true_eq, decide_eq_true_eq]
  exact fun hx => h.trans_lt hx

theorem live_map {f : ι → κ} {expiry' : κ → τ} (hf : ∀ x ∈ xs, expiry' (f x) = expiry x) :
    live expiry' now (xs.map f) = (live expiry now xs).map f := by
  rw [live, live, filter_map]
  refine congrArg _ (filter_congr fun x hx => ?_)
  rw [Function.comp_apply, hf x hx]

namespace SameFrom

@[refl] theorem refl (expiry : ι → τ) (T : τ) (xs : List ι) : SameFrom expiry T xs xs :=
  fun _ _ => rfl

theorem mono {T' : τ} (h : SameFrom expiry T xs ys) (hT : T ≤ T') : SameFrom expiry T' xs ys :=
  fun now hnow => h now (hT.trans hnow)

theorem trans (h : SameFrom expiry T xs ys) (h' : SameFrom expiry T ys zs) :
    SameFrom expiry T xs zs :=
  fun now hnow => (h now hnow).trans (h' now hnow)

theorem live : SameFrom expiry T (Expiry.live expiry T xs) xs :=
  fun _ hnow => live_live hnow

theorem nil (h : ∀ x ∈ xs, expiry x ≤ T) : SameFrom expiry T [] xs :=
  fun _ hnow => (live_eq_nil fun x hx => (h x hx).trans hnow).symm

theorem append (h : SameFrom expiry T xs ys) (zs : List ι) :
    SameFrom expiry T (xs ++ zs) (ys ++ zs) := by
  intro now hnow
  rw [live_append, live_append, h now hnow]

theorem filter (p : ι → Bool) (h : SameFrom expiry T xs ys) :
    SameFrom expiry T (xs.filter p) (ys.filter p) := by
  intro now hnow
  have hcomm : ∀ l : List ι, Expiry.live expiry now (l.filter p)
      = (Expiry.live expiry now l).filter p := by
    intro l
    rw [Expiry.live, Expiry.live, filter_filter, filter_filter]
    exact filter_congr fun x _ => Bool.and_comm _ _
  rw [hcomm, hcomm, h now hnow]

theorem map {f : ι → ι} (hf : ∀ x, expiry (f x) = expiry x) (h : SameFrom expiry T xs ys) :
    SameFrom expiry T (xs.map f) (ys.map f) := by
  intro now hnow
  rw [live_map fun x _ => hf x, live_map fun x _ => hf x, h now hnow]

end SameFrom

/-- A log that forgot only items that ran out by `T`. -/
structure Keeps (expiry : ι → τ) (T : τ) (all kept : List ι) : Prop where
  sub : kept.Sublist all
  same : SameFrom expiry T kept all

namespace Keeps

theorem refl (expiry : ι → τ) (T : τ) (all : List ι) : Keeps expiry T all all :=
  ⟨List.Sublist.refl _, .refl _ _ _⟩

theorem mono {T' : τ} (h : Keeps expiry T xs ys) (hT : T ≤ T') : Keeps expiry T' xs ys :=
  ⟨h.sub, h.same.mono hT⟩

theorem current (expiry : ι → τ) (now : τ) (all : List ι) :
    Keeps expiry now all (Expiry.live expiry now all) :=
  ⟨live_sublist, .live⟩

theorem append (h : Keeps expiry T xs ys) (zs : List ι) : Keeps expiry T (xs ++ zs) (ys ++ zs) :=
  ⟨h.sub.append_right zs, h.same.append zs⟩

theorem filter (p : ι → Bool) (h : Keeps expiry T xs ys) :
    Keeps expiry T (xs.filter p) (ys.filter p) :=
  ⟨h.sub.filter p, h.same.filter p⟩

theorem map {f : ι → ι} (hf : ∀ x, expiry (f x) = expiry x) (h : Keeps expiry T xs ys) :
    Keeps expiry T (xs.map f) (ys.map f) :=
  ⟨h.sub.map f, h.same.map hf⟩

theorem nil (h : Keeps expiry T xs ys) (hT : T ≤ now) (hys : ∀ y ∈ ys, expiry y ≤ now) :
    Keeps expiry now xs [] :=
  ⟨nil_sublist _, (SameFrom.nil hys).trans (h.same.mono hT)⟩

end Keeps

theorem sum_live_add {M : Type*} [AddCommMonoid M] (expiry : ι → τ) (now : τ) (xs : List ι)
    (f : ι → M) : ((live expiry now xs).map f).sum
      + ((xs.filter fun x => expiry x ≤ now).map f).sum = (xs.map f).sum := by
  induction xs with
  | nil => simp
  | cons x xs ih =>
    by_cases h : expiry x ≤ now
    · have hlive : live expiry now (x :: xs) = live expiry now xs := by
        rw [live, filter_cons, if_neg (by simpa using h)]
        rfl
      rw [hlive, filter_cons, if_pos (by simpa using h), map_cons, sum_cons,
        map_cons, sum_cons, ← ih, add_left_comm]
    · have hlive : live expiry now (x :: xs) = x :: live expiry now xs := by
        rw [live, filter_cons, if_pos (by simpa using h)]
        rfl
      rw [hlive, filter_cons, if_neg (by simpa using h), map_cons, sum_cons,
        map_cons, sum_cons, ← ih, add_assoc]

theorem sum_abs_le_of_sublist {f : ι → ℤ} (h : xs.Sublist ys) :
    (xs.map fun x => |f x|).sum ≤ (ys.map fun y => |f y|).sum := by
  induction h with
  | slnil => exact le_refl _
  | cons y _ ih =>
    rw [map_cons, sum_cons]
    exact ih.trans (le_add_of_nonneg_left (abs_nonneg _))
  | cons_cons y _ ih =>
    rw [map_cons, sum_cons, map_cons, sum_cons]
    exact add_le_add_right ih _

theorem abs_sum_le (f : ι → ℤ) : |(xs.map f).sum| ≤ (xs.map fun x => |f x|).sum := by
  induction xs with
  | nil => simp
  | cons x xs ih =>
    rw [map_cons, sum_cons, map_cons, sum_cons]
    exact (abs_add_le _ _).trans (add_le_add_right ih _)

end Expiry
