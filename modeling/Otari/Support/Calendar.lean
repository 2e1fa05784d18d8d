import Mathlib

/-!
# Support — Calendar — windows between bounds, and the days and months of the Gregorian calendar

`window S n` runs from bound `n` of an increasing sequence to the next.  An instant is in one window
only (`index_unique`), and the instant a window ends is in the next one (`index_ends`).

A `Date` is a year from 1 to 9999, a month and a day of it.  `ordinal` counts days, the first of
January of year 1 being day one.  `monthStart n` is the ordinal of the first day of the `n`-th month
since then.  It increases (`monthStart_strictMono`), a date lies in the window of its own month
(`holds_monthWindow`), and every ordinal up to the last is a date's (`exists_ordinal`).
-/

namespace Windows

/-! ### Windows -/

variable {α : Type*} [LinearOrder α] {S : ℕ → α} {w : α × α} {t : α} {m n : ℕ}

/-- From a bound to the next. -/
def window (S : ℕ → α) (n : ℕ) : α × α := (S n, S (n + 1))

/-- The window has begun and has not ended. -/
def Holds (w : α × α) (t : α) : Prop := w.1 ≤ t ∧ t < w.2

/-- **One window an instant.** -/
theorem index_unique (hS : StrictMono S) (hm : Holds (window S m) t) (hn : Holds (window S n) t) :
    m = n := by
  have hmn : m < n + 1 := hS.lt_iff_lt.mp (hm.1.trans_lt hn.2)
  have hnm : n < m + 1 := hS.lt_iff_lt.mp (hn.1.trans_lt hm.2)
  exact le_antisymm (Nat.lt_succ_iff.mp hmn) (Nat.lt_succ_iff.mp hnm)

/-- **The end of a window is in the next one.** -/
theorem index_ends (hS : StrictMono S) (h : Holds (window S n) (window S m).2) : n = m + 1 :=
  index_unique hS h ⟨le_rfl, hS (Nat.lt_succ_self _)⟩

theorem exists_holds (h₀ : S 0 ≤ t) (hn : t < S n) : ∃ m < n, Holds (window S m) t := by
  induction n with
  | zero => exact absurd h₀ (not_le.mpr hn)
  | succ n ih =>
    rcases le_or_gt (S n) t with h | h
    · exact ⟨n, Nat.lt_succ_self _, h, hn⟩
    · obtain ⟨m, hm, hholds⟩ := ih h
      exact ⟨m, hm.trans (Nat.lt_succ_self _), hholds⟩

end Windows

namespace Calendar
open Windows

/-! ### Dates -/

def isLeap (year : ℕ) : Bool := year % 4 = 0 ∧ (year % 100 ≠ 0 ∨ year % 400 = 0)

def daysInMonth (year : ℕ) : ℕ → ℕ
  | 2 => if isLeap year then 29 else 28
  | 4 | 6 | 9 | 11 => 30
  | _ => 31

def daysBeforeYear (year : ℕ) : ℕ :=
  (year - 1) * 365 + (year - 1) / 4 - (year - 1) / 100 + (year - 1) / 400

def daysBeforeMonth (year : ℕ) : ℕ → ℕ
  | 0 | 1 => 0
  | month + 2 => daysBeforeMonth year (month + 1) + daysInMonth year (month + 1)

def maxYear : ℕ := 9999

structure Date where
  year : ℕ
  month : ℕ
  day : ℕ
  year_mem : 1 ≤ year ∧ year ≤ maxYear
  month_mem : 1 ≤ month ∧ month ≤ 12
  day_mem : 1 ≤ day ∧ day ≤ daysInMonth year month
deriving DecidableEq

def Date.make (year month day : ℕ) : Option Date :=
  if h : (1 ≤ year ∧ year ≤ maxYear) ∧ (1 ≤ month ∧ month ≤ 12) ∧
      1 ≤ day ∧ day ≤ daysInMonth year month then
    some ⟨year, month, day, h.1, h.2.1, h.2.2⟩
  else none

def Date.ordinal (d : Date) : ℕ := daysBeforeYear d.year + daysBeforeMonth d.year d.month + d.day

def maxOrdinal : ℕ := 3652059

/-! ### Months -/

def Date.monthIndex (d : Date) : ℕ := 12 * (d.year - 1) + (d.month - 1)

/-- The ordinal of the first day of a month. -/
def monthStart (n : ℕ) : ℕ :=
  daysBeforeYear (n / 12 + 1) + daysBeforeMonth (n / 12 + 1) (n % 12 + 1) + 1

theorem daysInMonth_pos (year month : ℕ) : 1 ≤ daysInMonth year month := by
  rw [daysInMonth.eq_def]
  split
  · split <;> decide
  all_goals decide

theorem daysBeforeYear_add (y : ℕ) :
    daysBeforeYear (y + 2) = daysBeforeYear (y + 1) + (365 + if isLeap (y + 1) then 1 else 0) := by
  have h4 : (y + 1) / 4 = y / 4 + if (y + 1) % 4 = 0 then 1 else 0 := by
    simp only [Nat.succ_div, Nat.dvd_iff_mod_eq_zero]
  have h100 : (y + 1) / 100 = y / 100 + if (y + 1) % 100 = 0 then 1 else 0 := by
    simp only [Nat.succ_div, Nat.dvd_iff_mod_eq_zero]
  have h400 : (y + 1) / 400 = y / 400 + if (y + 1) % 400 = 0 then 1 else 0 := by
    simp only [Nat.succ_div, Nat.dvd_iff_mod_eq_zero]
  have hle : y / 100 ≤ y / 4 := Nat.div_le_div_left (by decide) (by decide)
  have hcentury : (y + 1) % 100 = 0 → (y + 1) % 4 = 0 := by omega
  have hfourth : (y + 1) % 400 = 0 → (y + 1) % 100 = 0 := by omega
  simp only [daysBeforeYear, Nat.add_sub_cancel, show y + 2 - 1 = y + 1 from rfl, h4, h100, h400,
    isLeap, decide_eq_true_eq]
  clear h4 h100 h400
  -- the quotients are only added up
  generalize y / 4 = quarters, y / 100 = centuries, y / 400 = cycles at hle ⊢
  generalize (y + 1) % 4 = r4, (y + 1) % 100 = r100, (y + 1) % 400 = r400 at hcentury hfourth ⊢
  split_ifs <;> omega

theorem daysBeforeMonth_last (year : ℕ) :
    daysBeforeMonth year 13 = 365 + if isLeap year then 1 else 0 := by
  cases hleap : isLeap year <;> simp [daysBeforeMonth, daysInMonth, hleap]

theorem daysBeforeYear_succ (n : ℕ) :
    daysBeforeYear (n + 2) = daysBeforeYear (n + 1) + daysBeforeMonth (n + 1) 13 := by
  rw [daysBeforeYear_add, daysBeforeMonth_last]

/-- **A month begins a month's days after the one before.** -/
theorem monthStart_succ (n : ℕ) :
    monthStart (n + 1) = monthStart n + daysInMonth (n / 12 + 1) (n % 12 + 1) := by
  have hdays : daysBeforeMonth (n / 12 + 1) (n % 12 + 2) =
      daysBeforeMonth (n / 12 + 1) (n % 12 + 1) + daysInMonth (n / 12 + 1) (n % 12 + 1) := rfl
  rcases Nat.lt_or_ge (n % 12) 11 with h | h
  · have hyear : (n + 1) / 12 = n / 12 := by omega
    have hmonth : (n + 1) % 12 + 1 = n % 12 + 2 := by omega
    rw [monthStart, monthStart, hyear, hmonth, hdays]
    ring
  · have hyear : (n + 1) / 12 = n / 12 + 1 := by omega
    have hmonth : (n + 1) % 12 + 1 = 1 := by omega
    have hlast : n % 12 + 2 = 13 := by omega
    rw [hlast] at hdays
    rw [monthStart, monthStart, hyear, hmonth, daysBeforeYear_succ, hdays,
      show daysBeforeMonth (n / 12 + 1 + 1) 1 = 0 from rfl]
    ring

theorem monthStart_strictMono : StrictMono monthStart :=
  strictMono_nat_of_lt_succ fun n => by
    rw [monthStart_succ]
    exact Nat.lt_add_of_pos_right (daysInMonth_pos _ _)

variable (d : Date)

theorem Date.monthIndex_div : d.monthIndex / 12 + 1 = d.year := by
  have := d.year_mem
  have := d.month_mem
  rw [Date.monthIndex]
  omega

theorem Date.monthIndex_mod : d.monthIndex % 12 + 1 = d.month := by
  have := d.month_mem
  rw [Date.monthIndex]
  omega

theorem Date.monthStart_add_day : monthStart d.monthIndex + d.day = d.ordinal + 1 := by
  rw [monthStart, d.monthIndex_div, d.monthIndex_mod, Date.ordinal]
  ring

/-- **A date lies in its own month.** -/
theorem Date.holds_monthWindow : Holds (window monthStart d.monthIndex) d.ordinal := by
  have hstart := d.monthStart_add_day
  have hday := d.day_mem
  refine ⟨?_, ?_⟩
  · simp only [window]
    omega
  · simp only [window, monthStart_succ, d.monthIndex_div, d.monthIndex_mod]
    omega

theorem monthStart_last : monthStart (12 * maxYear) = maxOrdinal + 1 := by decide

theorem Date.ordinal_mem : 1 ≤ d.ordinal ∧ d.ordinal ≤ maxOrdinal := by
  have hyear := d.year_mem
  have hmonth := d.month_mem
  have hday := d.day_mem
  have hlast : d.monthIndex + 1 ≤ 12 * maxYear := by
    rw [Date.monthIndex]
    omega
  have hends := d.holds_monthWindow.2.trans_le (monthStart_strictMono.monotone hlast)
  rw [monthStart_last] at hends
  rw [Date.ordinal] at hends ⊢
  omega

/-- **Every ordinal is a date's.** -/
theorem exists_ordinal {n : ℕ} (h₁ : 1 ≤ n) (h₂ : n ≤ maxOrdinal) : ∃ d : Date, d.ordinal = n := by
  obtain ⟨m, hm, hstart, hends⟩ : ∃ m < 12 * maxYear, Holds (window monthStart m) n :=
    exists_holds h₁ (by rw [monthStart_last]; omega)
  simp only [window, monthStart_succ] at hstart hends
  have hyear : 1 ≤ m / 12 + 1 ∧ m / 12 + 1 ≤ maxYear := by omega
  have hmonth : 1 ≤ m % 12 + 1 ∧ m % 12 + 1 ≤ 12 := by omega
  refine ⟨⟨m / 12 + 1, m % 12 + 1, n - monthStart m + 1, hyear, hmonth, by omega⟩, ?_⟩
  simp only [Date.ordinal, monthStart] at hstart ⊢
  omega

theorem Date.monthStart_next_year (h : d.month = 12) :
    monthStart (d.monthIndex + 1) = daysBeforeYear (d.year + 1) + 1 := by
  have hyear := d.year_mem
  have hindex : d.monthIndex + 1 = 12 * d.year := by
    rw [Date.monthIndex]
    omega
  simp only [hindex, monthStart, Nat.mul_div_cancel_left _ (show 0 < 12 by decide),
    Nat.mul_mod_right, daysBeforeMonth, Nat.add_zero]

theorem Date.monthStart_next_month (h : d.month ≠ 12) : monthStart (d.monthIndex + 1) =
      daysBeforeYear d.year + daysBeforeMonth d.year (d.month + 1) + 1 := by
  have hmonth := d.month_mem
  have hdiv := d.monthIndex_div
  have hmod := d.monthIndex_mod
  have hyear : (d.monthIndex + 1) / 12 + 1 = d.year := by omega
  have hnext : (d.monthIndex + 1) % 12 + 1 = d.month + 1 := by omega
  rw [monthStart, hyear, hnext]

end Calendar
