import Otari.Support.Calendar
import Otari.Reservations.Ceilings

/-!
# Reservations — Periods — the windows a budget resets on

`services/budgets/_periods.py`.  A budget resets on a calendar alignment, or a number of seconds
after its window was last written.  Instants are microseconds of UTC; a `Datetime` has the fields
Python's has, and its `instant`.

The calendar alignments share one shape, an `Alignment`: bounds that increase, and the index of the
window a date is in.  `alignedWindow_eq` says the three branches of the source compute that window,
or raise where its end is past the last day there is.  So calendar windows partition the time there
is.  A fixed-length window runs from the instant it is computed at, which is the roll's, so two
instants of one window get two (`fixed_windows_overlap`); of the rest, `windows_partition` says what
holds of every cadence, and of the rows a roll writes however late it comes.
-/

namespace Otari.Reservations
open Calendar Windows

/-! ### Instants -/

structure Datetime where
  date : Date
  hour : ℕ
  minute : ℕ
  second : ℕ
  microsecond : ℕ
  hour_lt : hour < 24
  minute_lt : minute < 60
  second_lt : second < 60
  microsecond_lt : microsecond < 10 ^ 6

def microsPerSecond : ℤ := 10 ^ 6
def microsPerDay : ℤ := 24 * 60 * 60 * microsPerSecond

def midnight (ordinal : ℤ) : ℤ := ordinal * microsPerDay

def Datetime.timeOfDay (t : Datetime) : ℤ :=
  ((t.hour * 60 + t.minute) * 60 + t.second) * microsPerSecond + t.microsecond

def Datetime.instant (t : Datetime) : ℤ := midnight t.date.ordinal + t.timeOfDay

/-- What the arithmetic of dates raises: `ValueError` and `OverflowError`. -/
inductive PeriodError where
  | value | overflow
deriving DecidableEq

def plusDays (ordinal days : ℤ) : Except PeriodError ℤ :=
  if 1 ≤ ordinal + days ∧ ordinal + days ≤ maxOrdinal then .ok (ordinal + days)
  else .error .overflow

/-- The instant some seconds from another. -/
def plusSeconds (instant seconds : ℤ) : Except PeriodError ℤ :=
  let moved := instant + seconds * microsPerSecond
  if midnight 1 ≤ moved ∧ moved < midnight (maxOrdinal + 1) then .ok moved else .error .overflow

/-- `replace`: a date with other fields. -/
def replaced (year month day : ℕ) : Except PeriodError Date :=
  match Date.make year month day with
  | some date => .ok date
  | none => .error .value

/-! ### Windows -/

def alignDay : String := "calendar_day"
def alignWeek : String := "calendar_week"
def alignMonth : String := "calendar_month"

/-- Monday is day zero. -/
def weekday (date : Date) : ℕ := (date.ordinal + 6) % 7

/-- The first day of the month after `start`, itself the first of its own. -/
def nextMonth (start : Date) : Except PeriodError Date :=
  if start.month = 12 then replaced (start.year + 1) 1 start.day
  else replaced start.year (start.month + 1) start.day

/-- `aligned_window`: the UTC calendar window containing `now`. -/
def alignedWindow (alignment : String) (now : Datetime) : Except PeriodError (ℤ × ℤ) :=
  let day : ℤ := now.date.ordinal
  if alignment = alignDay then do
    let ends ← plusDays day 1
    return (midnight day, midnight ends)
  else if alignment = alignWeek then do
    let start ← plusDays day (-weekday now.date)
    let ends ← plusDays start 7
    return (midnight start, midnight ends)
  else if alignment = alignMonth then do
    let start ← replaced now.date.year now.date.month 1
    let ends ← nextMonth start
    return (midnight start.ordinal, midnight ends.ordinal)
  else .error .value

/-- `period_window`: none for a budget that never resets. -/
def periodWindow (now : Datetime) (duration : Option ℤ) (alignment : Option String) :
    Except PeriodError (Option (ℤ × ℤ)) :=
  match alignment with
  | some alignment => do
    let window ← alignedWindow alignment now
    return some window
  | none =>
    match duration with
    | some seconds =>
      if seconds ≠ 0 then do
        let ends ← plusSeconds now.instant seconds
        return some (now.instant, ends)
      else .ok none
    | none => .ok none

/-- `rolled_window`: where a window that ran out is moved, open from `now` if the cadence no longer
resets. -/
def rolledWindow (now : Datetime) (duration : Option ℤ) (alignment : Option String) :
    Except PeriodError (ℤ × Option ℤ) := do
  let window ← periodWindow now duration alignment
  return (window.elim now.instant Prod.fst, window.map Prod.snd)

/-- `effective_period`: the window a read reports in place of one that has ended. -/
def effectivePeriod (periodEnd : Option ℤ) (now : Datetime) (duration : Option ℤ)
    (alignment : Option String) : Except PeriodError (Option (ℤ × Option ℤ)) :=
  if periodEnded now.instant periodEnd then do
    let window ← rolledWindow now duration alignment
    return some window
  else .ok none

/-! ### The instants of a day -/

theorem timeOfDay_mem (t : Datetime) : 0 ≤ t.timeOfDay ∧ t.timeOfDay < microsPerDay := by
  have := t.hour_lt
  have := t.minute_lt
  have := t.second_lt
  have := t.microsecond_lt
  simp only [Datetime.timeOfDay, microsPerDay, microsPerSecond]
  omega

theorem midnight_strictMono : StrictMono midnight := fun a b h =>
  mul_lt_mul_of_pos_right h (by decide)

theorem holds_midnight {a b : ℤ} (t : Datetime) :
    Holds (midnight a, midnight b) t.instant ↔ Holds (a, b) (t.date.ordinal : ℤ) := by
  have htime := timeOfDay_mem t
  have hpos : 0 < microsPerDay := by decide
  simp only [Holds, Datetime.instant, midnight]
  constructor
  · rintro ⟨hstart, hends⟩
    refine ⟨?_, ?_⟩
    · by_contra hlt
      nlinarith
    · by_contra hge
      nlinarith
  · rintro ⟨hstart, hends⟩
    refine ⟨?_, ?_⟩
    · nlinarith
    · nlinarith

/-- **Every instant of the calendar is a datetime's.** -/
theorem exists_instant {t : ℤ} (h₁ : midnight 1 ≤ t) (h₂ : t < midnight (maxOrdinal + 1)) :
    ∃ now : Datetime, now.instant = t := by
  simp only [midnight, microsPerDay, microsPerSecond, maxOrdinal] at h₁ h₂
  obtain ⟨date, hdate⟩ : ∃ date : Date, date.ordinal = (t / (24 * 60 * 60 * 10 ^ 6)).toNat :=
    exists_ordinal (by omega) (by simp only [maxOrdinal]; omega)
  refine ⟨⟨date, (t / (60 * 60 * 10 ^ 6) % 24).toNat, (t / (60 * 10 ^ 6) % 60).toNat,
    (t / 10 ^ 6 % 60).toNat, (t % 10 ^ 6).toNat, by omega, by omega, by omega, by omega⟩, ?_⟩
  simp only [Datetime.instant, Datetime.timeOfDay, midnight, microsPerDay, microsPerSecond, hdate]
  omega

/-! ### Alignments -/

/-- A calendar alignment: the day each window begins, and the window a date is in. -/
structure Alignment where
  name : String
  start : ℕ → ℕ
  index : Date → ℕ
  start_strictMono : StrictMono start
  holds : ∀ date, Holds (window start (index date)) date.ordinal

def calendarDay : Alignment where
  name := alignDay
  start n := n + 1
  index date := date.ordinal - 1
  start_strictMono _ _ h := Nat.succ_lt_succ h
  holds date := by
    have := date.ordinal_mem
    simp only [Holds, window]
    omega

/-- Weeks begin on Mondays, and the first day was one. -/
def calendarWeek : Alignment where
  name := alignWeek
  start n := 7 * n + 1
  index date := (date.ordinal - 1) / 7
  start_strictMono m n h := by
    show 7 * m + 1 < 7 * n + 1
    omega
  holds date := by
    have := date.ordinal_mem
    simp only [Holds, window]
    omega

def calendarMonth : Alignment where
  name := alignMonth
  start := monthStart
  index := Date.monthIndex
  start_strictMono := monthStart_strictMono
  holds := Date.holds_monthWindow

def alignments : List Alignment := [calendarDay, calendarWeek, calendarMonth]

namespace Alignment
variable (a : Alignment)

def bound (n : ℕ) : ℤ := midnight (a.start n)

def windowAt (now : Datetime) : ℤ × ℤ := window a.bound (a.index now.date)

theorem bound_strictMono : StrictMono a.bound := fun _ _ h =>
  midnight_strictMono (Int.ofNat_lt.mpr (a.start_strictMono h))

theorem holds_windowAt (now : Datetime) : Holds (a.windowAt now) now.instant := by
  have hday := a.holds now.date
  refine (holds_midnight now).mpr ⟨?_, ?_⟩
  · exact Int.ofNat_le.mpr hday.1
  · exact Int.ofNat_lt.mpr hday.2

/-- **Every instant of a window has that window.** -/
theorem windowAt_eq {now other : Datetime} (h : Holds (a.windowAt now) other.instant) : a.windowAt other = a.windowAt now :=
  congrArg (window a.bound) (index_unique a.bound_strictMono (a.holds_windowAt other) h)

/-- **The instant a window ends has the one that starts there.** -/
theorem windowAt_ends {now next : Datetime} (h : next.instant = (a.windowAt now).2) :
    (a.windowAt next).1 = (a.windowAt now).2 := by
  have hholds := a.holds_windowAt next
  rw [h] at hholds
  show a.bound (a.index next.date) = a.bound (a.index now.date + 1)
  rw [index_ends a.bound_strictMono hholds]

/-- The day its window ends is a day of the calendar. -/
def Ends (now : Datetime) : Prop := a.start (a.index now.date + 1) ≤ maxOrdinal

end Alignment

/-! ### What the source computes -/

theorem plusDays_ok {ordinal days : ℤ} (h₁ : 1 ≤ ordinal + days) (h₂ : ordinal + days ≤ maxOrdinal) :
    plusDays ordinal days = .ok (ordinal + days) := if_pos ⟨h₁, h₂⟩

theorem plusDays_past {ordinal days : ℤ} (h : (maxOrdinal : ℤ) < ordinal + days) :
    plusDays ordinal days = .error .overflow := if_neg fun hle => absurd h (not_lt.mpr hle.2)

theorem alignedDay_eq (now : Datetime) :
    (calendarDay.Ends now → alignedWindow alignDay now = .ok (calendarDay.windowAt now)) ∧
      (¬ calendarDay.Ends now → alignedWindow alignDay now = .error .overflow) := by
  have hord := now.date.ordinal_mem
  have hstart : now.date.ordinal - 1 + 1 = now.date.ordinal := by omega
  simp only [Alignment.Ends, calendarDay, Alignment.windowAt, window, Alignment.bound, hstart]
  refine ⟨fun h => ?_, fun h => ?_⟩
  · rw [alignedWindow, if_pos rfl, plusDays_ok (by omega) (by omega)]
    rfl
  · rw [alignedWindow, if_pos rfl, plusDays_past (by omega)]
    rfl

theorem alignedWeek_eq (now : Datetime) :
    (calendarWeek.Ends now → alignedWindow alignWeek now = .ok (calendarWeek.windowAt now)) ∧
      (¬ calendarWeek.Ends now → alignedWindow alignWeek now = .error .overflow) := by
  have hord := now.date.ordinal_mem
  have hmonday : (now.date.ordinal : ℤ) + -(weekday now.date : ℤ) =
      (7 * ((now.date.ordinal - 1) / 7) + 1 : ℕ) := by
    rw [weekday]
    omega
  have hne : alignWeek ≠ alignDay := by decide
  simp only [Alignment.Ends, calendarWeek, Alignment.windowAt, window, Alignment.bound]
  refine ⟨fun h => ?_, fun h => ?_⟩
  · rw [alignedWindow, if_neg hne, if_pos rfl, plusDays_ok (by omega) (by omega), hmonday]
    simp only [bind, Except.bind]
    rw [plusDays_ok (by omega) (by omega)]
    simp only [pure, Except.pure, Nat.cast_add, Nat.cast_mul, Nat.cast_one, Nat.cast_ofNat]
    ring_nf
  · rw [alignedWindow, if_neg hne, if_pos rfl, plusDays_ok (by omega) (by omega), hmonday]
    simp only [bind, Except.bind]
    rw [plusDays_past (by omega)]

theorem replaced_ok {year month day : ℕ} (hyear : 1 ≤ year ∧ year ≤ maxYear)
    (hmonth : 1 ≤ month ∧ month ≤ 12) (hday : 1 ≤ day ∧ day ≤ daysInMonth year month) :
    replaced year month day = .ok ⟨year, month, day, hyear, hmonth, hday⟩ := by
  rw [replaced, Date.make, dif_pos ⟨hyear, hmonth, hday⟩]

theorem replaced_past {month day : ℕ} : replaced (maxYear + 1) month day = .error .value := by
  rw [replaced, Date.make, dif_neg fun h => absurd h.1.2 (by decide)]

theorem monthEnds_iff (now : Datetime) :
    calendarMonth.Ends now ↔ now.date.monthIndex + 1 < 12 * maxYear := by
  rw [← monthStart_strictMono.lt_iff_lt, monthStart_last, Nat.lt_succ_iff]
  rfl

theorem nextMonth_ok (start : Date) (hday : start.day = 1)
    (h : start.monthIndex + 1 < 12 * maxYear) :
    ∃ date, nextMonth start = .ok date ∧ date.ordinal = monthStart (start.monthIndex + 1) := by
  have hyear := start.year_mem
  have hmonth := start.month_mem
  rw [nextMonth, hday]
  rw [Date.monthIndex] at h
  split
  · rename_i hlast
    have hnext : start.year + 1 ≤ maxYear := by
      rw [hlast] at h
      omega
    exact ⟨_, replaced_ok ⟨Nat.succ_pos _, hnext⟩ (by decide) ⟨le_rfl, daysInMonth_pos _ _⟩,
      (start.monthStart_next_year hlast).symm⟩
  · rename_i hlast
    have hnext : start.month + 1 ≤ 12 := by omega
    exact ⟨_, replaced_ok hyear ⟨Nat.succ_pos _, hnext⟩ ⟨le_rfl, daysInMonth_pos _ _⟩,
      (start.monthStart_next_month hlast).symm⟩

theorem nextMonth_past (start : Date) (h : ¬ start.monthIndex + 1 < 12 * maxYear) :
    nextMonth start = .error .value := by
  have hyear := start.year_mem
  have hmonth := start.month_mem
  rw [Date.monthIndex] at h
  have hlast : start.month = 12 ∧ start.year = maxYear := by
    simp only [maxYear] at h hyear ⊢
    omega
  rw [nextMonth, if_pos hlast.1, hlast.2, replaced_past]

theorem alignedMonth_eq (now : Datetime) :
    (calendarMonth.Ends now → alignedWindow alignMonth now = .ok (calendarMonth.windowAt now)) ∧
      (¬ calendarMonth.Ends now → alignedWindow alignMonth now = .error .value) := by
  obtain ⟨start, hstart, hindex, hday, hord⟩ : ∃ start : Date,
      replaced now.date.year now.date.month 1 = .ok start ∧
        start.monthIndex = now.date.monthIndex ∧ start.day = 1 ∧
          start.ordinal = monthStart now.date.monthIndex := by
    refine ⟨_, replaced_ok now.date.year_mem now.date.month_mem ⟨le_rfl, daysInMonth_pos _ _⟩,
      rfl, rfl, ?_⟩
    rw [monthStart, now.date.monthIndex_div, now.date.monthIndex_mod]
    rfl
  have hday' : alignMonth ≠ alignDay := by decide
  have hweek : alignMonth ≠ alignWeek := by decide
  rw [monthEnds_iff, ← hindex, alignedWindow, if_neg hday', if_neg hweek, if_pos rfl, hstart]
  simp only [bind, Except.bind]
  refine ⟨fun h => ?_, fun h => ?_⟩
  · obtain ⟨ends, hends, hnext⟩ := nextMonth_ok start hday h
    rw [hends]
    simp only [pure, Except.pure, hnext, hord, hindex]
    rfl
  · rw [nextMonth_past start h]

/-- **The branches of the source compute the window of their alignment**, or raise where it ends
past the calendar. -/
theorem alignedWindow_eq {a : Alignment} (ha : a ∈ alignments) (now : Datetime) :
    (a.Ends now → alignedWindow a.name now = .ok (a.windowAt now)) ∧
      (¬ a.Ends now → ∃ e, alignedWindow a.name now = .error e) := by
  simp only [alignments, List.mem_cons, List.not_mem_nil, or_false] at ha
  rcases ha with rfl | rfl | rfl
  · exact ⟨(alignedDay_eq now).1, fun h => ⟨_, (alignedDay_eq now).2 h⟩⟩
  · exact ⟨(alignedWeek_eq now).1, fun h => ⟨_, (alignedWeek_eq now).2 h⟩⟩
  · exact ⟨(alignedMonth_eq now).1, fun h => ⟨_, (alignedMonth_eq now).2 h⟩⟩

theorem alignedWindow_unknown {alignment : String} {now : Datetime} {w : ℤ × ℤ}
    (h : alignedWindow alignment now = .ok w) : ∃ a ∈ alignments, a.name = alignment := by
  rw [alignedWindow] at h
  simp only [alignments, List.mem_cons, List.not_mem_nil, or_false, exists_eq_or_imp,
    exists_eq_left]
  split_ifs at h with hday hweek hmonth
  · exact .inl hday.symm
  · exact .inr (.inl hweek.symm)
  · exact .inr (.inr hmonth.symm)

theorem alignment_of_name {a b : Alignment} (ha : a ∈ alignments) (hb : b ∈ alignments)
    (h : a.name = b.name) : a = b := by
  simp only [alignments, List.mem_cons, List.not_mem_nil, or_false] at ha hb
  have hdayWeek : alignDay ≠ alignWeek := by decide
  have hdayMonth : alignDay ≠ alignMonth := by decide
  have hweekMonth : alignWeek ≠ alignMonth := by decide
  rcases ha with rfl | rfl | rfl <;> rcases hb with rfl | rfl | rfl <;>
    simp_all [calendarDay, calendarWeek, calendarMonth, eq_comm]

/-! ### Every cadence -/

variable {duration : Option ℤ} {alignment : Option String} {now : Datetime} {w : ℤ × ℤ}

/-- The window of the cadence ends on the calendar.  Past its last day the source raises. -/
def EndsOnCalendar (now : Datetime) (duration : Option ℤ) : Option String → Prop
  | some name => ∃ a ∈ alignments, a.name = name ∧ a.Ends now
  | none => ∃ seconds ∈ duration,
      now.instant + seconds * microsPerSecond < midnight (maxOrdinal + 1)

variable {name : String}

theorem aligned_ok :
    periodWindow now duration (some name) = .ok (some w) ↔ alignedWindow name now = .ok w := by
  rw [periodWindow]
  cases alignedWindow name now with
  | error e => simp [bind, Except.bind]
  | ok v => simp [bind, Except.bind, pure, Except.pure]

theorem aligned_window (h : alignedWindow name now = .ok w) :
    ∃ a ∈ alignments, a.name = name ∧ a.Ends now ∧ w = a.windowAt now := by
  obtain ⟨a, ha, rfl⟩ := alignedWindow_unknown h
  by_cases hends : a.Ends now
  · rw [(alignedWindow_eq ha now).1 hends] at h
    cases h
    exact ⟨a, ha, rfl, hends, rfl⟩
  · obtain ⟨e, he⟩ := (alignedWindow_eq ha now).2 hends
    rw [he] at h
    cases h

theorem midnight_le_instant (now : Datetime) : midnight 1 ≤ now.instant := by
  have hord : (1 : ℤ) ≤ now.date.ordinal := by exact_mod_cast now.date.ordinal_mem.1
  have htime := (timeOfDay_mem now).1
  have := midnight_strictMono.monotone hord
  rw [Datetime.instant]
  linarith

theorem fixed_ok (hduration : ∀ seconds ∈ duration, 0 < seconds) :
    periodWindow now duration none = .ok (some w) ↔
      ∃ seconds ∈ duration, w = (now.instant, now.instant + seconds * microsPerSecond) ∧
        w.2 < midnight (maxOrdinal + 1) := by
  cases duration with
  | none => simp [periodWindow]
  | some seconds =>
    have hpos := hduration seconds rfl
    have hstart := midnight_le_instant now
    have hlater : midnight 1 ≤ now.instant + seconds * microsPerSecond :=
      hstart.trans (le_add_of_nonneg_right (mul_nonneg hpos.le (by decide)))
    simp only [periodWindow, if_pos hpos.ne', plusSeconds, hlater, true_and, Option.mem_some_iff,
      exists_eq_left']
    split_ifs with hends
    · simp only [bind, Except.bind, pure, Except.pure, Except.ok.injEq, Option.some.injEq]
      constructor
      · rintro rfl
        exact ⟨rfl, hends⟩
      · rintro ⟨rfl, -⟩
        rfl
    · simp only [bind, Except.bind, reduceCtorEq, false_iff, not_and, not_lt]
      rintro rfl
      exact not_lt.mp hends

theorem computed_iff (hduration : ∀ seconds ∈ duration, 0 < seconds) :
    (∃ w, periodWindow now duration alignment = .ok (some w)) ↔
      EndsOnCalendar now duration alignment := by
  cases alignment with
  | none =>
    simp only [fixed_ok hduration]
    constructor
    · rintro ⟨w, seconds, hmem, rfl, hends⟩
      exact ⟨seconds, hmem, hends⟩
    · rintro ⟨seconds, hmem, hends⟩
      exact ⟨_, seconds, hmem, rfl, hends⟩
  | some name =>
    simp only [aligned_ok]
    constructor
    · rintro ⟨w, hw⟩
      obtain ⟨a, ha, hname, hends, -⟩ := aligned_window hw
      exact ⟨a, ha, hname, hends⟩
    · rintro ⟨a, ha, rfl, hends⟩
      exact ⟨_, (alignedWindow_eq ha now).1 hends⟩

/-- **The window of an instant holds it.** -/
theorem holds_computed (hduration : ∀ seconds ∈ duration, 0 < seconds)
    (hw : periodWindow now duration alignment = .ok (some w)) : Holds w now.instant := by
  cases alignment with
  | none =>
    obtain ⟨seconds, hmem, rfl, -⟩ := (fixed_ok hduration).mp hw
    have hpos : 0 < seconds * microsPerSecond := mul_pos (hduration seconds hmem) (by decide)
    exact ⟨le_rfl, lt_add_of_pos_right _ hpos⟩
  | some name =>
    obtain ⟨a, -, -, -, rfl⟩ := aligned_window (aligned_ok.mp hw)
    exact a.holds_windowAt now

/-- **The window at the end of a window starts there.** -/
theorem computed_ends (hduration : ∀ seconds ∈ duration, 0 < seconds) {next : Datetime} {v : ℤ × ℤ}
    (hw : periodWindow now duration alignment = .ok (some w)) (hnext : next.instant = w.2)
    (hv : periodWindow next duration alignment = .ok (some v)) : v.1 = w.2 := by
  cases alignment with
  | none =>
    obtain ⟨seconds, -, rfl, -⟩ := (fixed_ok hduration).mp hv
    exact hnext
  | some name =>
    obtain ⟨a, ha, rfl, -, rfl⟩ := aligned_window (aligned_ok.mp hw)
    obtain ⟨b, hb, hname, -, rfl⟩ := aligned_window (aligned_ok.mp hv)
    obtain rfl := alignment_of_name hb ha hname
    exact b.windowAt_ends hnext

/-- **Every instant of a calendar window has that window.** -/
theorem computed_eq {other : Datetime}
    (hw : periodWindow now duration (some name) = .ok (some w)) (hother : Holds w other.instant) :
    periodWindow other duration (some name) = .ok (some w) := by
  obtain ⟨a, ha, rfl, hends, rfl⟩ := aligned_window (aligned_ok.mp hw)
  have hsame := a.windowAt_eq hother
  have hindex : a.index other.date = a.index now.date :=
    index_unique a.bound_strictMono (a.holds_windowAt other) hother
  have hends' : a.Ends other := by rwa [Alignment.Ends, hindex]
  rw [aligned_ok, (alignedWindow_eq ha other).1 hends', hsame]

/-! ### Rolls -/

variable {ends : Option ℤ}

theorem rolled_holds (hduration : ∀ seconds ∈ duration, 0 < seconds) {start : ℤ}
    (h : rolledWindow now duration alignment = .ok (start, ends)) :
    start ≤ now.instant ∧ periodEnded now.instant ends = false ∧
      periodWindow now duration alignment = .ok (ends.map (start, ·)) := by
  rw [rolledWindow] at h
  rcases hw : periodWindow now duration alignment with e | (_ | w) <;> rw [hw] at h <;>
    simp only [bind, Except.bind, pure, Except.pure, Except.ok.injEq, Prod.mk.injEq,
      reduceCtorEq] at h <;> obtain ⟨rfl, rfl⟩ := h
  · exact ⟨le_rfl, rfl, rfl⟩
  · obtain ⟨hstart, hends⟩ := holds_computed hduration hw
    exact ⟨hstart, by simpa [periodEnded] using hends, rfl⟩

theorem periodEnded_iff {instant : ℤ} :
    periodEnded instant ends = true ↔ ∃ e ∈ ends, e ≤ instant := by
  simp [periodEnded, Option.any_eq_true]

theorem rollPeriod_ended {s : Store} {id : ℕ} {c : ScopedBudget} {instant start : ℤ}
    (hc : s.ceilings id = some c) (hended : periodEnded instant c.periodEnd) :
    (s.rollPeriod id instant start ends).ceilings id =
      some { c with usage := c.usage.roll, periodStart := some start, periodEnd := ends } := by
  rw [Store.rollPeriod, Store.updateCeilings]
  simp only [List.mem_singleton, if_pos, hc, Option.map_some]
  rw [if_pos (periodEnded_iff.mp hended)]

theorem resetUser_ended {s : Store} {userId : ℕ} {u : User} {instant start : ℤ}
    (hu : s.activeUser userId = some u) (hended : periodEnded instant u.nextBudgetResetAt) :
    (s.resetUser userId instant start ends).2.users userId = some { u with
        usage := u.usage.roll
        budgetStartedAt := some start
        nextBudgetResetAt := ends } := by
  have hrow : s.users userId = some u := (Option.filter_eq_some_iff.mp hu).1
  rw [Store.resetUser, hu]
  simp only [if_pos (periodEnded_iff.mp hended), Store.updateUser, Function.update_self, hrow,
    Option.map_some]

/-- **Budget windows**, for every alignment and every length of seconds, at every instant of the
calendar.  A window is computed exactly where it ends on the calendar.  It holds the instant it was
computed at, and the window at its end starts there.  Every instant of a calendar window has that
window; a fixed-length one runs from the instant.  A roll, of a ceiling or a user, however long
after the window ended, stores the window at the roll, which has begun and has not ended, and which
a read before it reports. -/
theorem windows_partition (duration : Option ℤ) (alignment : Option String)
    (hduration : ∀ seconds ∈ duration, 0 < seconds) :
    (∀ t, midnight 1 ≤ t → t < midnight (maxOrdinal + 1) → ∃ now : Datetime, now.instant = t) ∧
    (∀ now, (∃ w, periodWindow now duration alignment = .ok (some w)) ↔
      EndsOnCalendar now duration alignment) ∧
    (∀ now w, periodWindow now duration alignment = .ok (some w) → Holds w now.instant ∧
      (∀ next v, next.instant = w.2 → periodWindow next duration alignment = .ok (some v) →
        v.1 = w.2) ∧ (alignment.isSome → ∀ other, Holds w other.instant →
        periodWindow other duration alignment = .ok (some w)) ∧
      (alignment = none → ∃ seconds ∈ duration,
        w = (now.instant, now.instant + seconds * microsPerSecond))) ∧
    (∀ now start ends, rolledWindow now duration alignment = .ok (start, ends) →
      start ≤ now.instant ∧ periodEnded now.instant ends = false ∧
      periodWindow now duration alignment = .ok (ends.map (start, ·)) ∧
      (∀ periodEnd, periodEnded now.instant periodEnd →
        effectivePeriod periodEnd now duration alignment = .ok (some (start, ends))) ∧
      (∀ (s : Store) (id : ℕ) (c : ScopedBudget), s.ceilings id = some c →
        periodEnded now.instant c.periodEnd →
        ∃ c', (s.rollPeriod id now.instant start ends).ceilings id = some c' ∧
          c'.periodStart = some start ∧ c'.periodEnd = ends) ∧
      ∀ (s : Store) (userId : ℕ) (u : User), s.activeUser userId = some u →
        periodEnded now.instant u.nextBudgetResetAt →
        ∃ u', (s.resetUser userId now.instant start ends).2.users userId = some u' ∧
          u'.budgetStartedAt = some start ∧ u'.nextBudgetResetAt = ends) := by
  refine ⟨fun t h₁ h₂ => exists_instant h₁ h₂, fun now => computed_iff hduration,
    fun now w hw => ⟨holds_computed hduration hw,
    fun next v hnext hv => computed_ends hduration hw hnext hv, fun hsome other hother => ?_,
    fun hnone => ?_⟩, fun now start ends hroll => ?_⟩
  · obtain ⟨name, rfl⟩ := Option.isSome_iff_exists.mp hsome
    exact computed_eq hw hother
  · subst hnone
    obtain ⟨seconds, hmem, rfl, -⟩ := (fixed_ok hduration).mp hw
    exact ⟨seconds, hmem, rfl⟩
  · obtain ⟨hstart, hends, hwindow⟩ := rolled_holds hduration hroll
    refine ⟨hstart, hends, hwindow, fun periodEnd hended => ?_, fun s id c hc hended => ?_,
      fun s userId u hu hended => ?_⟩
    · rw [effectivePeriod, if_pos hended, hroll]
      rfl
    · exact ⟨_, rollPeriod_ended hc hended, rfl, rfl⟩
    · exact ⟨_, resetUser_ended hu hended, rfl, rfl⟩

/-- Midnight of the second of January 2024, and the second after it. -/
def dayTwo (second : ℕ) (h : second < 60) : Datetime where
  date := ⟨2024, 1, 2, by decide, by decide, by decide⟩
  hour := 0
  minute := 0
  second := second
  microsecond := 0
  hour_lt := by decide
  minute_lt := by decide
  second_lt := h
  microsecond_lt := by decide

/-- The window of a minute, at midnight; and the month it is in, which the second after is in as well. -/
theorem windows_partition_minute :
    Holds ((dayTwo 0 (by decide)).instant, (dayTwo 0 (by decide)).instant + 60 * microsPerSecond)
        (dayTwo 0 (by decide)).instant ∧
      ∃ w, periodWindow (dayTwo 0 (by decide)) none (some alignMonth) = .ok (some w) ∧
        periodWindow (dayTwo 1 (by decide)) none (some alignMonth) = .ok (some w) := by
  have hduration : ∀ seconds ∈ some (60 : ℤ), 0 < seconds := by simp
  have hw : periodWindow (dayTwo 0 (by decide)) (some 60) none = .ok (some _) :=
    (fixed_ok hduration).mpr ⟨60, rfl, rfl, by decide +kernel⟩
  have hmonth : periodWindow (dayTwo 0 (by decide)) none (some alignMonth) =
      .ok (some (midnight 738886, midnight 738917)) := by decide +kernel
  exact ⟨((windows_partition (some 60) none hduration).2.2.1 _ _ hw).1, _, hmonth,
    ((windows_partition none (some alignMonth) (by simp)).2.2.1 _ _ hmonth).2.2.1 rfl _
      ⟨by decide +kernel, by decide +kernel⟩⟩

/-- **Fixed-length windows overlap.**  The window of a minute that is computed at midnight holds the
second after, whose own window is another. -/
theorem fixed_windows_overlap :
    ∃ w v, periodWindow (dayTwo 0 (by decide)) (some 60) none = .ok (some w) ∧
      Holds w (dayTwo 1 (by decide)).instant ∧
      periodWindow (dayTwo 1 (by decide)) (some 60) none = .ok (some v) ∧ v ≠ w := by
  have hduration : ∀ seconds ∈ some (60 : ℤ), 0 < seconds := by simp
  refine ⟨_, _, (fixed_ok hduration).mpr ⟨60, rfl, rfl, by decide +kernel⟩, ?_,
    (fixed_ok hduration).mpr ⟨60, rfl, rfl, by decide +kernel⟩, ?_⟩
  · exact ⟨by decide +kernel, by decide +kernel⟩
  · decide +kernel

end Otari.Reservations
