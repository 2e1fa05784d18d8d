import Otari.Usage.UsageRollups

/-!
# Usage — RollupsExact — reports from the rollups are those from the rows

What a relation adds to each cell (its keys, whether it needs pricing, its hour) is its content, in
a commutative monoid; every figure reported is read off the contents of some cells (`Agree`).  The
refresh keeps the contents (`contentOf_buildRollups`), and a rollup is exact wherever no mark stands
(`Inv.exact`).  `rollups_exact` is what that gives for a report in any run.
-/

namespace Otari.Usage
open Grouping Function List

/-! ### Hours -/

variable {t h : ℤ}

theorem floorHour_le : floorHour t ≤ t := by
  unfold floorHour hour
  omega

theorem lt_floorHour : t < floorHour t + hour := by
  unfold floorHour hour
  omega

@[simp] theorem floorHour_floorHour : floorHour (floorHour t) = floorHour t := by
  unfold floorHour hour
  omega

theorem floorHour_eq_iff (hh : floorHour h = h) : floorHour t = h ↔ h ≤ t ∧ t < h + hour := by
  unfold floorHour hour at *
  omega

theorem ceilHour_le_floorHour : ceilHour h ≤ floorHour t ↔ ceilHour h ≤ t := by
  unfold ceilHour floorHour hour
  dsimp only
  split_ifs <;> omega

theorem floorHour_lt_floorHour : floorHour t < floorHour h ↔ t < floorHour h := by
  unfold floorHour hour
  omega

theorem le_ceilHour : h ≤ ceilHour h := by
  unfold ceilHour floorHour hour
  dsimp only
  split_ifs <;> omega

theorem inSpans_extendSpans {spans : List (ℤ × ℤ)} (hspans : ∀ span ∈ spans, span.1 ≤ span.2) :
    inSpans t (extendSpans spans h) = true ↔ inSpans t spans = true ∨ h ≤ t ∧ t < h + hour := by
  rw [extendSpans.eq_def]
  split
  · simp [inSpans]
  · rename_i start stop earlier
    have hle : start ≤ stop := hspans (start, stop) mem_cons_self
    split
    · rename_i heq
      subst heq
      have hhour : (0 : ℤ) < hour := by decide
      have hsplit : start ≤ t ∧ t < stop + hour ↔
          (start ≤ t ∧ t < stop) ∨ stop ≤ t ∧ t < stop + hour := by omega
      simp only [inSpans, any_cons, Bool.or_eq_true, decide_eq_true_eq]
      rw [hsplit]
      tauto
    · simp only [inSpans, any_cons, Bool.or_eq_true, decide_eq_true_eq]
      tauto

theorem extendSpans_le {spans : List (ℤ × ℤ)} (hspans : ∀ span ∈ spans, span.1 ≤ span.2) :
    ∀ span ∈ extendSpans spans h, span.1 ≤ span.2 := by
  have hhour : (0 : ℤ) < hour := by decide
  rw [extendSpans.eq_def]
  split
  · intro span hspan
    obtain rfl := mem_singleton.mp hspan
    exact le_add_of_nonneg_right hhour.le
  · rename_i start stop earlier
    have hle : start ≤ stop := hspans (start, stop) mem_cons_self
    split
    · rename_i heq
      intro span hspan
      rcases mem_cons.mp hspan with rfl | hspan
      · exact hle.trans (by omega)
      · exact hspans span (mem_cons_of_mem _ hspan)
    · intro span hspan
      rcases mem_cons.mp hspan with rfl | hspan
      · exact le_add_of_nonneg_right hhour.le
      · exact hspans span hspan

theorem inSpans_foldl (hours : List ℤ) {spans : List (ℤ × ℤ)}
    (hspans : ∀ span ∈ spans, span.1 ≤ span.2) : inSpans t (hours.foldl extendSpans spans) = true ↔
      inSpans t spans = true ∨ ∃ h ∈ hours, h ≤ t ∧ t < h + hour := by
  induction hours generalizing spans with
  | nil => simp
  | cons next hours ih =>
    rw [foldl_cons, ih (extendSpans_le hspans), inSpans_extendSpans hspans,
      exists_mem_cons_iff, or_assoc]

variable {hours : List ℤ}

/-- **The spans cover the hours.** -/
theorem inSpans_spans (haligned : ∀ h ∈ hours, floorHour h = h) :
    inSpans t (spans hours) = true ↔ floorHour t ∈ hours := by
  rw [spans, inSpans_foldl _ fun _ hspan => (not_mem_nil hspan).elim]
  have hnil : inSpans t [] = false := rfl
  simp only [hnil, Bool.false_eq_true, false_or, mem_insertionSort]
  constructor
  · rintro ⟨h, hh, hmem⟩
    rwa [(floorHour_eq_iff (haligned h hh)).mpr hmem]
  · exact fun hmem => ⟨floorHour t, hmem, floorHour_le, lt_floorHour⟩

/-! ### Contents -/

/-- What reports can tell apart: the keys, whether they need pricing, and the hour. -/
structure Cell where
  keys : UsageKeys
  needsPricing : Bool
  hour : ℤ
deriving DecidableEq

def UsageRow.cell (row : UsageRow) : Cell :=
  ⟨row.keys, row.needsPricing, floorHour row.ts⟩

/-- The rows, the measures, the span and the latencies: what every figure is read off. -/
abbrev Content := ℕ × (Measure → Nullable) × Earliest × Latest × Multiset ℤ

def taken (entry : Option ℤ × ℕ) : Multiset ℤ :=
  match entry.1 with
  | some value => entry.2 • {value}
  | none => 0

def UsageRow.content (row : UsageRow) : Content :=
  (row.rows, row.values, row.firstAt, row.lastAt, (row.latencies.map taken).sum)

def contentOf (p : Cell → Bool) (u : List UsageRow) : Content :=
  (u.map fun row => if p row.cell then row.content else 0).sum

def Agree (u v : List UsageRow) : Prop :=
  ∀ p, contentOf p u = contentOf p v

theorem sum_content {α : Type} (l : List α) (rows : α → ℕ) (values : α → Measure → Nullable)
    (first : α → Earliest) (last : α → Latest) (latencies : α → Multiset ℤ) :
    (l.map fun a => ((rows a, values a, first a, last a, latencies a) : Content)).sum =
      ((l.map rows).sum, (fun m => (l.map fun a => values a m).sum), (l.map first).sum,
        (l.map last).sum, (l.map latencies).sum) := by
  induction l with
  | nil => rfl
  | cons a l ih =>
    simp only [map_cons, sum_cons, ih]
    rfl

variable {u v w : List UsageRow} {p q : Cell → Bool}

theorem contentOf_append : contentOf p (u ++ v) = contentOf p u + contentOf p v := by
  rw [contentOf, map_append, sum_append]
  rfl

variable {f : UsageRow → Bool}

theorem contentOf_filter {q : Cell → Bool}
    (hq : ∀ row ∈ u, p row.cell = true → f row = q row.cell) :
    contentOf p (u.filter f) = contentOf (fun c => p c && q c) u := by
  rw [contentOf, sum_filter, contentOf]
  refine congrArg List.sum (map_congr_left fun row hrow => ?_)
  by_cases hp : p row.cell = true
  · rw [if_pos hp, hq row hrow hp, hp, Bool.true_and]
  · rw [if_neg hp, ite_self, Bool.and_eq_false_imp.mpr fun h => absurd h hp]
    rfl

theorem contentOf_split (q : Cell → Bool) :
    contentOf p u = contentOf (fun c => p c && q c) u + contentOf (fun c => p c && !q c) u := by
  simp only [contentOf]
  rw [← sum_map_add]
  refine congrArg List.sum (map_congr_left fun row _ => ?_)
  by_cases hp : p row.cell = true <;> by_cases hq : q row.cell = true <;> simp [hp, hq]

/-! ### What the refresh builds -/

def LatencyRow.cell (row : LatencyRow) : Cell :=
  ⟨row.keys, row.needsPricing, row.hour⟩

def LatencyRow.content (row : LatencyRow) : Content :=
  (row.rows, row.values, row.firstAt, row.lastAt, taken (row.latency, row.rows))

def rollupOf (g : (UsageKeys × Bool × ℤ) × List LatencyRow) : UsageRow where
  keys := g.1.1
  needsPricing := g.1.2.1
  ts := g.1.2.2
  rows := (g.2.map (·.rows)).sum
  firstAt := (g.2.map (·.firstAt)).sum
  lastAt := (g.2.map (·.lastAt)).sum
  values := fun measure => (g.2.map fun row => row.values measure).sum
  latencies := (g.2.filter (·.latency.isSome)).map fun row => (row.latency, row.rows)

theorem content_rollupOf (g : (UsageKeys × Bool × ℤ) × List LatencyRow) :
    (rollupOf g).content = (g.2.map LatencyRow.content).sum := by
  have hlatencies : ((rollupOf g).latencies.map taken).sum =
      (g.2.map fun row => taken (row.latency, row.rows)).sum := by
    rw [rollupOf, map_map, sum_filter]
    refine congrArg List.sum (map_congr_left fun row _ => ?_)
    cases hl : row.latency with
    | none => rfl
    | some value =>
      rw [if_pos Option.isSome_some, comp_apply, hl]
  have hsum : g.2.map LatencyRow.content = g.2.map fun row => ((row.rows, row.values, row.firstAt,
      row.lastAt, taken (row.latency, row.rows)) : Content) := rfl
  rw [UsageRow.content, hlatencies, hsum, sum_content]
  rfl

theorem contentOf_summedByKeys (counted : List LatencyRow)
    (haligned : ∀ row ∈ counted, floorHour row.hour = row.hour) :
    contentOf p (summedByKeys counted) =
      (counted.map fun row => if p row.cell then row.content else 0).sum := by
  rw [← sum_groupBy fun row : LatencyRow => (row.keys, row.needsPricing, row.hour)]
  rw [contentOf, summedByKeys, map_map]
  refine congrArg List.sum (map_congr_left fun g hg => ?_)
  have hcell : ∀ row ∈ g.2, row.cell = (rollupOf g).cell := by
    intro row hrow
    obtain ⟨hkey, hmem⟩ := key_of_mem hg hrow
    rw [UsageRow.cell, rollupOf, ← hkey, haligned row hmem]
    rfl
  have hterm : (g.2.map fun row => if p row.cell then row.content else 0) =
      g.2.map fun row => if p (rollupOf g).cell then row.content else 0 :=
    map_congr_left fun row hrow => by rw [hcell row hrow]
  rw [hterm]
  show (if p (rollupOf g).cell then (rollupOf g).content else 0) = _
  by_cases hp : p (rollupOf g).cell = true
  · simp only [if_pos hp]
    exact content_rollupOf g
  · simp [if_neg hp]

def latencyRowOf (g : (UsageKeys × Bool × ℤ × Option ℤ) × List UsageLog) : LatencyRow where
  keys := g.1.1
  needsPricing := g.1.2.1
  hour := g.1.2.2.1
  latency := g.1.2.2.2
  rows := g.2.length
  firstAt := (g.2.map fun log => earliest log.timestamp).sum
  lastAt := (g.2.map fun log => latest log.timestamp).sum
  values := fun measure => (g.2.map fun log => rowValues log measure).sum

theorem taken_nsmul (latency : Option ℤ) (n : ℕ) : taken (latency, n) = n • taken (latency, 1) := by
  cases latency with
  | none => exact (nsmul_zero n).symm
  | some value =>
    simp only [taken]
    rw [one_nsmul]

theorem content_raw (log : UsageLog) : (raw log).content =
    (1, rowValues log, earliest log.timestamp, latest log.timestamp, taken (log.latencyMs, 1)) := by
  rw [UsageRow.content, raw]
  simp

theorem content_latencyRowOf {g : (UsageKeys × Bool × ℤ × Option ℤ) × List UsageLog}
    (hlatency : ∀ log ∈ g.2, log.latencyMs = g.1.2.2.2) :
    (latencyRowOf g).content = (g.2.map fun log => (raw log).content).sum := by
  simp only [content_raw]
  rw [sum_content]
  have hrows : (g.2.map fun _ => 1).sum = g.2.length := by simp
  have hlatencies : (g.2.map fun log => taken (log.latencyMs, 1)).sum =
      taken (g.1.2.2.2, g.2.length) := by
    have hconst : (g.2.map fun log => taken (log.latencyMs, 1)) =
        g.2.map fun _ => taken (g.1.2.2.2, 1) :=
      map_congr_left fun log hlog => by rw [hlatency log hlog]
    rw [hconst, map_const', sum_replicate, taken_nsmul _ g.2.length]
  rw [hrows, hlatencies]
  rfl

theorem sum_byLatency (logs : List UsageLog) :
    ((byLatency logs).map fun row => if p row.cell then row.content else 0).sum =
      contentOf p (logs.map raw) := by
  rw [contentOf, map_map, byLatency, ← sum_groupBy (fun log : UsageLog =>
    (log.keys, log.needsPricing, floorHour log.timestamp, log.latencyMs)) _ logs, map_map]
  refine congrArg List.sum (map_congr_left fun g hg => ?_)
  have hcell : ∀ log ∈ g.2, (raw log).cell = (latencyRowOf g).cell := by
    intro log hlog
    obtain ⟨hkey, -⟩ := key_of_mem hg hlog
    rw [LatencyRow.cell, latencyRowOf, ← hkey]
    rfl
  have hlatency : ∀ log ∈ g.2, log.latencyMs = g.1.2.2.2 := by
    intro log hlog
    rw [← (key_of_mem hg hlog).1]
  have hterm : (g.2.map fun log => if p (raw log).cell then (raw log).content else 0) =
      g.2.map fun log => if p (latencyRowOf g).cell then (raw log).content else 0 :=
    map_congr_left fun log hlog => by rw [hcell log hlog]
  show (if p (latencyRowOf g).cell then (latencyRowOf g).content else 0) = _
  rw [comp_def, hterm]
  by_cases hp : p (latencyRowOf g).cell = true
  · simp only [if_pos hp]
    exact content_latencyRowOf hlatency
  · simp [if_neg hp]

/-- **The sums of some hours hold what their rows do.** -/
theorem contentOf_buildRollups (haligned : ∀ h ∈ hours, floorHour h = h)
    (logs : List UsageLog) : contentOf p (buildRollups hours logs) =
      contentOf (fun c => p c && decide (c.hour ∈ hours)) (logs.map raw) := by
  rw [buildRollups, contentOf_summedByKeys, sum_byLatency, ← contentOf_filter (f := fun row =>
    inSpans row.ts (spans hours)), filter_map]
  · rfl
  · intro row hrow _
    rw [Bool.eq_iff_iff, inSpans_spans haligned, decide_eq_true_eq]
    rfl
  · intro row hrow
    obtain ⟨g, hg, rfl⟩ := mem_map.mp hrow
    obtain ⟨⟨log, -, hkey⟩, -⟩ := mem_groupBy.mp hg
    dsimp only
    rw [← hkey]
    exact floorHour_floorHour

/-- Rollups as the refresh inserts them: of an hour, of some rows, each latency of some. -/
def Built (rollups : List UsageRow) : Prop :=
  ∀ row ∈ rollups, floorHour row.ts = row.ts ∧ 0 < row.rows ∧ ∀ entry ∈ row.latencies, 0 < entry.2

variable {logs : List UsageLog}

theorem rows_latencyRow {row : LatencyRow} (hrow : row ∈ byLatency logs) :
    floorHour row.hour = row.hour ∧ 0 < row.rows := by
  obtain ⟨g, hg, rfl⟩ := mem_map.mp hrow
  obtain ⟨⟨log, -, hkey⟩, -⟩ := mem_groupBy.mp hg
  refine ⟨?_, length_pos_iff.mpr (ne_nil_of_mem hg)⟩
  dsimp only
  rw [← hkey]
  exact floorHour_floorHour

theorem buildRollups_built (hours : List ℤ) (logs : List UsageLog) :
    Built (buildRollups hours logs) := by
  intro row hrow
  obtain ⟨g, hg, rfl⟩ := mem_map.mp hrow
  obtain ⟨⟨first, hfirst, hkey⟩, -⟩ := mem_groupBy.mp hg
  have hmem : first ∈ g.2 := by
    rw [(mem_groupBy.mp hg).2]
    exact mem_filter.mpr ⟨hfirst, decide_eq_true hkey⟩
  refine ⟨?_, ?_, fun entry hentry => ?_⟩
  · dsimp only
    rw [← hkey]
    exact (rows_latencyRow hfirst).1
  · have hle : first.rows ≤ (g.2.map (·.rows)).sum :=
      single_le_sum (fun _ _ => Nat.zero_le _) _ (mem_map_of_mem hmem)
    exact (rows_latencyRow hfirst).2.trans_le hle
  · obtain ⟨row, hrow, rfl⟩ := mem_map.mp hentry
    exact (rows_latencyRow (key_of_mem hg (mem_filter.mp hrow).1).2).2

/-! ### The invariant of a run -/

/-- The rollups hold what the rows of these hours do. -/
def Exact (hours : ℤ → Prop) (rollups : List UsageRow) (logs : List UsageLog) : Prop :=
  ∀ p, (∀ c, p c = true → hours c.hour) → contentOf p rollups = contentOf p (logs.map raw)

def Unmarked (marks : List Mark) (h : ℤ) : Prop :=
  ∀ mark ∈ marks, mark.hour ≠ h

/-- What the refresh under way has seen: its marks are the hours', and what it has built is exact
but for the hours marked since. -/
def Refreshing.Sound (s : UsageStore) : Refreshing → Prop
  | took taken hours => (∀ mark ∈ taken, mark.id < s.nextMark ∧ mark.hour ∈ hours) ∧
      ∀ h ∈ hours, floorHour h = h
  | dropped taken hours rollups => (∀ mark ∈ taken, mark.id < s.nextMark ∧ mark.hour ∈ hours) ∧
      (∀ h ∈ hours, floorHour h = h) ∧ rollups = s.rollups.filter fun row => row.ts ∉ hours
  | built taken rollups => (∀ mark ∈ taken, mark.id < s.nextMark) ∧ Built rollups ∧
      Exact (Unmarked (s.marks.filter fun mark => mark ∉ taken)) rollups s.logs

/-- **The invariant of every run.** -/
structure Inv (s : UsageStore) : Prop where
  marks : ∀ mark ∈ s.marks, mark.id < s.nextMark ∧ floorHour mark.hour = mark.hour
  built : Built s.rollups
  exact : Exact (Unmarked s.marks) s.rollups s.logs
  refreshing : ∀ r ∈ s.refreshing, r.Sound s

variable {s s' : UsageStore}

theorem inv_start : Inv {} where
  marks _ h := by cases h
  built _ h := by cases h
  exact _ _ := rfl
  refreshing _ h := by cases h

/-! ### A write -/

variable {removed : List ℕ}

variable {added : List UsageLog}

theorem contentOf_write (hp : ∀ h ∈ s.touched removed added, ∀ c, p c = true → c.hour ≠ h) :
    contentOf p ((s.write removed added).logs.map raw) = contentOf p (s.logs.map raw) := by
  have htouched : ∀ log ∈ (s.logs.filter fun log => log.id ∈ removed) ++ added,
      p (raw log).cell = false := by
    intro log hlog
    rw [← Bool.not_eq_true]
    exact fun hcell => hp _ (mem_map_of_mem hlog) _ hcell rfl
  have hadded : contentOf p (added.map raw) = 0 := by
    rw [contentOf, map_map]
    refine sum_eq_zero fun x hx => ?_
    obtain ⟨log, hlog, rfl⟩ := mem_map.mp hx
    rw [comp_apply, htouched log (mem_append_right _ hlog)]
    rfl
  rw [UsageStore.write, map_append, contentOf_append, hadded, add_zero]
  rw [contentOf, contentOf, map_map, map_map, sum_filter]
  refine congrArg List.sum (map_congr_left fun log hlog => ?_)
  by_cases hremoved : log.id ∈ removed
  · have hmem : log ∈ s.logs.filter fun log => log.id ∈ removed :=
      mem_filter.mpr ⟨hlog, decide_eq_true hremoved⟩
    rw [comp_apply, htouched log (mem_append_left _ hmem)]
    simp
  · rw [if_pos (decide_eq_true hremoved)]

theorem mem_write_marks {mark : Mark} : mark ∈ (s.write removed added).marks ↔ mark ∈ s.marks ∨
      mark ∈ (s.touched removed added).dedup.zipIdx.map fun h => ⟨s.nextMark + h.2, h.1⟩ := by
  rw [UsageStore.write]
  exact mem_append

theorem new_mark {n : ℕ} {mark : Mark} (h : mark ∈ hours.zipIdx.map fun h => ⟨n + h.2, h.1⟩) :
    n ≤ mark.id ∧ mark.id < n + hours.length ∧ mark.hour ∈ hours := by
  obtain ⟨⟨hour, i⟩, hmem, rfl⟩ := mem_map.mp h
  obtain ⟨-, hlt, hget⟩ := mem_zipIdx hmem
  refine ⟨Nat.le_add_right _ _, by simp at hlt ⊢; omega, ?_⟩
  rw [hget]
  exact getElem_mem _

theorem touched_marked {h : ℤ} (hh : h ∈ s.touched removed added) :
    ∃ mark ∈ (s.touched removed added).dedup.zipIdx.map
      fun h => (⟨s.nextMark + h.2, h.1⟩ : Mark), mark.hour = h := by
  obtain ⟨i, hi, hget⟩ := mem_iff_getElem.mp (mem_dedup.mpr hh)
  refine ⟨⟨s.nextMark + i, h⟩, mem_map.mpr ⟨(h, i), ?_, rfl⟩, rfl⟩
  rw [mem_zipIdx_iff_getElem?]
  simp [hget ▸ List.getElem?_eq_getElem hi]

theorem Exact.write {marks marks' : List Mark} {rollups : List UsageRow}
    (h : Exact (Unmarked marks) rollups s.logs) (hmarks : marks ⊆ marks')
    (htouched : ∀ h ∈ s.touched removed added, ∃ mark ∈ marks', mark.hour = h) :
    Exact (Unmarked marks') rollups (s.write removed added).logs := by
  intro p hp
  have hold : ∀ c, p c = true → Unmarked marks c.hour := fun c hc mark hmark =>
    hp c hc mark (hmarks hmark)
  rw [contentOf_write fun h hh c hc heq => ?_, h p hold]
  obtain ⟨mark, hmark, rfl⟩ := htouched h hh
  exact hp c hc mark hmark heq.symm

theorem Inv.write (h : Inv s) (removed : List ℕ) (added : List UsageLog) :
    Inv (s.write removed added) := by
  have hnext : s.nextMark ≤ (s.write removed added).nextMark := Nat.le_add_right _ _
  refine ⟨fun mark hmark => ?_, h.built, ?_, fun r hr => ?_⟩
  · rcases mem_write_marks.mp hmark with hmark | hmark
    · exact ⟨(h.marks mark hmark).1.trans_le hnext, (h.marks mark hmark).2⟩
    · obtain ⟨-, hlt, hhour⟩ := new_mark hmark
      obtain ⟨log, -, heq⟩ := mem_map.mp (mem_dedup.mp hhour)
      exact ⟨hlt, heq ▸ floorHour_floorHour⟩
  · refine h.exact.write (fun mark hmark => mem_write_marks.mpr (.inl hmark)) fun hour hh => ?_
    obtain ⟨mark, hmark, heq⟩ := touched_marked hh
    exact ⟨mark, mem_write_marks.mpr (.inr hmark), heq⟩
  · have hsound := h.refreshing r hr
    cases r with
    | took taken hours =>
      exact ⟨fun mark hm => ⟨(hsound.1 mark hm).1.trans_le hnext, (hsound.1 mark hm).2⟩, hsound.2⟩
    | dropped taken hours rollups =>
      exact ⟨fun mark hm => ⟨(hsound.1 mark hm).1.trans_le hnext, (hsound.1 mark hm).2⟩, hsound.2⟩
    | built taken rollups =>
      obtain ⟨htaken, hbuilt, hexact⟩ := hsound
      refine ⟨fun mark hm => (htaken mark hm).trans_le hnext, hbuilt,
        hexact.write (fun mark hmark => ?_) fun hour hh => ?_⟩
      · obtain ⟨hmark, hnot⟩ := mem_filter.mp hmark
        exact mem_filter.mpr ⟨mem_write_marks.mpr (.inl hmark), hnot⟩
      · obtain ⟨mark, hmark, heq⟩ := touched_marked hh
        -- a mark added since is none of those taken
        have hnot : mark ∉ taken := fun hm =>
          absurd (htaken mark hm) (not_lt.mpr (new_mark hmark).1)
        exact ⟨mark, mem_filter.mpr ⟨mem_write_marks.mpr (.inr hmark),
          decide_eq_true hnot⟩, heq⟩

/-! ### The refresh -/

theorem Inv.take (h : Inv s) (maxHours : ℕ) (now : ℤ) : Inv (s.take maxHours now) := by
  refine ⟨h.marks, h.built, h.exact, fun r hr => ?_⟩
  cases hr
  refine ⟨fun mark hmark => ⟨(h.marks mark (mem_filter.mp hmark).1).1, ?_⟩, fun hour hh => ?_⟩
  · exact mem_dedup.mpr (mem_map_of_mem hmark)
  · obtain ⟨mark, hmark, rfl⟩ := mem_map.mp (mem_dedup.mp hh)
    exact (h.marks mark (mem_filter.mp hmark).1).2

theorem Inv.build (h : Inv s) {taken : List Mark}
    (htaken : ∀ mark ∈ taken, mark.hour ∈ hours) (haligned : ∀ h ∈ hours, floorHour h = h) :
    Exact (Unmarked (s.marks.filter fun mark => mark ∉ taken))
      ((s.rollups.filter fun row => row.ts ∉ hours) ++ buildRollups hours s.logs) s.logs := by
  intro p hp
  have hkept : contentOf p (s.rollups.filter fun row => row.ts ∉ hours) =
      contentOf (fun c => p c && !decide (c.hour ∈ hours)) (s.logs.map raw) := by
    rw [contentOf_filter (q := fun c => !decide (c.hour ∈ hours)) fun row hrow _ => ?_,
      h.exact _ fun c hc mark hmark heq => ?_]
    · obtain ⟨hcell, hnot⟩ := (Bool.and_eq_true _ _).mp hc
      have hnothour : mark ∉ taken := fun hm =>
        absurd (htaken mark hm) (by simpa [heq] using hnot)
      exact hp c hcell mark (mem_filter.mpr ⟨hmark, decide_eq_true hnothour⟩) heq
    · rw [UsageRow.cell, (h.built row hrow).1]
      exact decide_not
  rw [contentOf_append, hkept, contentOf_buildRollups haligned, add_comm,
    ← contentOf_split fun c => decide (c.hour ∈ hours)]

theorem Inv.next (h : Inv s) {r : Refreshing} (hr : r ∈ s.refreshing) : Inv (s.next r) := by
  have hsound := h.refreshing r hr
  cases r with
  | took taken hours =>
    rw [UsageStore.next]
    split
    · exact ⟨h.marks, h.built, h.exact, fun _ hr => (by cases hr)⟩
    · refine ⟨h.marks, h.built, h.exact, fun r hr => ?_⟩
      cases hr
      exact ⟨hsound.1, hsound.2, rfl⟩
  | dropped taken hours rollups =>
    obtain ⟨htaken, haligned, rfl⟩ := hsound
    refine ⟨h.marks, h.built, h.exact, fun r hr => ?_⟩
    cases hr
    refine ⟨fun mark hm => (htaken mark hm).1, fun row hrow => ?_,
      h.build (fun mark hm => (htaken mark hm).2) haligned⟩
    rcases mem_append.mp hrow with hrow | hrow
    · exact h.built row (mem_filter.mp hrow).1
    · exact buildRollups_built hours s.logs row hrow
  | built taken rollups =>
    obtain ⟨-, hbuilt, hexact⟩ := hsound
    exact ⟨fun mark hm => h.marks mark (mem_filter.mp hm).1, hbuilt, hexact,
      fun _ hr => (by cases hr)⟩

theorem Inv.step (h : Inv s) {event : Event} (hs : s.step event = some s') : Inv s' := by
  cases event with
  | write removed added =>
    cases hs
    exact h.write removed added
  | take maxHours now =>
    rw [UsageStore.step] at hs
    split at hs
    · cases hs
      exact h.take maxHours now
    · cases hs
  | next =>
    obtain ⟨r, hr, rfl⟩ := Option.map_eq_some_iff.mp hs
    exact h.next hr
  | rollBack =>
    obtain ⟨r, hr, rfl⟩ := Option.map_eq_some_iff.mp hs
    exact ⟨h.marks, h.built, h.exact, fun _ hr => (by cases hr)⟩

variable {events : List Event}

/-- **Wherever no mark stands, the rollups are exact.** -/
theorem Inv.runUnder {allowed : UsageStore → Event → Bool} (h : Inv s)
    (hs : s.runUnder allowed events = some s') : Inv s' := by
  induction events generalizing s with
  | nil =>
    cases hs
    exact h
  | cons event events ih =>
    rw [UsageStore.runUnder] at hs
    split at hs
    · obtain ⟨s₁, hstep, hs⟩ := Option.bind_eq_some_iff.mp hs
      exact ih (h.step hstep) hs
    · cases hs

/-! ### What a read takes -/

/-- The hours a query takes from the rollups. -/
def UsageRows.fromRollups : UsageRows → ℤ → Bool
  | fromRows _, _ => false
  | mixed _ _ wholeStart wholeEnd marked, h =>
    decide (wholeStart ≤ h ∧ h < wholeEnd) && !inSpans h marked

/-- **The condition.**  No write touches an hour that a query already made takes from the rollups. -/
def UsageRows.spared (query : UsageRows) (s : UsageStore) : Event → Bool
  | .write removed added => (s.touched removed added).all fun h => !query.fromRollups h
  | _ => true

theorem unmarked_step {query : UsageRows} {event : Event}
    (h : ∀ h, query.fromRollups h = true → Unmarked s.marks h)
    (hspared : query.spared s event = true) (hs : s.step event = some s') :
    ∀ h, query.fromRollups h = true → Unmarked s'.marks h := by
  intro hour hfrom
  cases event with
  | write removed added =>
    cases hs
    intro mark hmark
    rcases mem_write_marks.mp hmark with hmark | hmark
    · exact h hour hfrom mark hmark
    · rintro rfl
      obtain ⟨-, -, hhour⟩ := new_mark hmark
      have hnot := all_eq_true.mp hspared _ (mem_dedup.mp hhour)
      rw [hfrom] at hnot
      cases hnot
  | take maxHours now =>
    rw [UsageStore.step] at hs
    split at hs
    · cases hs
      exact h hour hfrom
    · cases hs
  | next =>
    obtain ⟨r, -, rfl⟩ := Option.map_eq_some_iff.mp hs
    cases r with
    | took taken hours =>
      rw [UsageStore.next]
      split <;> exact h hour hfrom
    | dropped taken hours rollups => exact h hour hfrom
    | built taken rollups =>
      exact fun mark hmark => h hour hfrom mark (mem_filter.mp hmark).1
  | rollBack =>
    obtain ⟨r, -, rfl⟩ := Option.map_eq_some_iff.mp hs
    exact h hour hfrom

theorem unmarked_run {query : UsageRows} (h : ∀ h, query.fromRollups h = true → Unmarked s.marks h)
    (hs : s.runUnder query.spared events = some s') :
    ∀ h, query.fromRollups h = true → Unmarked s'.marks h := by
  induction events generalizing s with
  | nil =>
    cases hs
    exact h
  | cons event events ih =>
    rw [UsageStore.runUnder] at hs
    split at hs
    · rename_i hspared
      obtain ⟨s₁, hstep, hs⟩ := Option.bind_eq_some_iff.mp hs
      exact ih (unmarked_step h hspared hstep) hs
    · cases hs

section
variable {postgres : Bool} {conditions : List Condition} {summed : List (UsageKeys → Bool)}
variable {start stop : ℤ} {bucket : Bucket} {exact : Bool}

theorem rows_cases (postgres : Bool) (s : UsageStore) (conditions : List Condition)
    (start stop : ℤ) (bucket : Bucket) (exact : Bool) :
    rows postgres s conditions start stop bucket exact = .fromRows conditions ∨
      ∃ summed, rollupConditions start stop conditions = some summed ∧ bucket ≠ .fiveMinutes ∧
      rows postgres s conditions start stop bucket exact =
        .mixed conditions summed (ceilHour start) (floorHour stop)
          (spans (((s.marks.map (·.hour)).filter fun h =>
            ceilHour start ≤ h ∧ h < floorHour stop).dedup)) := by
  rw [rows]
  split
  · exact .inl rfl
  · rename_i summed hsummed
    have hconditions : rollupConditions start stop conditions = some summed := by
      split_ifs at hsummed
      exact hsummed
    dsimp only
    split_ifs with h₁ h₂ h₃
    · exact .inl rfl
    · exact .inl rfl
    · exact .inl rfl
    · refine .inr ⟨summed, hconditions, fun hbucket => h₁ ?_, rfl⟩
      rw [hbucket]
      rfl

theorem marked_aligned (h : Inv s) : ∀ hour ∈ ((s.marks.map (·.hour)).filter fun h =>
    ceilHour start ≤ h ∧ h < floorHour stop).dedup, floorHour hour = hour := by
  intro hour hh
  obtain ⟨mark, hmark, rfl⟩ := mem_map.mp (mem_filter.mp (mem_dedup.mp hh)).1
  exact (h.marks mark hmark).2

theorem unmarked_rows (h : Inv s) : ∀ hour,
    (rows postgres s conditions start stop bucket exact).fromRollups hour = true →
      Unmarked s.marks hour := by
  intro hour hfrom
  rcases rows_cases postgres s conditions start stop bucket exact with
    hrows | ⟨summed, -, -, hrows⟩
  · rw [hrows] at hfrom
    cases hfrom
  · rw [hrows] at hfrom
    obtain ⟨hwhole, hnot⟩ := (Bool.and_eq_true _ _).mp hfrom
    rintro mark hmark rfl
    rw [Bool.not_eq_true', ← Bool.not_eq_true, inSpans_spans (marked_aligned h)] at hnot
    refine hnot ?_
    rw [(h.marks mark hmark).2]
    exact mem_dedup.mpr (mem_filter.mpr ⟨mem_map_of_mem hmark, hwhole⟩)

theorem rollupConditions_holds (log : UsageLog)
    (h : rollupConditions start stop conditions = some summed) :
    (conditions.all fun condition => condition.holds log) = true ↔
      (summed.all fun p => p log.keys) = true ∧
      (.since start ∈ conditions → start ≤ log.timestamp) ∧
      (.before stop ∈ conditions → log.timestamp < stop) := by
  induction conditions generalizing summed with
  | nil =>
    cases h
    simp
  | cons condition conditions ih =>
    rw [all_cons, Bool.and_eq_true]
    cases condition with
    | onKeys p =>
      obtain ⟨summed, hrest, rfl⟩ := Option.map_eq_some_iff.mp h
      rw [ih hrest]
      simp only [Condition.holds, all_cons, Bool.and_eq_true, mem_cons, reduceCtorEq,
        false_or, and_assoc]
    | since bound =>
      rw [rollupConditions] at h
      split at h
      · rename_i hbound
        subst hbound
        rw [ih h]
        simp only [Condition.holds, decide_eq_true_eq, mem_cons, true_or, reduceCtorEq,
          false_or, true_implies]
        tauto
      · cases h
    | before bound =>
      rw [rollupConditions] at h
      split at h
      · rename_i hbound
        subst hbound
        rw [ih h]
        simp only [Condition.holds, decide_eq_true_eq, mem_cons, true_or, reduceCtorEq,
          false_or, true_implies]
        tauto
      · cases h
    | other p => cases h

theorem wholeHour_iff (t start stop : ℤ) :
    (ceilHour start ≤ floorHour t ∧ floorHour t < floorHour stop) ↔
      (start ≤ t ∧ t < stop) ∧ ¬ (t < ceilHour start ∨ floorHour stop ≤ t) := by
  rw [ceilHour_le_floorHour, floorHour_lt_floorHour]
  have hle : start ≤ ceilHour start := le_ceilHour
  have hfloor : floorHour stop ≤ stop := floorHour_le
  omega

theorem whole_eq_not_rest {marked : List ℤ} (hmarked : ∀ h ∈ marked, floorHour h = h)
    (hsummed : rollupConditions start stop conditions = some summed)
    (hstart : .since start ∈ conditions) (hstop : .before stop ∈ conditions) (log : UsageLog) :
    (summed.all (· log.keys) && decide (ceilHour start ≤ floorHour log.timestamp ∧
        floorHour log.timestamp < floorHour stop) &&
      !inSpans (floorHour log.timestamp) (spans marked)) =
    (!(decide (log.timestamp < ceilHour start ∨ floorHour stop ≤ log.timestamp) ||
        inSpans log.timestamp (spans marked)) &&
      conditions.all fun condition => condition.holds log) := by
  have hspans : inSpans (floorHour log.timestamp) (spans marked) =
      inSpans log.timestamp (spans marked) := by
    rw [Bool.eq_iff_iff, inSpans_spans hmarked, inSpans_spans hmarked, floorHour_floorHour]
  have hholds := rollupConditions_holds log hsummed
  simp only [hstart, hstop, true_implies] at hholds
  have hwhole := wholeHour_iff log.timestamp start stop
  rw [Bool.eq_iff_iff, Bool.and_eq_true (!_), hholds, hspans]
  simp only [Bool.and_eq_true, Bool.not_eq_true', Bool.or_eq_false_iff, decide_eq_true_eq,
    decide_eq_false_iff_not]
  rw [hwhole]
  tauto

theorem contentOf_perm (h : u.Perm v) : contentOf p u = contentOf p v :=
  (h.map _).sum_eq

theorem contentOf_logs {f : UsageLog → Bool} (logs : List UsageLog) :
    contentOf p ((logs.filter f).map raw) =
      (logs.map fun log => if f log then if p (raw log).cell then (raw log).content else 0
        else 0).sum := by
  rw [contentOf, map_map, sum_filter]
  rfl

/-- **The rollups and the rows a query selects hold what the rows of its conditions do.** -/
theorem agree_mixed (h : Inv s) {marked : List ℤ} (hmarked : ∀ h ∈ marked, floorHour h = h)
    (hsummed : rollupConditions start stop conditions = some summed)
    (hstart : .since start ∈ conditions) (hstop : .before stop ∈ conditions)
    (hunmarked : ∀ h, (UsageRows.mixed conditions summed (ceilHour start) (floorHour stop)
      (spans marked)).fromRollups h = true → Unmarked s.marks h) :
    Agree ((UsageRows.mixed conditions summed (ceilHour start) (floorHour stop)
      (spans marked)).select s) ((matching conditions s.logs).map raw) := by
  intro p
  let taken : Cell → Bool := fun c => summed.all (· c.keys) &&
    decide (ceilHour start ≤ c.hour ∧ c.hour < floorHour stop) && !inSpans c.hour (spans marked)
  let rest : UsageLog → Bool := fun log =>
    decide (log.timestamp < ceilHour start ∨ floorHour stop ≤ log.timestamp) ||
      inSpans log.timestamp (spans marked)
  have hrollups : contentOf p (s.rollups.filter fun row => summed.all (· row.keys) &&
        decide (ceilHour start ≤ row.ts ∧ row.ts < floorHour stop) &&
        !inSpans row.ts (spans marked)) =
      contentOf (fun c => p c && taken c) (s.logs.map raw) := by
    rw [contentOf_filter (q := taken) fun row hrow _ => ?_, h.exact _ fun c hc => hunmarked _ ?_]
    · have htaken := ((Bool.and_eq_true _ _).mp hc).2
      simp only [taken, Bool.and_eq_true] at htaken
      exact (Bool.and_eq_true _ _).mpr ⟨htaken.1.2, htaken.2⟩
    · simp only [taken, UsageRow.cell, (h.built row hrow).1]
  have hlogs : contentOf (fun c => p c && taken c) (s.logs.map raw) =
      contentOf p (((matching conditions s.logs).filter fun log => !rest log).map raw) := by
    rw [matching, filter_filter, contentOf_logs, contentOf, map_map]
    refine congrArg List.sum (map_congr_left fun log _ => ?_)
    have htaken : taken (raw log).cell = (!rest log &&
        conditions.all fun condition => condition.holds log) := by
      exact whole_eq_not_rest hmarked hsummed hstart hstop log
    rw [comp_apply, htaken]
    by_cases hp : p (raw log).cell = true <;> simp [hp]
  have hsplit : contentOf p ((matching conditions s.logs).map raw) =
      contentOf p (((matching conditions s.logs).filter fun log => !rest log).map raw) +
        contentOf p (((matching conditions s.logs).filter rest).map raw) := by
    rw [← contentOf_append, ← map_append]
    exact contentOf_perm (List.Perm.map _
      (perm_append_comm.trans (filter_append_perm rest _)).symm)
  rw [UsageRows.select, contentOf_append, hrollups, hlogs, hsplit]

end

/-! ### Figures -/

/-- Every row stands for some, and every latency for some of them. -/
def Counted (u : List UsageRow) : Prop :=
  ∀ row ∈ u, 0 < row.rows ∧ ∀ entry ∈ row.latencies, 0 < entry.2

theorem counted_raw (logs : List UsageLog) : Counted (logs.map raw) := by
  intro row hrow
  obtain ⟨log, -, rfl⟩ := mem_map.mp hrow
  refine ⟨one_pos, fun entry hentry => ?_⟩
  obtain rfl := mem_singleton.mp hentry
  exact one_pos

theorem counted_select (h : Inv s) (query : UsageRows) : Counted (query.select s) := by
  cases query with
  | fromRows conditions => exact counted_raw _
  | mixed conditions summed wholeStart wholeEnd marked =>
    intro row hrow
    rcases mem_append.mp hrow with hrow | hrow
    · exact (h.built row (mem_filter.mp hrow).1).2
    · exact counted_raw _ row hrow

theorem Counted.filter (h : Counted u) (f : UsageRow → Bool) : Counted (u.filter f) :=
  fun row hrow => h row (mem_filter.mp hrow).1

section
variable {M : Type} [AddCommMonoid M]

theorem Agree.sum (h : Agree u v) (φ : Content →+ M) (P : Cell → Prop) [DecidablePred P] :
    (u.map fun row => if P row.cell then φ row.content else 0).sum =
      (v.map fun row => if P row.cell then φ row.content else 0).sum := by
  have hsum : ∀ w : List UsageRow, φ (contentOf (fun c => decide (P c)) w) =
      (w.map fun row => if P row.cell then φ row.content else 0).sum := by
    intro w
    rw [contentOf, map_list_sum, map_map]
    refine congrArg List.sum (map_congr_left fun row _ => ?_)
    rw [comp_apply, apply_ite φ, map_zero]
    simp only [decide_eq_true_eq]
  rw [← hsum, ← hsum, h]

theorem Agree.total (h : Agree u v) (φ : Content →+ M) :
    (u.map fun row => φ row.content).sum = (v.map fun row => φ row.content).sum := by
  simpa using h.sum φ fun _ => True

end

theorem Agree.filter (h : Agree u v) {q : Cell → Bool}
    (hu : ∀ row ∈ u, f row = q row.cell) (hv : ∀ row ∈ v, f row = q row.cell) :
    Agree (u.filter f) (v.filter f) := by
  intro p
  rw [contentOf_filter fun row hrow _ => hu row hrow,
    contentOf_filter fun row hrow _ => hv row hrow]
  exact h _

/-! Each part of a content, as a sum of parts. -/

def rowsHom : Content →+ ℕ where
  toFun content := content.1
  map_zero' := rfl
  map_add' _ _ := rfl

def valueHom (measure : Measure) : Content →+ Nullable where
  toFun content := content.2.1 measure
  map_zero' := rfl
  map_add' _ _ := rfl

def firstHom : Content →+ Earliest where
  toFun content := content.2.2.1
  map_zero' := rfl
  map_add' _ _ := rfl

def lastHom : Content →+ Latest where
  toFun content := content.2.2.2.1
  map_zero' := rfl
  map_add' _ _ := rfl

def latenciesHom : Content →+ Multiset ℤ where
  toFun content := content.2.2.2.2
  map_zero' := rfl
  map_add' _ _ := rfl

def coalesceHom : Nullable →+ ℚ where
  toFun := coalesce
  map_zero' := rfl
  map_add' a b := by
    cases a with
    | none =>
      have hzero : coalesce (0 + b) = 0 + coalesce b := by rw [zero_add, zero_add]
      exact hzero
    | some a =>
      cases b with
      | none => exact (add_zero (coalesce (some a))).symm
      | some b => rfl

theorem summed_eq (value : UsageRow → Nullable) (u : List UsageRow) :
    summed value u = (u.map fun row => coalesce (value row)).sum := by
  have hsum := map_list_sum coalesceHom (u.map value)
  rw [map_map] at hsum
  exact hsum

theorem Agree.summed (h : Agree u v) (measure : Measure) :
    summed (·.values measure) u = summed (·.values measure) v :=
  congrArg coalesce (h.total (valueHom measure))

theorem Agree.summedIf (h : Agree u v) (P : UsageKeys → Prop) [DecidablePred P] (measure : Measure)
    (zero : Nullable) (hzero : coalesce zero = 0) :
    Usage.summed (fun row => if P row.keys then row.values measure else zero) u =
      Usage.summed (fun row => if P row.keys then row.values measure else zero) v := by
  have hcase : ∀ row : UsageRow,
      coalesce (if P row.keys then row.values measure else zero) =
        if P row.cell.keys then (coalesceHom.comp (valueHom measure)) row.content else 0 := by
    intro row
    rw [apply_ite coalesce, hzero]
    rfl
  rw [summed_eq, summed_eq]
  simp only [hcase]
  exact h.sum _ fun c => P c.keys

theorem Agree.countIf (h : Agree u v) (P : Cell → Prop) [DecidablePred P] :
    (u.map fun row => if P row.cell then row.rows else 0).sum =
      (v.map fun row => if P row.cell then row.rows else 0).sum :=
  h.sum rowsHom P

theorem Agree.requests (h : Agree u v) (statusFilter : Option String) :
    requests statusFilter u = requests statusFilter v := by
  rw [Usage.requests, Usage.requests]
  split
  · exact h.total rowsHom
  · exact h.countIf fun c => c.keys.status ≠ "absorbed"

theorem Agree.withStatus (h : Agree u v) (status : String) :
    withStatus status u = withStatus status v :=
  h.countIf fun c => c.keys.status = status

theorem Agree.importedCost (h : Agree u v) : importedCost u = importedCost v :=
  h.summedIf (fun keys => keys.source ≠ servedHereSlug) .cost _ rfl

theorem Agree.billedTokens (h : Agree u v) : billedTokens u = billedTokens v :=
  congrArg₂ (· + ·) (h.summed .billedInputTokens) (h.summed .billedOutputTokens)

theorem Agree.totals (h : Agree u v) (statusFilter : Option String) :
    totals statusFilter u = totals statusFilter v := by
  have hunpriced : (u.map fun row =>
      if row.keys.status = "success" && row.needsPricing then row.rows else 0).sum =
        (v.map fun row =>
          if row.keys.status = "success" && row.needsPricing then row.rows else 0).sum :=
    h.countIf fun c => (c.keys.status = "success" && c.needsPricing) = true
  have hlatency := h.summedIf (fun keys => keys.status ≠ "absorbed") .latencyMs 0 rfl
  have hcount := h.summedIf (fun keys => keys.status ≠ "absorbed") .latencyCount
    ((0 : ℚ) : WithZero ℚ) rfl
  simp only [Usage.totals, cost, h.summed, h.requests, h.withStatus, h.importedCost, hunpriced,
    hlatency, hcount]

theorem Agree.groupFigures (h : Agree u v) (statusFilter : Option String) :
    groupFigures statusFilter u = groupFigures statusFilter v := by
  have hfirst : (u.map (·.firstAt)).sum = (v.map (·.firstAt)).sum := h.total firstHom
  have hlast : (u.map (·.lastAt)).sum = (v.map (·.lastAt)).sum := h.total lastHom
  simp only [Usage.groupFigures, cost, h.summed, h.requests, h.withStatus, h.importedCost,
    h.billedTokens, hfirst, hlast]

theorem Agree.toolUsage (h : Agree u v) (tool : RollupTool) :
    toolUsage tool u = toolUsage tool v := by
  have hrows := h.summedIf (fun keys => keys.status ≠ "absorbed") (.toolRows tool)
    ((0 : ℚ) : WithZero ℚ) rfl
  simp only [Usage.toolUsage, h.summed, hrows]

theorem Agree.seriesPoint (h : Agree u v) (statusFilter : Option String) :
    seriesPoint statusFilter u = seriesPoint statusFilter v := by
  simp only [Usage.seriesPoint, cost, h.summed, h.requests, h.withStatus, h.importedCost]

/-! ### Groups -/

theorem perm_of_keys {κ β : Type} {l l' : List (κ × β)} (hl : (l.map Prod.fst).Nodup)
    (hl' : (l'.map Prod.fst).Nodup) (h : ∀ x, x ∈ l ↔ x ∈ l') : l.Perm l' :=
  (perm_ext_iff_of_nodup (.of_map _ hl) (.of_map _ hl')).mpr h

section
variable {κ β : Type} [DecidableEq κ]

variable {group : UsageRow → κ}

theorem group_iff (hu : Counted u) {γ : Cell → κ}
    (hgroup : ∀ row ∈ u, group row = γ row.cell) (k : κ) : (∃ row ∈ u, group row = k) ↔
      (u.map fun row => if γ row.cell = k then row.rows else 0).sum ≠ 0 := by
  rw [Ne, sum_eq_zero_iff]
  constructor
  · rintro ⟨row, hrow, rfl⟩ hzero
    have hrows := hzero _ (mem_map_of_mem hrow)
    rw [if_pos (hgroup row hrow).symm] at hrows
    exact (hu row hrow).1.ne' hrows
  · intro hne
    by_contra hnone
    refine hne fun n hn => ?_
    obtain ⟨row, hrow, rfl⟩ := mem_map.mp hn
    exact if_neg fun hk => hnone ⟨row, hrow, (hgroup row hrow).trans hk⟩

theorem Agree.group_iff (h : Agree u v) (hu : Counted u) (hv : Counted v)
    (γ : Cell → κ) (hgu : ∀ row ∈ u, group row = γ row.cell)
    (hgv : ∀ row ∈ v, group row = γ row.cell) (k : κ) :
    (∃ row ∈ u, group row = k) ↔ ∃ row ∈ v, group row = k := by
  rw [Usage.group_iff hu hgu, Usage.group_iff hv hgv, h.countIf fun c => γ c = k]

theorem Agree.ofGroup (h : Agree u v) (γ : Cell → κ)
    (hgu : ∀ row ∈ u, group row = γ row.cell) (hgv : ∀ row ∈ v, group row = γ row.cell) (k : κ) :
    Agree (u.filter fun row => group row = k) (v.filter fun row => group row = k) :=
  h.filter (q := fun c => decide (γ c = k)) (fun row hrow => by rw [hgu row hrow])
    fun row hrow => by rw [hgv row hrow]

/-- **A grouped read.**  Groups of cells, and figures read off contents. -/
theorem Agree.grouped (h : Agree u v) (hu : Counted u) (hv : Counted v)
    (γ : Cell → κ) {figures : List UsageRow → β} (hgu : ∀ row ∈ u, group row = γ row.cell)
    (hgv : ∀ row ∈ v, group row = γ row.cell)
    (hfigures : ∀ {u v}, Agree u v → figures u = figures v) :
    (grouped group figures u).Perm (grouped group figures v) := by
  refine perm_of_keys (nodup_map_groupBy figures) (nodup_map_groupBy figures) fun x => ?_
  rw [Usage.grouped, Usage.grouped, mem_map_groupBy, mem_map_groupBy,
    h.group_iff hu hv γ hgu hgv, hfigures (h.ofGroup γ hgu hgv x.1)]

end

/-! ### Percentiles -/

def requestLatencies (u : List UsageRow) : Multiset ℤ :=
  (u.map fun row => if row.keys.status ≠ "absorbed" then (row.latencies.map taken).sum else 0).sum

theorem Agree.requestLatencies (h : Agree u v) : requestLatencies u = requestLatencies v :=
  h.sum latenciesHom fun c => c.keys.status ≠ "absorbed"

/-- Each latency of the list, as often as it was taken. -/
def spread (entries : List (ℤ × ℕ)) : Multiset ℤ :=
  (entries.map fun entry => entry.2 • ({entry.1} : Multiset ℤ)).sum

theorem sum_taken (latencies : List (Option ℤ × ℕ)) : (latencies.map taken).sum =
    spread (latencies.filterMap fun entry => entry.1.map fun value => (value, entry.2)) := by
  induction latencies with
  | nil => rfl
  | cons entry latencies ih =>
    obtain ⟨value, n⟩ := entry
    rw [map_cons, sum_cons, ih]
    cases value with
    | none =>
      rw [filterMap_cons_none rfl]
      exact zero_add _
    | some value =>
      exact (sum_cons ..).symm

theorem spread_append (l l' : List (ℤ × ℕ)) : spread (l ++ l') = spread l + spread l' := by
  rw [spread, map_append, sum_append]
  rfl

theorem requestLatencies_eq (u : List UsageRow) :
    requestLatencies u = spread (latencyCounts u) := by
  induction u with
  | nil => rfl
  | cons row u ih =>
    rw [Usage.requestLatencies, map_cons, sum_cons, ← Usage.requestLatencies, ih]
    by_cases hstatus : row.keys.status ≠ "absorbed"
    · rw [if_pos hstatus, sum_taken, ← spread_append, latencyCounts, latencyCounts,
        filter_cons_of_pos (p := fun row : UsageRow => row.keys.status ≠ "absorbed")
          (decide_eq_true hstatus), flatMap_cons, filterMap_append]
    · rw [if_neg hstatus, zero_add, latencyCounts, latencyCounts,
        filter_cons_of_neg (p := fun row : UsageRow => row.keys.status ≠ "absorbed")
          (by simpa using hstatus)]

/-- The latencies of the requests among the rows. -/
def rowLatencies (logs : List UsageLog) : List ℤ :=
  (logs.filter fun log => log.keys.status ≠ "absorbed").filterMap (·.latencyMs)

theorem requestLatencies_raw (logs : List UsageLog) :
    requestLatencies (logs.map raw) = (rowLatencies logs : Multiset ℤ) := by
  induction logs with
  | nil => rfl
  | cons log logs ih =>
    rw [map_cons, Usage.requestLatencies, map_cons, sum_cons,
      ← Usage.requestLatencies, ih, rowLatencies, rowLatencies]
    have hkeys : (raw log).keys = log.keys := rfl
    rw [hkeys]
    by_cases hstatus : log.keys.status ≠ "absorbed"
    · rw [if_pos hstatus, filter_cons_of_pos
        (p := fun log : UsageLog => log.keys.status ≠ "absorbed") (decide_eq_true hstatus)]
      cases hlatency : log.latencyMs with
      | none =>
        rw [filterMap_cons_none hlatency]
        simp [raw, taken, hlatency]
      | some value =>
        rw [filterMap_cons_some hlatency]
        simp [raw, taken, hlatency]
    · rw [if_neg hstatus, zero_add, filter_cons_of_neg
        (p := fun log : UsageLog => log.keys.status ≠ "absorbed") (by simpa using hstatus)]

theorem countP_spread (P : ℤ → Prop) [DecidablePred P] (entries : List (ℤ × ℕ)) :
    (spread entries).countP P =
      (entries.map fun entry => if P entry.1 then entry.2 else 0).sum := by
  have hsum := map_list_sum (Multiset.countPAddMonoidHom P)
    (entries.map fun entry => entry.2 • ({entry.1} : Multiset ℤ))
  rw [map_map] at hsum
  refine hsum.trans (congrArg List.sum (map_congr_left fun entry _ => ?_))
  rw [comp_apply, map_nsmul, Multiset.coe_countPAddMonoidHom]
  by_cases hP : P entry.1 <;> simp [hP, ← Multiset.cons_zero]

theorem sum_perValue (P : ℤ → Prop) [DecidablePred P] (entries : List (ℤ × ℕ)) :
    (((perValue entries).filter fun entry => P entry.1).map Prod.snd).sum =
      (spread entries).countP P := by
  rw [countP_spread, ← sum_groupBy Prod.fst _ entries, sum_filter, perValue, map_map]
  refine congrArg List.sum (map_congr_left fun g hg => ?_)
  have hterm : (g.2.map fun entry => if P entry.1 then entry.2 else 0) =
      g.2.map fun entry => if P g.1 then entry.2 else 0 :=
    map_congr_left fun entry hentry => by rw [(key_of_mem hg hentry).1]
  rw [hterm, comp_apply]
  by_cases hP : P g.1 <;> simp [hP]

theorem mem_perValue {entries : List (ℤ × ℕ)} (hpos : ∀ entry ∈ entries, 0 < entry.2) (value : ℤ) :
    value ∈ (perValue entries).map Prod.fst ↔ value ∈ spread entries := by
  have hkeys : (perValue entries).map Prod.fst = (entries.map Prod.fst).dedup := by
    rw [perValue, map_map]
    exact map_fst_groupBy
  have hcount : value ∈ spread entries ↔ 0 < (spread entries).countP (· = value) := by
    rw [Multiset.countP_pos]
    exact ⟨fun h => ⟨value, h, rfl⟩, fun ⟨_, h, heq⟩ => heq ▸ h⟩
  rw [hkeys, mem_dedup, hcount, countP_spread, Nat.pos_iff_ne_zero, Ne, sum_eq_zero_iff]
  constructor
  · rintro hmem hzero
    obtain ⟨entry, hentry, rfl⟩ := mem_map.mp hmem
    have hrows := hzero _ (mem_map_of_mem hentry)
    rw [if_pos rfl] at hrows
    exact (hpos entry hentry).ne' hrows
  · intro hne
    by_contra hnot
    refine hne fun n hn => ?_
    obtain ⟨entry, hentry, rfl⟩ := mem_map.mp hn
    exact if_neg fun heq => hnot (mem_map.mpr ⟨entry, hentry, heq⟩)

theorem latencyCounts_pos (hu : Counted u) : ∀ entry ∈ latencyCounts u, 0 < entry.2 := by
  intro entry hentry
  obtain ⟨⟨value, n⟩, hmem, hmap⟩ := mem_filterMap.mp hentry
  obtain ⟨row, hrow, hmem⟩ := mem_flatMap.mp hmem
  obtain ⟨value, -, rfl⟩ := Option.map_eq_some_iff.mp hmap
  exact (hu row (mem_filter.mp hrow).1).2 _ hmem

theorem min_eq_atRank {found latencies : List ℤ} (hmem : ∀ value, value ∈ found ↔
    value ∈ latencies ∧
      latencies.length * 95 ≤ (latencies.countP fun latency => latency ≤ value) * 100) :
    found.min? = atRank ((latencies.length * 95 + 99) / 100) latencies := by
  rcases Nat.eq_zero_or_pos latencies.length with hempty | hpos
  · obtain rfl := length_eq_zero_iff.mp hempty
    have hnil : found = [] := eq_nil_iff_forall_not_mem.mpr fun value hvalue =>
      not_mem_nil ((hmem value).mp hvalue).1
    rw [hnil]
    rfl
  · obtain ⟨greatest, hgreatest, hle⟩ := latencies.toFinset.exists_max_image id
      (toFinset_nonempty_iff _ |>.mpr (ne_nil_of_length_pos hpos))
    have hall : (latencies.countP fun latency => latency ≤ greatest) = latencies.length :=
      countP_eq_length.mpr fun latency hlatency =>
        decide_eq_true (hle latency (mem_toFinset.mpr hlatency))
    have hfound : greatest ∈ found := (hmem greatest).mpr ⟨mem_toFinset.mp hgreatest, by omega⟩
    cases hmin : found.min? with
    | none =>
      rw [List.min?_eq_none_iff.mp hmin] at hfound
      cases hfound
    | some value =>
      obtain ⟨hvalue, hleast⟩ := List.min?_eq_some_iff.mp hmin
      have hrank := ((hmem value).mp hvalue).2
      refine (atRank_eq_some (by omega) (by omega) fun w hw hreached => ?_).symm
      exact hleast w ((hmem w).mpr ⟨hw, by omega⟩)

/-- **The running counts find the row at the rank.** -/
theorem p95_eq_percentileDisc (h : Agree u (logs.map raw))
    (hu : Counted u) : p95 u = percentileDisc logs := by
  have hspread : spread (latencyCounts u) = (rowLatencies logs : Multiset ℤ) := by
    rw [← requestLatencies_eq, h.requestLatencies, requestLatencies_raw]
  have hreached : ∀ value, (((perValue (latencyCounts u)).filter fun e => e.1 ≤ value).map
      Prod.snd).sum = (rowLatencies logs).countP fun latency => latency ≤ value := by
    intro value
    rw [sum_perValue (· ≤ value), hspread, Multiset.coe_countP]
  have htotal : ((perValue (latencyCounts u)).map Prod.snd).sum = (rowLatencies logs).length := by
    have hall := sum_perValue (fun _ => True) (latencyCounts u)
    rw [hspread, Multiset.coe_countP] at hall
    simpa using hall
  let found := ((perValue (latencyCounts u)).filter fun e => (rowLatencies logs).length * 95 ≤
    ((rowLatencies logs).countP fun latency => latency ≤ e.1) * 100).map Prod.fst
  have hfound : p95 u = found.min? := by
    rw [p95]
    simp only [hreached, htotal]
    rfl
  have hmem : ∀ value, value ∈ found ↔ value ∈ rowLatencies logs ∧
      (rowLatencies logs).length * 95 ≤
        ((rowLatencies logs).countP fun latency => latency ≤ value) * 100 := by
    intro value
    have hvalue := mem_perValue (latencyCounts_pos hu) value
    rw [hspread, Multiset.mem_coe] at hvalue
    rw [← hvalue]
    simp only [found, mem_map, mem_filter, decide_eq_true_eq]
    constructor
    · rintro ⟨e, ⟨he, hrank⟩, rfl⟩
      exact ⟨⟨e, he, rfl⟩, hrank⟩
    · rintro ⟨⟨e, he, rfl⟩, hrank⟩
      exact ⟨e, ⟨he, hrank⟩, rfl⟩
  rw [hfound]
  exact min_eq_atRank hmem

theorem Agree.p95ByGroup {κ : Type} [DecidableEq κ]
    (h : Agree u (logs.map raw)) (hu : Counted u) (dimension : UsageKeys → κ) :
    (p95ByGroup dimension u).Perm (groupP95 dimension logs) := by
  have hkeys : ∀ row : UsageRow, dimension row.keys = dimension row.cell.keys := fun _ => rfl
  refine perm_of_keys (nodup_filterMap_groupBy p95) (nodup_filterMap_groupBy percentileDisc)
    fun x => ?_
  have hfilter := h.ofGroup (fun c => dimension c.keys) (fun row _ => hkeys row)
    (fun row _ => hkeys row) x.1
  have hrow : (∃ row ∈ logs.map raw, dimension row.keys = x.1) ↔
      ∃ log ∈ logs, dimension log.keys = x.1 := by simp [raw]
  rw [filter_map] at hfilter
  rw [Usage.p95ByGroup, groupP95, mem_filterMap_groupBy, mem_filterMap_groupBy,
    p95_eq_percentileDisc hfilter (hu.filter _),
    h.group_iff hu (counted_raw logs) (fun c => dimension c.keys) (fun row _ => hkeys row)
      (fun row _ => hkeys row), hrow]
  rfl

/-! ### Reports -/

theorem Agree.counted (h : Agree u (logs.map raw)) (p : UsageKeys → Bool) :
    ((u.filter fun row => p row.keys).map (·.rows)).sum = logs.countP fun log => p log.keys := by
  have hone : logs.countP (fun log => p log.keys) =
      ((logs.filter fun log => p log.keys).map fun _ => 1).sum := by
    rw [countP_eq_length_filter, map_const', sum_replicate, smul_eq_mul, mul_one]
  rw [sum_filter, hone, sum_filter]
  refine (h.countIf fun c => p c.keys = true).trans ?_
  rw [map_map]
  rfl

variable {bucket : Bucket}

theorem bucketStart_floorHour (hbucket : bucket ≠ .fiveMinutes) (ts : ℤ) :
    bucketStart bucket ts = bucketStart bucket (floorHour ts) := by
  cases bucket with
  | fiveMinutes => exact absurd rfl hbucket
  | hour => exact floorHour_floorHour.symm
  | day =>
    simp only [bucketStart, floorHour, hour]
    omega

theorem sameReports_rows (logs : List UsageLog) : SameReports bucket (logs.map raw) logs where
  totals _ := rfl
  breakdown _ _ _ _ := .rfl
  toolUsage _ := rfl
  errorsByStatusCode := .rfl
  series _ := .rfl
  groupedSeries _ _ _ _ := .rfl
  counted := Agree.counted fun _ => rfl
  p95ByGroup _ _ dimension := Agree.p95ByGroup (fun _ => rfl) (counted_raw logs) dimension

theorem sameReports_of_agree (hbucket : bucket ≠ .fiveMinutes)
    (h : Agree u (logs.map raw)) (hu : Counted u) : SameReports bucket u logs := by
  have hv := counted_raw logs
  refine ⟨h.totals, fun κ _ dimension statusFilter => ?_, h.toolUsage, ?_, fun statusFilter => ?_,
    fun κ _ dimension statusFilter => ?_, h.counted, fun κ _ dimension => h.p95ByGroup hu dimension⟩
  · exact h.grouped hu hv (fun c => dimension c.keys) (fun _ _ => rfl) (fun _ _ => rfl)
      fun hagree => hagree.groupFigures statusFilter
  · have herrors := h.filter (f := fun row => row.keys.status = "error")
      (q := fun c => c.keys.status = "error") (fun _ _ => rfl) fun _ _ => rfl
    exact herrors.grouped (hu.filter _) (hv.filter _) (fun c => c.keys.statusCode)
      (fun _ _ => rfl) (fun _ _ => rfl) fun hagree => hagree.total rowsHom
  · exact h.grouped hu hv (fun c => bucketStart bucket c.hour)
      (fun _ _ => bucketStart_floorHour hbucket _) (fun _ _ => bucketStart_floorHour hbucket _)
      fun hagree => hagree.seriesPoint statusFilter
  · refine h.grouped hu hv (fun c => (bucketStart bucket c.hour, dimension c.keys))
      (fun _ _ => ?_) (fun _ _ => ?_) fun hagree => ?_
    · rw [bucketStart_floorHour hbucket]
      rfl
    · rw [bucketStart_floorHour hbucket]
      rfl
    · simp only [cost, hagree.summed, hagree.billedTokens, hagree.requests, hagree.importedCost]

/-- **Reports from the rollups are those from the rows.**  In every run, and whatever the window,
the conditions and the groups, where no write between the reading of the marks and the report touches
an hour the report takes from the rollups. -/
theorem rollups_exact {before after : List Event} {s₁ s₂ : UsageStore}
    (h₁ : UsageStore.run {} before = some s₁) (postgres : Bool) {conditions : List Condition}
    {start stop : ℤ} (hstart : .since start ∈ conditions) (hstop : .before stop ∈ conditions)
    (bucket : Bucket) (exact : Bool)
    (h₂ : s₁.runUnder (rows postgres s₁ conditions start stop bucket exact).spared after =
      some s₂) :
    SameReports bucket ((rows postgres s₁ conditions start stop bucket exact).select s₂)
      (matching conditions s₂.logs) := by
  have hinv₁ : Inv s₁ := inv_start.runUnder h₁
  have hinv₂ : Inv s₂ := hinv₁.runUnder h₂
  have hunmarked := unmarked_run (unmarked_rows hinv₁) h₂
  have hcounted := counted_select hinv₂ (rows postgres s₁ conditions start stop bucket exact)
  rcases rows_cases postgres s₁ conditions start stop bucket exact with
    hrows | ⟨summed, hsummed, hbucket, hrows⟩
  · rw [hrows]
    exact sameReports_rows _
  · rw [hrows] at hunmarked hcounted ⊢
    exact sameReports_of_agree hbucket
      (agree_mixed hinv₂ (marked_aligned hinv₁) hsummed hstart hstop hunmarked) hcounted

/-! ### A write after the marks are read -/

def servedAt (id : ℕ) (minutes : ℤ) : UsageLog where
  id := id
  timestamp := minutes * 60000000
  keys := ⟨1, "m", none, none, "/v1/messages", none, none, "gateway", none, none, "success", none⟩
  latencyMs := some 40

/-- A request in the first hour, which a refresh builds. -/
def firstHourBuilt : List Event :=
  [.write [] [servedAt 0 30], .take 24 (servedAt 0 120).timestamp, .next, .next, .next]

def twoHoursAndAHalf : List Condition :=
  [.since 0, .before (servedAt 0 150).timestamp]

def queryAfter (s : UsageStore) : UsageRows :=
  rows true s twoHoursAndAHalf 0 (servedAt 0 150).timestamp .hour false

/-- The requests a report counts, and those of the rows, where `after` comes between the reading of
the marks and the report. -/
def requestsCounted (allowed : UsageRows → UsageStore → Event → Bool) (after : List Event) :
    Option (ℕ × ℕ) :=
  (UsageStore.run {} firstHourBuilt).bind fun s₁ =>
    (s₁.runUnder (allowed (queryAfter s₁)) after).map fun s₂ =>
      (requests none ((queryAfter s₁).select s₂),
        requests none ((matching twoHoursAndAHalf s₂.logs).map raw))

theorem requestsCounted_lateHour :
    requestsCounted UsageRows.spared [.write [] [servedAt 1 130]] = some (2, 2) := by
  decide +kernel

theorem requestsCounted_builtHour :
    requestsCounted (fun _ _ _ => true) [.write [] [servedAt 1 45]] = some (1, 2) := by
  decide +kernel

/-- A write to the hour still under way is read from the rows. -/
theorem rollups_exact_lateHour : ∃ s₁ s₂ : UsageStore,
    requests none ((queryAfter s₁).select s₂) = 2 ∧
      SameReports .hour ((queryAfter s₁).select s₂) (matching twoHoursAndAHalf s₂.logs) := by
  obtain ⟨s₁, h₁, hafter⟩ := Option.bind_eq_some_iff.mp requestsCounted_lateHour
  obtain ⟨s₂, h₂, hcounts⟩ := Option.map_eq_some_iff.mp hafter
  exact ⟨s₁, s₂, (Prod.mk.inj hcounts).1, rollups_exact h₁ true List.mem_cons_self
    (List.mem_cons_of_mem _ List.mem_cons_self) .hour false h₂⟩

/-- **A write between the reading of the marks and the report is missed.** -/
theorem built_hour_misses_write :
    ¬ ∀ (before after : List Event) (s₁ s₂ : UsageStore) (conditions : List Condition)
        (start stop : ℤ), UsageStore.run {} before = some s₁ → .since start ∈ conditions →
      .before stop ∈ conditions → s₁.run after = some s₂ →
      SameReports .hour ((rows true s₁ conditions start stop .hour false).select s₂)
        (matching conditions s₂.logs) := by
  intro hall
  obtain ⟨s₁, h₁, hafter⟩ := Option.bind_eq_some_iff.mp requestsCounted_builtHour
  obtain ⟨s₂, h₂, hcounts⟩ := Option.map_eq_some_iff.mp hafter
  obtain ⟨hreport, hrows⟩ := Prod.mk.inj hcounts
  have hsame := hall _ _ s₁ s₂ twoHoursAndAHalf 0 (servedAt 0 150).timestamp h₁ List.mem_cons_self
    (List.mem_cons_of_mem _ List.mem_cons_self) h₂
  have hrequests := congrArg UsageTotals.requestCount (hsame.totals none)
  have heq : (1 : ℕ) = 2 := hreport.symm.trans (hrequests.trans hrows)
  cases heq

end Otari.Usage
