import Otari.RateLimit.SlidingWindow

/-!
# Rate limit — WindowExact — the log answers as its book

A window stands for a list of admissions that shows what the book shows from now on (`Tracks`), with
its total their costs.  A prune brings the list down to what is live (`Tracks.expire`); nothing else
may lose an admission but a cleanup, of a key where nothing is live any more.
-/

namespace Otari.RateLimit.Sliding
open Expiry Function List

variable {T now w widest : ℚ} {width : Key → ℚ} {handles : ℕ} {window : Window}
  {stored es all : List Admission} {log : SlidingWindowLog} {book : Book}

/-! ### The window of a list of admissions -/

def costOf (es : List Admission) (handle : Handle) : Option ℤ :=
  (es.find? fun e => e.handle = handle).map Admission.cost

def windowOf (es : List Admission) : Window where
  entries := es.map fun e => (e.time, e.handle)
  costs := costOf es
  total := spent es

@[simp] theorem spent_cons (e : Admission) : spent (e :: es) = e.cost + spent es := by
  simp [spent]

@[simp] theorem spent_append (es es' : List Admission) :
    spent (es ++ es') = spent es + spent es' := by
  simp [spent]

@[simp] theorem leaves_recost (handle : Handle) (cost : ℤ) (e : Admission) :
    leaves w (recost handle cost e) = leaves w e := by
  unfold recost
  split <;> rfl

@[simp] theorem handle_recost (handle : Handle) (cost : ℤ) (e : Admission) :
    (recost handle cost e).handle = e.handle := by
  unfold recost
  split <;> rfl

@[simp] theorem time_recost (handle : Handle) (cost : ℤ) (e : Admission) :
    (recost handle cost e).time = e.time := by
  unfold recost
  split <;> rfl

variable {handle : Handle} {e : Admission}

theorem recost_of_ne (cost : ℤ) (h : e.handle ≠ handle) : recost handle cost e = e :=
  if_neg h

theorem map_recost_of_not_mem (cost : ℤ)
    (h : handle ∉ es.map Admission.handle) : es.map (recost handle cost) = es := by
  refine (map_congr_left fun e he => ?_).trans (map_id es)
  exact recost_of_ne cost fun hhandle => h (mem_map.mpr ⟨e, he, hhandle⟩)

theorem costOf_eq_none : costOf es handle = none ↔ handle ∉ es.map Admission.handle := by
  simp [costOf]

@[simp] theorem costOf_cons_self (e : Admission) : costOf (e :: es) e.handle = some e.cost := by
  simp [costOf]

theorem costOf_cons_of_ne (h : e.handle ≠ handle) : costOf (e :: es) handle = costOf es handle := by
  simp [costOf, h]

theorem update_costOf (h : e.handle ∉ es.map Admission.handle) :
    update (costOf (e :: es)) e.handle none = costOf es := by
  funext handle
  by_cases he : handle = e.handle
  · rw [he, update_self]
    exact (costOf_eq_none.mpr h).symm
  · rw [update_of_ne he, costOf_cons_of_ne (Ne.symm he)]

theorem lt_leaves : now < leaves w e ↔ ¬ e.time ≤ now - w := by
  rw [leaves, not_le, sub_lt_iff_lt_add]

theorem live_cons_of_le (h : e.time ≤ now - w) :
    live (leaves w) now (e :: es) = live (leaves w) now es := by
  rw [live, filter_cons, if_neg (by simpa [lt_leaves] using h)]
  rfl

theorem expire_windowOf (hsorted : es.Pairwise fun a b => a.time ≤ b.time)
    (hnodup : (es.map Admission.handle).Nodup) :
    (windowOf es).expire (now - w) = some (windowOf (live (leaves w) now es)) := by
  induction es with
  | nil => rfl
  | cons e rest ih =>
    obtain ⟨hfirst, hsorted⟩ := pairwise_cons.mp hsorted
    rw [map_cons, nodup_cons] at hnodup
    by_cases hold : e.time ≤ now - w
    · rw [live_cons_of_le hold, ← ih hsorted hnodup.2]
      simp only [windowOf, Window.expire, map_cons, expire, if_pos hold, costOf_cons_self,
        update_costOf hnodup.1, spent_cons, add_sub_cancel_left]
    · -- what comes after it is no older
      have hall : live (leaves w) now (e :: rest) = e :: rest := by
        refine filter_eq_self.mpr fun other hother => decide_eq_true ?_
        rw [lt_leaves, not_le]
        rcases mem_cons.mp hother with rfl | hother
        · exact not_le.mp hold
        · exact (not_le.mp hold).trans_le (hfirst other hother)
      rw [hall]
      simp only [windowOf, Window.expire, map_cons, expire, if_neg hold]

theorem resetAfter_windowOf : resetAfter now w (windowOf es).entries = waits now w es := by
  cases es <;> rfl

theorem windowOf_push (now : ℚ) (cost : ℤ) (h : handle ∉ es.map Admission.handle) :
    ({ entries := (windowOf es).entries ++ [(now, handle)]
       costs := update (windowOf es).costs handle (some cost)
       total := (windowOf es).total + cost } : Window)
      = windowOf (es ++ [⟨now, handle, cost⟩]) := by
  have hcosts : update (costOf es) handle (some cost)
      = costOf (es ++ [⟨now, handle, cost⟩]) := by
    funext other
    by_cases ho : other = handle
    · subst ho
      have hnone : es.find? (fun e => e.handle = other) = none := by
        simpa [costOf] using costOf_eq_none.mpr h
      simp [costOf, List.find?_append, hnone]
    · have hlast : ([⟨now, handle, cost⟩] : List Admission).find? (fun e => e.handle = other)
          = none := by simp [Ne.symm ho]
      rw [update_of_ne ho, costOf, costOf, List.find?_append, hlast, Option.or_none]
  simp only [windowOf, hcosts, map_append, map_cons, map_nil, spent_append]
  simp [spent]

theorem update_costOf_recost {old : ℤ} (cost : ℤ) (h : costOf es handle = some old) :
    update (costOf es) handle (some cost) = costOf (es.map (recost handle cost)) := by
  funext other
  have hfind : costOf (es.map (recost handle cost)) other
      = (es.find? fun e => e.handle = other).map fun e => (recost handle cost e).cost := by
    simp [costOf, List.find?_map, comp_def]
  rw [hfind]
  by_cases ho : other = handle
  · subst ho
    obtain ⟨e, he, -⟩ := Option.map_eq_some_iff.mp h
    have hhandle : e.handle = other := by simpa using List.find?_some he
    rw [update_self, he, Option.map_some, recost, if_pos hhandle]
  · rw [update_of_ne ho, costOf]
    refine Option.map_congr fun e he => ?_
    have hhandle : e.handle = other := by simpa using List.find?_some he
    rw [recost_of_ne cost (hhandle ▸ ho)]

theorem spent_recost {old : ℤ} (cost : ℤ)
    (hnodup : (es.map Admission.handle).Nodup) (h : costOf es handle = some old) :
    spent (es.map (recost handle cost)) = spent es + (cost - old) := by
  induction es with
  | nil => cases h
  | cons e rest ih =>
    rw [map_cons, nodup_cons] at hnodup
    by_cases he : e.handle = handle
    · subst he
      obtain rfl : e.cost = old := by simpa using h
      rw [map_cons, map_recost_of_not_mem cost hnodup.1, spent_cons, spent_cons, recost,
        if_pos rfl]
      ring
    · rw [costOf_cons_of_ne he] at h
      rw [map_cons, recost_of_ne cost he, spent_cons, spent_cons, ih hnodup.2 h]
      ring

theorem windowOf_recost {old : ℤ} (cost : ℤ)
    (hnodup : (es.map Admission.handle).Nodup) (h : costOf es handle = some old) :
    ({ windowOf es with
       total := (windowOf es).total + (cost - old)
       costs := update (windowOf es).costs handle (some cost) } : Window)
      = windowOf (es.map (recost handle cost)) := by
  simp only [windowOf, update_costOf_recost cost h, spent_recost cost hnodup h, map_map]
  simp [comp_def]

/-! ### What a window stands for -/

/-- A window holds admissions that show, from `T` on, what all of the key's show. -/
structure Tracks (w T widest : ℚ) (handles : ℕ) (window : Window) (stored all : List Admission) :
    Prop where
  holds : window = windowOf stored
  sorted : stored.Pairwise fun a b => a.time ≤ b.time
  nodup : (stored.map Admission.handle).Nodup
  drawn : ∀ e ∈ stored, ∃ n < handles, e.handle = str n
  past : ∀ e ∈ stored, e.time ≤ T
  wide : stored ≠ [] → w ≤ widest
  shows : SameFrom (leaves w) T stored all

namespace Tracks

theorem empty : Tracks w T widest handles {} [] [] :=
  ⟨rfl, List.Pairwise.nil, nodup_nil, by simp, by simp, by simp, .refl _ _ _⟩

theorem mono {widest' : ℚ} {handles' : ℕ} (h : Tracks w T widest handles window stored all)
    (hT : T ≤ now) (hwidest : widest ≤ widest') (hhandles : handles ≤ handles') :
    Tracks w now widest' handles' window stored all where
  holds := h.holds
  sorted := h.sorted
  nodup := h.nodup
  drawn := fun e he => (h.drawn e he).imp fun _ hn => ⟨hn.1.trans_le hhandles, hn.2⟩
  past := fun e he => (h.past e he).trans hT
  wide := fun hne => (h.wide hne).trans hwidest
  shows := h.shows.mono hT

theorem expire (h : Tracks w T widest handles window stored all) (hT : T ≤ now) :
    window.expire (now - w) = some (windowOf (live (leaves w) now all))
      ∧ Tracks w now widest handles (windowOf (live (leaves w) now all))
          (live (leaves w) now all) all := by
  have hlive : live (leaves w) now all = live (leaves w) now stored := (h.shows now hT).symm
  have hsub : (live (leaves w) now all).Sublist stored := hlive ▸ live_sublist
  refine ⟨?_, rfl, h.sorted.sublist hsub, h.nodup.sublist (hsub.map _), ?_, ?_, ?_, .live⟩
  · rw [h.holds, hlive]
    exact expire_windowOf h.sorted h.nodup
  · exact fun e he => h.drawn e (hsub.subset he)
  · exact fun e he => (h.past e (hsub.subset he)).trans hT
  · exact fun hne => h.wide fun hnil => hne (sublist_nil.mp (hnil ▸ hsub))

theorem push (h : Tracks w now widest handles window stored all) (hwide : w ≤ widest) (cost : ℤ) :
    Tracks w now widest (handles + 1) (windowOf (stored ++ [⟨now, str handles, cost⟩]))
      (stored ++ [⟨now, str handles, cost⟩]) (all ++ [⟨now, str handles, cost⟩]) where
  holds := rfl
  sorted := by
    refine pairwise_append.mpr ⟨h.sorted, pairwise_singleton _ _, fun a ha b hb => ?_⟩
    rw [mem_singleton.mp hb]
    exact h.past a ha
  nodup := by
    rw [map_append, map_singleton]
    refine nodup_append.mpr ⟨h.nodup, nodup_singleton _, ?_⟩
    rintro _ hold _ hnew rfl
    obtain ⟨e, he, hhandle⟩ := mem_map.mp hold
    obtain ⟨n, hn, hdrawn⟩ := h.drawn e he
    rw [mem_singleton.mp hnew] at hhandle
    exact hn.ne (str_inj (hdrawn.symm.trans hhandle))
  drawn := by
    intro e he
    rcases mem_append.mp he with he | he
    · exact (h.drawn e he).imp fun _ hn => ⟨Nat.lt_succ_of_lt hn.1, hn.2⟩
    · rw [mem_singleton.mp he]
      exact ⟨handles, Nat.lt_succ_self _, rfl⟩
  past := by
    intro e he
    rcases mem_append.mp he with he | he
    · exact h.past e he
    · rw [mem_singleton.mp he]
  wide := fun _ => hwide
  shows := h.shows.append _

theorem not_mem_new (h : Tracks w T widest handles window stored all) :
    str handles ∉ stored.map Admission.handle := by
  intro hmem
  obtain ⟨e, he, hhandle⟩ := mem_map.mp hmem
  obtain ⟨n, hn, hdrawn⟩ := h.drawn e he
  exact hn.ne (str_inj (hdrawn.symm.trans hhandle))

theorem settle (h : Tracks w T widest handles window stored all) (handle : Handle) (cost : ℤ) :
    Tracks w T widest handles (windowOf (stored.map (recost handle cost)))
      (stored.map (recost handle cost)) (all.map (recost handle cost)) where
  holds := rfl
  sorted := pairwise_map.mpr (h.sorted.imp fun hle => by simpa using hle)
  nodup := by simpa [comp_def] using h.nodup
  drawn := by
    intro e he
    obtain ⟨old, hold, rfl⟩ := mem_map.mp he
    simpa using h.drawn old hold
  past := by
    intro e he
    obtain ⟨old, hold, rfl⟩ := mem_map.mp he
    simpa using h.past old hold
  wide := fun hne => h.wide fun hnil => hne (by rw [hnil, map_nil])
  shows := h.shows.map (leaves_recost handle cost)

theorem settle_left (h : Tracks w T widest handles window stored all) (hT : T ≤ now)
    {handle : Handle} (cost : ℤ) (hleft : handle ∉ (live (leaves w) now all).map Admission.handle) :
    Tracks w now widest handles (windowOf (stored.map (recost handle cost)))
      (stored.map (recost handle cost)) all := by
  have hsettled := (h.settle handle cost).mono hT le_rfl le_rfl
  refine { hsettled with shows := hsettled.shows.trans fun later hlater => ?_ }
  rw [live_map fun e _ => leaves_recost handle cost e]
  refine map_recost_of_not_mem cost fun hmem => hleft ?_
  -- what is live later was live before
  rw [← live_live hlater] at hmem
  exact (live_sublist.map _).subset hmem

theorem forget (h : Tracks w T widest handles window stored all) (hT : T ≤ now)
    (hleft : ∀ e ∈ stored, leaves w e ≤ now) : Tracks w now widest handles {} [] all :=
  { empty with shows := (SameFrom.nil hleft).trans (h.shows.mono hT) }

end Tracks

/-! ### A settle of a log -/

theorem eq_nil_of_windowOf (h : windowOf es = {}) : es = [] :=
  map_eq_nil_iff.mp (congrArg Window.entries h)

namespace SlidingWindowLog

def answers (width : Key → ℚ) (log : SlidingWindowLog) (acts : List Act) :
    Option (List (Option RateLimitWindow)) :=
  (log.run width acts).map Prod.fst

theorem settle_frame (log : SlidingWindowLog) (key : Key) (handle : Handle) (cost : ℤ) :
    (log.settle key handle cost).handles = log.handles
      ∧ (log.settle key handle cost).widestWindow = log.widestWindow
      ∧ ∀ other, other ≠ key → (log.settle key handle cost).window other = log.window other := by
  unfold settle window
  split
  · exact ⟨rfl, rfl, fun _ _ => rfl⟩
  · split
    · exact ⟨rfl, rfl, fun _ _ => rfl⟩
    · refine ⟨rfl, rfl, fun other hother => ?_⟩
      dsimp only
      rw [update_of_ne hother]

theorem settle_window {key : Key} {handle : Handle} {cost : ℤ}
    (hwindow : log.window key = windowOf stored) (hnodup : (stored.map Admission.handle).Nodup) :
    (log.settle key handle cost).window key = windowOf (stored.map (recost handle cost)) := by
  unfold settle
  split
  · rename_i hkey
    have hnil : stored = [] := by
      rw [window, hkey, Option.getD_none] at hwindow
      exact eq_nil_of_windowOf hwindow.symm
    rw [hwindow, hnil]
    rfl
  · rename_i held hkey
    rw [window, hkey, Option.getD_some] at hwindow
    subst hwindow
    split
    · rename_i hcost
      have hmem : handle ∉ stored.map Admission.handle := costOf_eq_none.mp hcost
      rw [map_recost_of_not_mem cost hmem, window, hkey, Option.getD_some]
    · rename_i old hcost
      unfold window
      dsimp only
      rw [update_self, Option.getD_some]
      exact windowOf_recost cost hnodup hcost

end SlidingWindowLog

/-- The instant of the last call, from `T` on. -/
def last (T : ℚ) (acts : List Act) : ℚ := acts.foldl (fun _ act => act.instant) T

/-! ### What a log stands for -/

/-- The log has drawn the book's handles, and each window shows what the book shows. -/
structure Refines (width : Key → ℚ) (T : ℚ) (log : SlidingWindowLog) (book : Book) : Prop where
  handles : log.handles = book.handles
  windows : ∀ key, ∃ stored, Tracks (width key) T log.widestWindow log.handles (log.window key)
    stored (book.entries key)

namespace Refines

theorem empty : Refines width T {} {} := ⟨rfl, fun _ => ⟨[], .empty⟩⟩

theorem mono (h : Refines width T log book) (hT : T ≤ now) : Refines width now log book :=
  ⟨h.handles, fun key => (h.windows key).imp fun _ ht => ht.mono hT le_rfl le_rfl⟩

theorem cleanup (h : Refines width T log book) (hT : T ≤ now) :
    Refines width now (log.cleanup (now - log.widestWindow)) book := by
  refine ⟨h.handles, fun key => ?_⟩
  obtain ⟨stored, ht⟩ := h.windows key
  unfold SlidingWindowLog.window at ht
  unfold SlidingWindowLog.window SlidingWindowLog.cleanup
  dsimp only
  cases hkey : log.requests key with
  | none =>
    rw [hkey] at ht
    exact ⟨stored, ht.mono hT le_rfl le_rfl⟩
  | some window =>
    rw [hkey] at ht
    obtain rfl : window = windowOf stored := ht.holds
    rw [Option.filter_some]
    split
    · exact ⟨stored, ht.mono hT le_rfl le_rfl⟩
    · rename_i hstale
      refine ⟨[], ht.forget hT fun e he => ?_⟩
      obtain ⟨before, newest, rfl⟩ := (eq_nil_or_concat' stored).resolve_left
        (ne_nil_of_mem he)
      have hnewest : newest.time ≤ now - log.widestWindow := by
        simpa [windowOf] using hstale
      have hle : e.time ≤ newest.time := by
        rcases mem_append.mp he with hbefore | hlast
        · exact (pairwise_append.mp ht.sorted).2.2 e hbefore newest mem_cons_self
        · rw [mem_singleton.mp hlast]
      have hwide := ht.wide (ne_nil_of_mem he)
      unfold leaves
      linarith

theorem noted (h : Refines width T log book) (hT : T ≤ now) (key : Key) :
    Refines width now (log.noted now (width key)) book
      ∧ width key ≤ (log.noted now (width key)).widestWindow := by
  have hwidened : Refines width T
      { log with widestWindow := max log.widestWindow (width key) } book :=
    ⟨h.handles, fun k => (h.windows k).imp fun _ ht => ht.mono le_rfl (le_max_left _ _) le_rfl⟩
  unfold SlidingWindowLog.noted
  dsimp only
  split
  · have hcleaned := hwidened.cleanup hT
    exact ⟨⟨hcleaned.handles, hcleaned.windows⟩, le_max_right _ _⟩
  · have hkept := hwidened.mono hT
    exact ⟨⟨hkept.handles, hkept.windows⟩, le_max_right _ _⟩

theorem put (h : Refines width T log book) {key : Key} {drawn : ℕ} (hdrawn : log.handles ≤ drawn)
    (ht : Tracks (width key) T log.widestWindow drawn window stored all) : Refines width T
      { log with
        requests := update log.requests key (some window)
        handles := drawn }
      { entries := update book.entries key all, handles := drawn } := by
  refine ⟨rfl, fun k => ?_⟩
  unfold SlidingWindowLog.window
  dsimp only
  by_cases hk : k = key
  · subst hk
    rw [update_self, update_self]
    exact ⟨stored, ht⟩
  · rw [update_of_ne hk, update_of_ne hk]
    exact (h.windows k).imp fun _ hother => hother.mono le_rfl le_rfl hdrawn

theorem keep (h : Refines width T log book) {key : Key}
    (ht : Tracks (width key) T log.widestWindow log.handles window stored (book.entries key)) :
    Refines width T { log with requests := update log.requests key (some window) }
      book := by
  have hput := h.put le_rfl ht
  rw [update_eq_self] at hput
  exact ⟨h.handles, hput.windows⟩

theorem hit (h : Refines width T log book) (hT : T ≤ now) (key : Key) (limit cost : ℤ) :
    ∃ log', log.hit now key limit (width key) cost
        = some ((book.hit width now key limit cost).1, log')
      ∧ Refines width now log' (book.hit width now key limit cost).2
      ∧ (log'.window key).total = (book.hit width now key limit cost).1.count := by
  obtain ⟨hnoted, hwide⟩ := h.noted hT key
  obtain ⟨stored, ht⟩ := hnoted.windows key
  obtain ⟨hexpire, hcurrent⟩ := ht.expire le_rfl
  have hpush := windowOf_push now cost hcurrent.not_mem_new
  unfold SlidingWindowLog.hit Book.hit
  dsimp only
  rw [hexpire, Option.map_some]
  by_cases hfits : spent (book.current width now key) + cost ≤ limit
  · have hfits' : (windowOf (live (leaves (width key)) now (book.entries key))).total + cost
        ≤ limit := hfits
    have hentries := congrArg Window.entries hpush
    dsimp only at hentries
    rw [if_pos hfits, if_pos hfits', hpush, hentries, resetAfter_windowOf, hnoted.handles]
    have hput := hnoted.put (Nat.le_succ _) (hcurrent.push hwide cost)
    rw [hnoted.handles] at hput
    refine ⟨_, rfl, hput, ?_⟩
    simp [SlidingWindowLog.window, windowOf, spent, Book.current]
  · have hfull : ¬ (windowOf (live (leaves (width key)) now (book.entries key))).total + cost
        ≤ limit := hfits
    rw [if_neg hfits, if_neg hfull, resetAfter_windowOf]
    refine ⟨_, rfl, hnoted.keep hcurrent, ?_⟩
    simp [SlidingWindowLog.window, windowOf, Book.current]

theorem peek (h : Refines width T log book) (hT : T ≤ now) (key : Key) :
    ∃ log', log.peek now key (width key) = some (book.peek width now key, log')
      ∧ Refines width now log' book
      ∧ (log'.window key).total = (book.peek width now key).count := by
  obtain ⟨stored, ht⟩ := h.windows key
  obtain ⟨hexpire, hcurrent⟩ := ht.expire hT
  unfold SlidingWindowLog.peek
  cases hkey : log.requests key with
  | none =>
    have hwindow : log.window key = {} := by rw [SlidingWindowLog.window, hkey, Option.getD_none]
    have hnil : live (leaves (width key)) now (book.entries key) = [] := by
      rw [← ht.shows now hT, eq_nil_of_windowOf (ht.holds.symm.trans hwindow), live_nil]
    refine ⟨log, ?_, h.mono hT, ?_⟩
    · simp [Book.peek, Book.current, hnil, spent, waits]
    · simp [Book.peek, Book.current, hnil, spent, hwindow]
  | some window =>
    have hwindow : log.window key = window := by
      rw [SlidingWindowLog.window, hkey, Option.getD_some]
    rw [hwindow] at hexpire
    dsimp only
    rw [hexpire, Option.map_some, resetAfter_windowOf]
    refine ⟨_, rfl, (h.mono hT).keep hcurrent, ?_⟩
    simp [SlidingWindowLog.window, windowOf, Book.peek, Book.current]

theorem settle (h : Refines width T log book) (key : Key) (handle : Handle) (cost : ℤ) :
    Refines width T (log.settle key handle cost) (book.settle key handle cost) := by
  have hframe := log.settle_frame key handle cost
  refine ⟨hframe.1.trans h.handles, fun k => ?_⟩
  rw [hframe.1, hframe.2.1]
  obtain ⟨stored, ht⟩ := h.windows k
  unfold Book.settle
  dsimp only
  by_cases hk : k = key
  · subst hk
    rw [update_self, SlidingWindowLog.settle_window ht.holds ht.nodup]
    exact ⟨_, ht.settle handle cost⟩
  · rw [update_of_ne hk, hframe.2.2 k hk]
    exact ⟨stored, ht⟩

theorem settle_left (h : Refines width T log book) (hT : T ≤ now) {key : Key} {handle : Handle}
    (cost : ℤ) (hleft : handle ∉ (book.current width now key).map Admission.handle) :
    Refines width now (log.settle key handle cost) book := by
  have hframe := log.settle_frame key handle cost
  refine ⟨hframe.1.trans h.handles, fun k => ?_⟩
  rw [hframe.1, hframe.2.1]
  obtain ⟨stored, ht⟩ := h.windows k
  by_cases hk : k = key
  · subst hk
    rw [SlidingWindowLog.settle_window ht.holds ht.nodup]
    exact ⟨_, ht.settle_left hT cost hleft⟩
  · rw [hframe.2.2 k hk]
    exact ⟨stored, ht.mono hT le_rfl le_rfl⟩

theorem step (h : Refines width T log book) {act : Act} (hT : T ≤ act.instant) :
    ∃ log', log.step width act = some ((book.step width act).1, log')
      ∧ Refines width act.instant log' (book.step width act).2 := by
  cases act with
  | hit now key limit cost =>
    have hnow : T ≤ now := hT
    obtain ⟨log', hhit, hafter, -⟩ := h.hit hnow key limit cost
    exact ⟨log', by rw [SlidingWindowLog.step, hhit]; rfl, hafter⟩
  | peek now key =>
    have hnow : T ≤ now := hT
    obtain ⟨log', hpeek, hafter, -⟩ := h.peek hnow key
    exact ⟨log', by rw [SlidingWindowLog.step, hpeek]; rfl, hafter⟩
  | settle now key handle cost => exact ⟨_, rfl, (h.settle key handle cost).mono hT⟩
  | cleanup now => exact ⟨_, rfl, h.cleanup hT⟩

theorem run {acts : List Act} (h : Refines width T log book) (hordered : Ordered T acts) :
    ∃ log', log.run width acts = some ((book.run width acts).1, log')
      ∧ Refines width (last T acts) log' (book.run width acts).2 := by
  induction acts generalizing T log book with
  | nil => exact ⟨log, rfl, h⟩
  | cons act rest ih =>
    obtain ⟨log₁, hstep, hafter⟩ := h.step hordered.1
    obtain ⟨log₂, hrest, hlast⟩ := ih hafter hordered.2
    refine ⟨log₂, ?_, hlast⟩
    rw [SlidingWindowLog.run, hstep, Option.bind_some, hrest]
    rfl

theorem answers_eq {log' : SlidingWindowLog} (h : Refines width T log book)
    (h' : Refines width T log' book) {later : List Act} (hordered : Ordered T later) :
    log'.answers width later = log.answers width later := by
  obtain ⟨after, hrun, -⟩ := h.run hordered
  obtain ⟨after', hrun', -⟩ := h'.run hordered
  rw [SlidingWindowLog.answers, SlidingWindowLog.answers, hrun, hrun']
  rfl

end Refines

/-! ### Exactness -/

/-- What holds of a log, and of the book of what it admitted, after calls up to `T`. -/
structure Exact (width : Key → ℚ) (T : ℚ) (log : SlidingWindowLog) (book : Book) : Prop where
  /-- The total is the costs of the entries stored: what is live, and what left and is not pruned. -/
  stored : ∀ key, ∃ stored, log.window key = windowOf stored
    ∧ SameFrom (leaves (width key)) T stored (book.entries key)
    ∧ (log.window key).total = spent (book.current width T key)
      + spent (stored.filter fun e => leaves (width key) e ≤ T)
  /-- A hit is admitted exactly when what is live and its own cost fit the limit, and leaves the
  total of what is live and counted. -/
  hit : ∀ now, T ≤ now → ∀ key limit cost, ∃ answer after,
    log.hit now key limit (width key) cost = some (answer, after)
      ∧ (answer.allowed ↔ spent (book.current width now key) + cost ≤ limit)
      ∧ answer.count = spent (book.current width now key) + (if answer.allowed then cost else 0)
      ∧ (after.window key).total = answer.count
  peek : ∀ now, T ≤ now → ∀ key, ∃ answer after,
    log.peek now key (width key) = some (answer, after)
      ∧ answer.count = spent (book.current width now key)
      ∧ (after.window key).total = answer.count
  /-- A settle changes its entry's cost, and no other entry. -/
  settle : ∀ key handle cost,
    (∃ stored, log.window key = windowOf stored
      ∧ (log.settle key handle cost).window key = windowOf (stored.map (recost handle cost)))
    ∧ ∀ other, other ≠ key → (log.settle key handle cost).window other = log.window other
  /-- A settle of what is not live changes no later answer. -/
  settle_left : ∀ now, T ≤ now → ∀ key handle cost,
    handle ∉ (book.current width now key).map Admission.handle →
      ∀ later, Ordered now later →
        (log.settle key handle cost).answers width later = log.answers width later
  /-- Nor does a cleanup. -/
  cleanup : ∀ now, T ≤ now → ∀ later, Ordered now later →
    (log.cleanup (now - log.widestWindow)).answers width later = log.answers width later

theorem Refines.exact (h : Refines width T log book) : Exact width T log book where
  stored := by
    intro key
    obtain ⟨stored, ht⟩ := h.windows key
    refine ⟨stored, ht.holds, ht.shows, ?_⟩
    have hcurrent : book.current width T key = live (leaves (width key)) T stored :=
      (ht.shows T le_rfl).symm
    rw [ht.holds, hcurrent]
    exact (sum_live_add (leaves (width key)) T stored Admission.cost).symm
  hit := by
    intro now hT key limit cost
    obtain ⟨after, hhit, -, htotal⟩ := h.hit hT key limit cost
    refine ⟨_, after, hhit, ?_, ?_, htotal⟩
    all_goals
      unfold Book.hit
      dsimp only
      split
    · rename_i hfits
      simp [hfits]
    · rename_i hfull
      simp [hfull]
    · rfl
    · exact (add_zero _).symm
  peek := by
    intro now hT key
    obtain ⟨after, hpeek, -, htotal⟩ := h.peek hT key
    exact ⟨_, after, hpeek, rfl, htotal⟩
  settle := by
    intro key handle cost
    obtain ⟨stored, ht⟩ := h.windows key
    exact ⟨⟨stored, ht.holds, SlidingWindowLog.settle_window ht.holds ht.nodup⟩,
      (log.settle_frame key handle cost).2.2⟩
  settle_left := fun now hT _ _ cost hleft _ hordered =>
    (h.mono hT).answers_eq (h.settle_left hT cost hleft) hordered
  cleanup := fun now hT _ hordered => (h.mono hT).answers_eq (h.cleanup hT) hordered

/-- **The sliding window is exact.**  Calls in the order of their instants answer as the book of
every admission does, and the log they leave is exact. -/
theorem sliding_window_exact (width : Key → ℚ) (start : ℚ) (acts : List Act)
    (hordered : Ordered start acts) :
    ∃ log, SlidingWindowLog.run width {} acts = some ((Book.run width {} acts).1, log)
      ∧ Exact width (last start acts) log (Book.run width {} acts).2 := by
  have hempty : Refines width start {} {} := Refines.empty
  obtain ⟨log, hrun, hlog⟩ := hempty.run hordered
  exact ⟨log, hrun, hlog.exact⟩

/-- It is of a request admitted, and settled when it has left. -/
theorem sliding_window_settled_late :
    ∃ log, SlidingWindowLog.run (fun _ => 60) {} [.hit 0 "k" 10 1, .settle 60 "k" (str 0) 5]
        = some ((Book.run (fun _ => 60) {} [.hit 0 "k" 10 1, .settle 60 "k" (str 0) 5]).1, log)
      ∧ Exact (fun _ => 60) 60 log
          (Book.run (fun _ => 60) {} [.hit 0 "k" 10 1, .settle 60 "k" (str 0) 5]).2 :=
  sliding_window_exact (fun _ => 60) 0 [.hit 0 "k" 10 1, .settle 60 "k" (str 0) 5]
    ⟨le_rfl, by norm_num [Act.instant], trivial⟩

/-- A settle reaches an entry that has left and is not pruned: it takes the total from 1 to 5, where
nothing is live. -/
theorem total_beyond_live :
    let total := fun acts => (SlidingWindowLog.run (fun _ => 60) {} acts).map fun done =>
      (done.2.window "k").total
    let acts : List Act := [.hit 0 "k" 10 1, .settle 60 "k" (str 0) 5]
    Ordered 0 acts ∧ total [.hit 0 "k" 10 1] = some 1 ∧ total acts = some 5
      ∧ spent ((Book.run (fun _ => 60) {} acts).2.current (fun _ => 60) 60 "k") = 0 := by
  refine ⟨⟨le_rfl, by norm_num [Act.instant], trivial⟩, ?_, ?_, ?_⟩
  · decide +kernel
  · decide +kernel
  · decide +kernel

/-! ### The limit -/

/-- Hits of a key are under one limit and count for no less than nothing, and no settle has an
entry of it count for more. -/
def WithinLimit (width : Key → ℚ) (key : Key) (limit : ℤ) : Book → List Act → Prop
  | _, [] => True
  | book, act :: rest =>
    (match act with
      | .hit _ hit limit' cost => hit = key → limit' ≤ limit ∧ 0 ≤ cost
      | .settle _ settled handle cost => settled = key → 0 ≤ cost ∧
          ∀ e ∈ book.entries key, e.handle = handle → cost ≤ e.cost
      | _ => True) ∧ WithinLimit width key limit (book.step width act).2 rest

/-- The entries admitted in the window that ends at an instant. -/
def within (w t : ℚ) (es : List Admission) : List Admission :=
  es.filter fun e => t - w < e.time ∧ e.time ≤ t

/-- No window holds more than the limit. -/
structure Limited (w : ℚ) (limit : ℤ) (es : List Admission) : Prop where
  costs : ∀ e ∈ es, 0 ≤ e.cost
  windows : ∀ t, spent (within w t es) ≤ limit

namespace Limited
variable {limit cost : ℤ}

theorem push (h : Limited w limit es) (hcost : 0 ≤ cost)
    (hfits : spent (live (leaves w) now es) + cost ≤ limit) (handle : Handle) :
    Limited w limit (es ++ [⟨now, handle, cost⟩]) := by
  refine ⟨fun e he => ?_, fun t => ?_⟩
  · rcases List.mem_append.mp he with he | he
    · exact h.costs e he
    · exact List.mem_singleton.mp he ▸ hcost
  · by_cases hin : t - w < now ∧ now ≤ t
    · -- what the window holds beside the new entry is live now
      have hsub : (within w t es).Sublist (live (leaves w) now es) := by
        refine List.monotone_filter_right es fun e he => ?_
        rw [decide_eq_true_eq] at he
        exact decide_eq_true (by unfold leaves; linarith)
      have hle : spent (within w t es) ≤ spent (live (leaves w) now es) := by
        refine (hsub.map Admission.cost).sum_le_sum fun c hc => ?_
        obtain ⟨e, he, rfl⟩ := List.mem_map.mp hc
        exact h.costs e (live_sublist.subset he)
      simp only [within, List.filter_append, spent, List.map_append, List.sum_append] at hle ⊢
      simpa [hin] using (add_le_add_left hle cost).trans hfits
    · have hout : within w t [⟨now, handle, cost⟩] = [] :=
        List.filter_eq_nil_iff.mpr (by simpa using hin)
      rw [within, List.filter_append, ← within, ← within, hout, List.append_nil]
      exact h.windows t

theorem settle (h : Limited w limit es) (hcost : 0 ≤ cost)
    (hless : ∀ e ∈ es, e.handle = handle → cost ≤ e.cost) :
    Limited w limit (es.map (recost handle cost)) := by
  refine ⟨fun e he => ?_, fun t => ?_⟩
  · obtain ⟨old, hold, rfl⟩ := List.mem_map.mp he
    unfold recost
    split
    · exact hcost
    · exact h.costs old hold
  · refine le_trans ?_ (h.windows t)
    simp only [within, spent, List.filter_map, List.map_map, Function.comp_def, time_recost]
    refine List.sum_le_sum fun e he => ?_
    rw [recost]
    split
    · rename_i hhandle
      exact hless e (List.mem_of_mem_filter he) hhandle
    · exact le_rfl

theorem run {key : Key} {acts : List Act} (hacts : WithinLimit width key limit book acts)
    (h : Limited (width key) limit (book.entries key)) :
    Limited (width key) limit ((book.run width acts).2.entries key) := by
  induction acts generalizing book with
  | nil => exact h
  | cons act rest ih =>
    refine ih hacts.2 ?_
    cases act with
    | peek now other => exact h
    | cleanup now => exact h
    | hit now hit limit' cost =>
      simp only [Book.step, Book.hit]
      split
      · rename_i hfits
        dsimp only
        by_cases hkey : hit = key
        · subst hkey
          obtain ⟨hlimit, hcost⟩ := hacts.1 rfl
          rw [Function.update_self]
          exact h.push hcost (hfits.trans hlimit) _
        · rwa [Function.update_of_ne (Ne.symm hkey)]
      · exact h
    | settle now settled handle cost =>
      simp only [Book.step, Book.settle]
      by_cases hkey : settled = key
      · subst hkey
        obtain ⟨hcost, hless⟩ := hacts.1 rfl
        rw [Function.update_self]
        exact h.settle hcost hless
      · rwa [Function.update_of_ne (Ne.symm hkey)]

end Limited

/-- **No window holds more than the limit.**  Wherever a window of the key's width is put, and
whatever calls came between, what the log admitted in it counts for no more than the limit. -/
theorem limit_in_every_window (width : Key → ℚ) (key : Key) (limit : ℤ) (hlimit : 0 ≤ limit)
    (start : ℚ) (acts : List Act) (hordered : Ordered start acts)
    (hacts : WithinLimit width key limit {} acts) :
    ∃ log, SlidingWindowLog.run width {} acts = some ((Book.run width {} acts).1, log)
      ∧ ∀ t, spent (within (width key) t ((Book.run width {} acts).2.entries key)) ≤ limit := by
  have hempty : Refines width start {} {} := Refines.empty
  obtain ⟨log, hrun, -⟩ := hempty.run hordered
  have hnone : Limited (width key) limit (({} : Book).entries key) :=
    ⟨fun _ he => (nomatch he), fun _ => hlimit⟩
  exact ⟨log, hrun, (hnone.run hacts).windows⟩

theorem limit_in_every_window_two :
    let acts : List Act := [.hit 0 "k" 10 7, .settle 1 "k" (str 0) 2, .hit 2 "k" 10 8]
    ∃ log, SlidingWindowLog.run (fun _ => 60) {} acts
        = some ((Book.run (fun _ => 60) {} acts).1, log)
      ∧ ∀ t, spent (within 60 t ((Book.run (fun _ => 60) {} acts).2.entries "k")) ≤ 10 := by
  refine limit_in_every_window (fun _ => 60) "k" 10 (by norm_num) 0 _
    ⟨le_rfl, by norm_num [Act.instant], by norm_num [Act.instant], trivial⟩
    ⟨fun _ => ⟨le_rfl, by norm_num⟩, fun _ => ⟨by norm_num, ?_⟩, fun _ => ⟨le_rfl, by norm_num⟩,
      trivial⟩
  simp [Book.step, Book.hit, Book.current, spent]

end Otari.RateLimit.Sliding
