import Otari.RateLimit.Ledger

/-!
# Rate limit — In process — the in-process store answers as the ledger

`InMemoryRateLimitStore` drops entries from the front of a deque, keys at a cleanup and slots at an
acquire, and keeps a running total.  `MemoryMatches` says what it has kept of the ledger; every call
preserves it, and the answers are the ledger's (`memory_step`).
-/

namespace Otari.RateLimit
open Expiry Function List

/-! ### Tables of what was handed out -/

def name (handed : ℕ → Option Handle) (i : ℕ) : Handle := (handed i).getD []

/-- Both sessions handed something out at the same calls, the store never the same thing twice. -/
structure SameTables (own : ℕ → Option ℕ) (handed : ℕ → Option Handle) : Prop where
  own_eq : ∀ i, own i = (handed i).map fun _ => i
  inj : ∀ i j h, handed i = some h → handed j = some h → i = j

variable {own : ℕ → Option ℕ} {handed : ℕ → Option Handle}

theorem SameTables.start : SameTables (fun _ => none) fun _ => none :=
  ⟨fun _ => rfl, fun _ _ _ h => by cases h⟩

theorem SameTables.name_eq (h : SameTables own handed) {i : ℕ} (hi : own i = some i) :
    handed i = some (name handed i) := by
  rw [h.own_eq] at hi
  cases hh : handed i with
  | none => rw [hh] at hi; cases hi
  | some handle => rw [name, hh]; rfl

theorem SameTables.name_inj (h : SameTables own handed) {i j : ℕ} (hi : own i = some i)
    (hj : own j = some j) : name handed i = name handed j ↔ i = j := by
  refine ⟨fun heq => ?_, fun heq => heq ▸ rfl⟩
  exact h.inj i j _ (h.name_eq hi) (heq ▸ h.name_eq hj)

theorem SameTables.update (h : SameTables own handed) (n : ℕ) (got : Option Handle)
    (hnew : ∀ handle, got = some handle → ∀ i, i ≠ n → handed i ≠ some handle) :
    SameTables (update own n (got.map fun _ => n)) (update handed n got) := by
  refine ⟨fun i => ?_, fun i j handle hi hj => ?_⟩
  · by_cases hin : i = n
    · subst hin
      rw [update_self, update_self]
    · rw [update_of_ne hin, update_of_ne hin]
      exact h.own_eq i
  · by_cases hin : i = n <;> by_cases hjn : j = n
    · exact hin.trans hjn.symm
    · subst hin
      rw [update_self] at hi
      rw [update_of_ne hjn] at hj
      exact absurd hj (hnew handle hi j hjn)
    · subst hjn
      rw [update_self] at hj
      rw [update_of_ne hin] at hi
      exact absurd hi (hnew handle hj i hin)
    · rw [update_of_ne hin] at hi
      rw [update_of_ne hjn] at hj
      exact h.inj i j handle hi hj

variable {got : Option Handle}

theorem name_update {n i : ℕ} (hi : i ≠ n) : name (update handed n got) i = name handed i := by
  rw [name, name, update_of_ne hi]

variable {handle : Handle}

@[simp] theorem name_update_self {n : ℕ} : name (update handed n (some handle)) n = handle := by
  rw [name, update_self]
  rfl

/-- An entry under the handle its call was handed. -/
def rename (handed : ℕ → Option Handle) (e : Entry ℕ) : Entry Handle :=
  ⟨e.time, name handed e.handle, e.cost⟩

variable {es : List (Entry ℕ)}

theorem map_rename_update {n : ℕ} (h : ∀ e ∈ es, e.handle ≠ n) :
    es.map (rename (update handed n got)) = es.map (rename handed) := by
  refine map_congr_left fun e he => ?_
  rw [rename, rename, name_update (h e he)]

variable {η : Type}

@[simp] theorem spent_nil : spent ([] : List (Entry η)) = 0 := rfl

@[simp] theorem spent_cons (e : Entry η) (es : List (Entry η)) :
    spent (e :: es) = e.cost + spent es := by
  rw [spent, spent, map_cons, sum_cons]

@[simp] theorem spent_append (es fs : List (Entry η)) : spent (es ++ fs) = spent es + spent fs := by
  rw [spent, spent, spent, map_append, sum_append]

theorem spent_recost [DecidableEq η] {es : List (Entry η)} {handle : η} (cost : ℤ)
    (hnodup : (es.map Entry.handle).Nodup) {e : Entry η} (he : e ∈ es)
    (hhandle : e.handle = handle) :
    spent (es.map (recost handle cost)) = spent es + (cost - e.cost) := by
  induction es with
  | nil => cases he
  | cons x es ih =>
    rw [map_cons, nodup_cons] at hnodup
    rcases mem_cons.mp he with rfl | hmem
    · have hrest : es.map (recost handle cost) = es := by
        refine (map_congr_left fun y hy => ?_).trans (map_id es)
        refine if_neg fun hyh => hnodup.1 ?_
        rw [hhandle, ← hyh]
        exact mem_map_of_mem hy
      rw [map_cons, spent_cons, spent_cons, hrest, recost, if_pos hhandle]
      ring
    · have hx : x.handle ≠ handle := by
        intro hxh
        rw [hxh, ← hhandle] at hnodup
        exact hnodup.1 (mem_map_of_mem hmem)
      rw [map_cons, spent_cons, spent_cons, ih hnodup.2 hmem, recost, if_neg hx]
      ring

variable {cost : ℤ}

theorem recost_eq_self [DecidableEq η] {es : List (Entry η)} {handle : η}
    (h : ∀ e ∈ es, e.handle ≠ handle) : es.map (recost handle cost) = es :=
  (map_congr_left fun e he => if_neg (h e he)).trans (map_id es)

/-! ### The window -/

theorem le_sub_iff_leaves {w : ℚ} {now : ℤ} (e : Entry η) :
    (e.time : ℚ) ≤ now - w ↔ leaves w e ≤ now := by
  rw [leaves, ← le_sub_iff_add_le', Int.ceil_le, Int.cast_sub, le_sub_comm]

variable {uuid : ℕ → Handle} {width : Key → ℚ} {T now : ℤ} {w : ℚ}
  {s : Session Ledger ℕ} {m : Session InMemoryRateLimitStore Handle}

theorem expire_eq {kept : List (Entry ℕ)} (hsorted : kept.Pairwise fun a b => a.time ≤ b.time) :
    Window.expire exactly ((now : ℚ) - w) (kept.map (rename handed)) (spent kept)
      = ⟨(live (leaves w) now kept).map (rename handed), spent (live (leaves w) now kept)⟩ := by
  induction kept with
  | nil => rfl
  | cons e kept ih =>
    obtain ⟨hfirst, hsorted'⟩ := pairwise_cons.mp hsorted
    rw [map_cons, Window.expire, exactly_seconds]
    by_cases hle : leaves w e ≤ now
    · have hlive : live (leaves w) now (e :: kept) = live (leaves w) now kept := by
        rw [live, filter_cons, if_neg (by simpa using hle)]
        rfl
      rw [if_pos ((le_sub_iff_leaves (rename handed e)).mpr hle), hlive, ← ih hsorted',
        spent_cons]
      exact congrArg _ (add_sub_cancel_left _ _)
    · have hlive : live (leaves w) now (e :: kept) = e :: kept := by
        refine filter_eq_self.mpr fun x hx => decide_eq_true ?_
        refine (not_le.mp hle).trans_le ?_
        rcases mem_cons.mp hx with rfl | hx
        · exact le_refl _
        · exact add_le_add_left (hfirst x hx) _
      rw [if_neg fun h => hle ((le_sub_iff_leaves (rename handed e)).mp h), hlive]
      rfl

/-- The key's window has kept, of these entries, all that can still count. -/
def WindowAt (handed : ℕ → Option Handle) (w : ℚ) (T : ℤ) (es : List (Entry ℕ))
    (window : Option Window) : Prop :=
  ∃ kept, Keeps (leaves w) T es kept
    ∧ window.getD ⟨[], 0⟩ = ⟨kept.map (rename handed), spent kept⟩

theorem WindowAt.mono {window : Option Window}
    (h : WindowAt handed w T es window) (hT : T ≤ now) : WindowAt handed w now es window := by
  obtain ⟨kept, hkept, hwindow⟩ := h
  exact ⟨kept, hkept.mono hT, hwindow⟩

theorem WindowAt.cleanup {requests : Key → Option Window} {key : Key}
    {widest : ℚ} (h : WindowAt handed w T es (requests key)) (hT : T ≤ now)
    (hsorted : es.Pairwise fun a b => a.time ≤ b.time)
    (hwidest : ∀ window, requests key = some window → w ≤ widest) :
    WindowAt handed w now es (SlidingWindowLog.cleanup exactly (now - widest) requests key) := by
  obtain ⟨kept, hkept, hwindow⟩ := h
  cases hreq : requests key with
  | none =>
    rw [hreq] at hwindow
    rw [SlidingWindowLog.cleanup, hreq]
    exact ⟨kept, hkept.mono hT, hwindow⟩
  | some window =>
    rw [hreq, Option.getD_some] at hwindow
    rw [SlidingWindowLog.cleanup, hreq, Option.filter_some]
    split_ifs with hlast
    · exact ⟨kept, hkept.mono hT, hwindow⟩
    · refine ⟨[], hkept.nil hT fun e he => ?_, rfl⟩
      have hne : kept ≠ [] := ne_nil_of_mem he
      have hle : e.time ≤ (kept.getLast hne).time :=
        (hsorted.sublist hkept.sub).rel_getLast_of_rel_getLast_getLast he (le_refl _)
      rw [hwindow, List.getLast?_map, List.getLast?_eq_getLast_of_ne_nil hne] at hlast
      have hlast : ((kept.getLast hne).time : ℚ) ≤ now - widest :=
        not_lt.mp fun hlt => hlast (decide_eq_true hlt)
      rw [← le_sub_iff_leaves]
      have hw := hwidest window hreq
      have hcast : (e.time : ℚ) ≤ ((kept.getLast hne).time : ℚ) := Int.cast_le.mpr hle
      linarith

/-! ### The slots -/

/-- A lease, and the whole millisecond it runs out at. -/
def Lease.whole (l : Lease) : Handle × ℤ := (l.id, l.granted + ⌈l.length⌉)

theorem Lease.over_iff (l : Lease) : l.over exactly now ↔ l.whole.2 ≤ now := by
  rw [Lease.over, decide_eq_true_iff, Lease.expiresAt, Lease.whole, ← Int.ceil_intCast_add,
    Int.ceil_le]
  rfl

/-- A slot under the lease its call was handed. -/
def leased (handed : ℕ → Option Handle) (slot : Slot) : Handle × ℤ :=
  (name handed slot.call, slot.expires)

/-- The key has kept, of these slots, all that can still count. -/
def SlotsAt (handed : ℕ → Option Handle) (T : ℤ) (slots : List Slot)
    (held : Option (List Lease)) : Prop :=
  ∃ kept, Keeps Slot.expires T slots kept
    ∧ (held.getD []).map Lease.whole = kept.map (leased handed)

variable {slots : List Slot} {held : Option (List Lease)}

theorem SlotsAt.mono
    (h : SlotsAt handed T slots held) (hT : T ≤ now) : SlotsAt handed now slots held := by
  obtain ⟨kept, hkept, hheld⟩ := h
  exact ⟨kept, hkept.mono hT, hheld⟩

theorem map_leased_update {n : ℕ} (h : ∀ slot ∈ slots, slot.call ≠ n) :
    slots.map (leased (update handed n got)) = slots.map (leased handed) := by
  refine map_congr_left fun slot hslot => ?_
  rw [leased, leased, name_update (h slot hslot)]

theorem SlotsAt.current (h : SlotsAt handed now slots held) :
    ((held.getD []).filter fun l => !l.over exactly now).map Lease.whole
      = (live Slot.expires now slots).map (leased handed) := by
  obtain ⟨kept, hkept, hheld⟩ := h
  have hfilter := congrArg (List.filter fun l => now < l.2) hheld
  rw [filter_map, filter_map] at hfilter
  rw [← hkept.same now (le_refl _)]
  refine (congrArg _ (filter_congr fun l _ => ?_)).trans hfilter
  rw [comp_apply, Bool.eq_iff_iff, Bool.not_eq_true', ← Bool.not_eq_true, l.over_iff, not_le,
    decide_eq_true_iff]

theorem SlotsAt.cleanup (h : SlotsAt handed now slots held) : SlotsAt handed now slots
      (held.filter fun slots => !slots.all (Lease.over exactly now)) := by
  cases held with
  | none => exact h
  | some ls =>
    rw [Option.filter_some]
    split_ifs with hall
    · exact h
    · obtain ⟨kept, hkept, hheld⟩ := h
      refine ⟨[], hkept.nil (le_refl _) fun slot hslot => ?_, rfl⟩
      have hmem : leased handed slot ∈ ls.map Lease.whole := by
        rw [Option.getD_some] at hheld
        rw [hheld]
        exact mem_map_of_mem hslot
      obtain ⟨l, hl, hleased⟩ := mem_map.mp hmem
      rw [Bool.not_eq_true, Bool.not_eq_false', all_eq_true] at hall
      have hle : l.whole.2 ≤ now := l.over_iff.mp (hall l hl)
      have hexpires : l.whole.2 = slot.expires := (Prod.ext_iff.mp hleased).2
      exact hexpires ▸ hle

/-! ### The calls -/

/-- What the in-process store has kept of the ledger after calls up to `T`. -/
structure MemoryMatches (uuid : ℕ → Handle) (width : Key → ℚ) (T : ℤ) (s : Session Ledger ℕ)
    (m : Session InMemoryRateLimitStore Handle) : Prop where
  calls : m.calls = s.calls
  handles : SameTables s.handles m.handles
  leases : SameTables s.leases m.leases
  handleOf : ∀ i h, m.handles i = some h → ∃ c < m.store.log.handles, h = str c
  leaseOf : ∀ i h, m.leases i = some h → h = uuid (2 * i + 1)
  windows : ∀ key, WindowAt m.handles (width key) T (s.store.entries key)
    (m.store.log.requests key)
  widest : ∀ key window, m.store.log.requests key = some window →
    width key ≤ m.store.log.widestWindow
  slots : ∀ key, SlotsAt m.leases T (s.store.slots key) (m.store.leases key)

theorem MemoryMatches.start : MemoryMatches uuid width T (.start .empty) (.start .empty) where
  calls := rfl
  handles := .start
  leases := .start
  handleOf _ _ h := by cases h
  leaseOf _ _ h := by cases h
  windows _ := ⟨[], .refl _ _ _, rfl⟩
  widest _ _ h := by cases h
  slots _ := ⟨[], .refl _ _ _, rfl⟩

theorem MemoryMatches.mono (h : MemoryMatches uuid width T s m) (hT : T ≤ now) :
    MemoryMatches uuid width now s m :=
  { h with
    windows := fun key => (h.windows key).mono hT
    slots := fun key => (h.slots key).mono hT }

/-- The answer, with the time to wait in whole milliseconds. -/
def Answer.wholeMs : Answer → Answer
  | .window allowed count reset => .window allowed count ⌈reset⌉
  | answer => answer

theorem ceil_resetIn (es : List (Entry ℕ)) :
    ⌈resetIn exactly now w (es.map (rename handed))⌉ = resetAfter now w es := by
  cases es with
  | nil => rfl
  | cons e es =>
    simp only [map_cons, resetIn, exactly_seconds]
    rw [resetAfter, Int.ceil_sub_intCast, Int.ceil_intCast_add]
    rfl

theorem str_inj {a b : ℕ} (h : str a = str b) : a = b := by
  have := congrArg (Nat.ofDigitChars 10 · 0) h
  simpa [str, Nat.ofDigitChars_toDigits] using this

/-- The windows as a hit finds them, after the cleanup it may make. -/
def requestsAt (d : Doubles) (log : SlidingWindowLog) (now : ℤ) (w : ℚ) : Key → Option Window :=
  if cleanupInterval ≤ log.callCount + 1 then
    SlidingWindowLog.cleanup d (d.seconds (d.seconds now - max log.widestWindow w)) log.requests
  else log.requests

theorem MemoryMatches.requestsAt (hsound : Ledger.Sound now s)
    (h : MemoryMatches uuid width now s m) (key : Key) :
    (∀ k, WindowAt m.handles (width k) now (s.store.entries k)
        (requestsAt exactly m.store.log now (width key) k))
      ∧ ∀ k window, requestsAt exactly m.store.log now (width key) k = some window →
        width k ≤ m.store.log.widestWindow := by
  unfold RateLimit.requestsAt
  split
  · refine ⟨fun k => ?_, fun k window hwindow => ?_⟩
    · refine (h.windows k).cleanup (le_refl _) (hsound.sorted k) fun window hwindow => ?_
      exact (h.widest k window hwindow).trans (le_max_left _ _)
    · exact h.widest k window (Option.filter_eq_some_iff.mp hwindow).1
  · exact ⟨h.windows, h.widest⟩

theorem MemoryMatches.hit (h : MemoryMatches uuid width now s m)
    {count callCount : ℕ} {widest : ℚ} {entries : Key → List (Entry ℕ)}
    {requests : Key → Option Window} (hgot : got = none ∧ count = m.store.log.handles
      ∨ got = some (str m.store.log.handles) ∧ count = m.store.log.handles + 1)
    (hwindows : ∀ k, WindowAt (update m.handles s.calls got) (width k) now (entries k) (requests k))
    (hwidest : ∀ k window, requests k = some window → width k ≤ widest) :
    MemoryMatches uuid width now ⟨⟨entries, s.store.slots⟩, s.calls + 1,
        update s.handles s.calls (got.map fun _ => s.calls), s.leases⟩
      ⟨⟨⟨requests, callCount, widest, count⟩, m.store.leases, m.store.acquires⟩, s.calls + 1,
        update m.handles s.calls got, m.leases⟩ := by
  refine ⟨rfl, h.handles.update _ _ ?_, h.leases, ?_, h.leaseOf, hwindows, hwidest, h.slots⟩
  · intro handle hhandle i _ hi
    rcases hgot with ⟨hnone, -⟩ | ⟨hsome, -⟩
    · rw [hnone] at hhandle
      cases hhandle
    · obtain ⟨c, hc, rfl⟩ := h.handleOf i handle hi
      rw [hsome] at hhandle
      exact hc.ne' (str_inj (Option.some.inj hhandle))
  · intro i handle (hi : update m.handles s.calls got i = some handle)
    change ∃ c < count, handle = str c
    have hle : m.store.log.handles ≤ count := by
      rcases hgot with ⟨-, hcount⟩ | ⟨-, hcount⟩ <;> omega
    by_cases hin : i = s.calls
    · subst hin
      rw [update_self] at hi
      rcases hgot with ⟨hnone, -⟩ | ⟨hsome, hcount⟩
      · rw [hnone] at hi
        cases hi
      · exact ⟨m.store.log.handles, by omega, (Option.some.inj (hsome.symm.trans hi)).symm⟩
    · rw [update_of_ne hin] at hi
      obtain ⟨c, hc, hstr⟩ := h.handleOf i handle hi
      exact ⟨c, hc.trans_le hle, hstr⟩

theorem memory_hit (hsound : Ledger.Sound now s) (h : MemoryMatches uuid width now s m)
    (key : Key) (limit cost : ℤ) :
    ((memoryStore exactly uuid).step width m (now, .hit key limit cost)).1.wholeMs
        = (ledgerStore.step width s (now, .hit key limit cost)).1
      ∧ MemoryMatches uuid width now (ledgerStore.step width s (now, .hit key limit cost)).2
        ((memoryStore exactly uuid).step width m (now, .hit key limit cost)).2 := by
  obtain ⟨hwindows, hwidest⟩ := h.requestsAt hsound key
  obtain ⟨kept, hkept, hwindow⟩ := hwindows key
  have hlive : live (leaves (width key)) now kept
      = live (leaves (width key)) now (s.store.entries key) := hkept.same now (le_refl _)
  have hexpire : Window.expire exactly (exactly.seconds (exactly.seconds now - width key))
      ((requestsAt exactly m.store.log now (width key) key).getD ⟨[], 0⟩).entries
      ((requestsAt exactly m.store.log now (width key) key).getD ⟨[], 0⟩).total
      = ⟨(live (leaves (width key)) now (s.store.entries key)).map (rename m.handles),
          spent (live (leaves (width key)) now (s.store.entries key))⟩ := by
    rw [hwindow, ← hlive]
    exact expire_eq ((hsound.sorted key).sublist hkept.sub)
  have hfresh : ∀ k, ∀ e ∈ s.store.entries k, e.handle ≠ s.calls :=
    fun k e he => hsound.fresh_handle he
  -- the new handle is no entry's yet, so naming it leaves every window as it was
  have hother : ∀ got k window, WindowAt m.handles (width k) now (s.store.entries k) window →
      WindowAt (update m.handles s.calls got) (width k) now (s.store.entries k)
        window := by
    rintro got k window ⟨kept, hkept, hwindow⟩
    refine ⟨kept, hkept, hwindow.trans ?_⟩
    rw [map_rename_update fun e he => hfresh k e (hkept.sub.subset he)]
  simp only [Store.step, memoryStore, ledgerStore, InMemoryRateLimitStore.hit,
    SlidingWindowLog.hit, Ledger.hit, RateLimitWindow.answer, h.calls]
  rw [← requestsAt, hexpire]
  -- an admitted entry joins its own window; a refused one only has it expire
  by_cases hfits : spent (live (leaves (width key)) now (s.store.entries key)) + cost ≤ limit
  · simp only [hfits, if_true]
    have hnew : (live (leaves (width key)) now (s.store.entries key)).map (rename m.handles)
          ++ [⟨now, str m.store.log.handles, cost⟩]
        = (live (leaves (width key)) now (s.store.entries key)
            ++ [(⟨now, s.calls, cost⟩ : Entry ℕ)]).map
            (rename (update m.handles s.calls (some (str m.store.log.handles)))) := by
      rw [map_append, map_rename_update fun e he => hfresh key e (live_sublist.subset he)]
      simp [rename]
    refine ⟨?_, h.hit (.inr ⟨rfl, rfl⟩) (fun k => ?_) fun k window hwindow => ?_⟩
    · rw [Answer.wholeMs, hnew, ceil_resetIn]
    · by_cases hk : k = key
      · subst hk
        rw [update_self, update_self, hnew]
        exact ⟨_, (Keeps.current _ now _).append _, by simp⟩
      · rw [update_of_ne hk, update_of_ne hk]
        exact hother _ k _ (hwindows k)
    · by_cases hk : k = key
      · subst hk
        exact le_max_right _ _
      · rw [update_of_ne hk] at hwindow
        exact (hwidest k window hwindow).trans (le_max_left _ _)
  · simp only [hfits, if_false]
    refine ⟨?_, h.hit (.inl ⟨rfl, rfl⟩) (fun k => ?_) fun k window hwindow => ?_⟩
    · rw [Answer.wholeMs, ceil_resetIn]
    · by_cases hk : k = key
      · subst hk
        rw [update_self]
        exact hother _ k _ ⟨_, Keeps.current _ now _, rfl⟩
      · rw [update_of_ne hk]
        exact hother _ k _ (hwindows k)
    · by_cases hk : k = key
      · subst hk
        exact le_max_right _ _
      · rw [update_of_ne hk] at hwindow
        exact (hwidest k window hwindow).trans (le_max_left _ _)

theorem rename_recost (h : SameTables own handed) {entry : ℕ}
    (hentry : handed entry = some handle) {e : Entry ℕ} (he : own e.handle = some e.handle) :
    rename handed (recost entry cost e) = recost handle cost (rename handed e) := by
  have hown : own entry = some entry := by rw [h.own_eq, hentry]; rfl
  have hname : name handed entry = handle := by rw [name, hentry]; rfl
  have hiff : (rename handed e).handle = handle ↔ e.handle = entry := by
    rw [← hname]
    exact h.name_inj he hown
  unfold recost
  by_cases heq : e.handle = entry
  · rw [if_pos heq, if_pos (hiff.mpr heq)]
    rfl
  · rw [if_neg heq, if_neg fun hn => heq (hiff.mp hn)]

theorem WindowAt.settle {log : SlidingWindowLog} {key : Key} {entry : ℕ}
    (htables : SameTables own handed)
    (hentry : handed entry = some handle) (hes : ∀ e ∈ es, own e.handle = some e.handle)
    (hnodup : (es.map Entry.handle).Nodup) (h : WindowAt handed w T es (log.requests key)) :
    WindowAt handed w T (es.map (recost entry cost))
      ((log.settle key handle cost).requests key) := by
  obtain ⟨kept, hkept, hwindow⟩ := h
  have hkept' := hkept.map (f := recost entry cost) fun e => leaves_recost e
  have hcomm : (kept.map (recost entry cost)).map (rename handed)
      = (kept.map (rename handed)).map (recost handle cost) := by
    rw [map_map, map_map]
    exact map_congr_left fun e he => rename_recost htables hentry (hes e (hkept.sub.subset he))
  unfold SlidingWindowLog.settle
  cases hreq : log.requests key with
  | none =>
    rw [hreq] at hwindow
    have hnil : kept = [] := map_eq_nil_iff.mp (congrArg Window.entries hwindow).symm
    subst hnil
    refine ⟨[], hkept', ?_⟩
    simp only [hreq]
    rfl
  | some window =>
    rw [hreq, Option.getD_some] at hwindow
    subst hwindow
    simp only
    cases hfind : (kept.map (rename handed)).find? fun e => e.handle = handle with
    | none =>
      have hself : kept.map (recost entry cost) = kept := by
        refine recost_eq_self fun e he heq => ?_
        have := List.find?_eq_none.mp hfind _ (mem_map_of_mem he)
        refine this (decide_eq_true ?_)
        rw [rename, heq, name, hentry]
        rfl
      rw [hself] at hkept'
      exact ⟨kept, hkept', by rw [hreq]; rfl⟩
    | some e' =>
      obtain ⟨e, he, rfl⟩ := mem_map.mp (mem_of_find?_eq_some hfind)
      have hname : name handed e.handle = handle := by
        have := List.find?_some hfind
        exact of_decide_eq_true this
      have heq : e.handle = entry := by
        have hown : own entry = some entry := by rw [htables.own_eq, hentry]; rfl
        refine (htables.name_inj (hes e (hkept.sub.subset he)) hown).mp ?_
        rw [hname, name, hentry]
        rfl
      refine ⟨_, hkept', ?_⟩
      simp only [update_self, Option.getD_some]
      rw [hcomm, spent_recost cost (hnodup.sublist (hkept.sub.map _)) he heq]
      rfl

theorem memory_settle (hsound : Ledger.Sound now s) (h : MemoryMatches uuid width now s m)
    (key : Key) (entry : ℕ) (cost : ℤ) :
    ((memoryStore exactly uuid).step width m (now, .settle key entry cost)).1.wholeMs
        = (ledgerStore.step width s (now, .settle key entry cost)).1
      ∧ MemoryMatches uuid width now (ledgerStore.step width s (now, .settle key entry cost)).2
        ((memoryStore exactly uuid).step width m (now, .settle key entry cost)).2 := by
  refine ⟨rfl, ?_⟩
  simp only [Store.step, memoryStore, ledgerStore, h.calls, h.handles.own_eq entry]
  cases hentry : m.handles entry with
  | none => exact { h with calls := rfl }
  | some handle =>
    have hlog : ((m.store.log.settle key handle cost).handles = m.store.log.handles
          ∧ (m.store.log.settle key handle cost).widestWindow = m.store.log.widestWindow)
        ∧ ∀ k window, (m.store.log.settle key handle cost).requests k = some window →
          ∃ window', m.store.log.requests k = some window' := by
      unfold SlidingWindowLog.settle
      cases hreq : m.store.log.requests key with
      | none => exact ⟨⟨rfl, rfl⟩, fun k window hw => ⟨window, hw⟩⟩
      | some window =>
        simp only
        split
        · exact ⟨⟨rfl, rfl⟩, fun k window hw => ⟨window, hw⟩⟩
        · refine ⟨⟨rfl, rfl⟩, fun k window' hw => ?_⟩
          by_cases hk : k = key
          · exact hk ▸ ⟨window, hreq⟩
          · exact ⟨window', (update_of_ne hk _ _).symm.trans hw⟩
    refine { h with calls := rfl, handleOf := ?_, windows := ?_, widest := ?_ }
    · intro i handle hi
      exact hlog.1.1.symm ▸ h.handleOf i handle hi
    · intro k
      by_cases hk : k = key
      · subst hk
        simp only [Option.map_some, Ledger.settle_self]
        exact (h.windows k).settle h.handles hentry (fun e he => (hsound.entries k e he).1)
          (hsound.nodup k)
      · have hsame : (m.store.log.settle key handle cost).requests k
            = m.store.log.requests k := by
          unfold SlidingWindowLog.settle
          split
          · rfl
          · split
            · rfl
            · exact update_of_ne hk _ _
        simp only [Option.map_some, Ledger.settle_of_ne _ hk, InMemoryRateLimitStore.settle,
          hsame]
        exact h.windows k
    · intro k window hw
      obtain ⟨window', hw'⟩ := hlog.2 k window hw
      exact (h.widest k window' hw').trans_eq hlog.1.2.symm

theorem MemoryMatches.acquire (h : MemoryMatches uuid width now s m) (got : Option Handle)
    {acquires : ℕ} {slots : Key → List Slot} {held : Key → Option (List Lease)}
    (hinj : Injective uuid) (hgot : ∀ lease, got = some lease → lease = uuid (2 * s.calls + 1))
    (hslots : ∀ k, SlotsAt (update m.leases s.calls got) now (slots k) (held k)) :
    MemoryMatches uuid width now ⟨⟨s.store.entries, slots⟩, s.calls + 1, s.handles,
        update s.leases s.calls (got.map fun _ => s.calls)⟩
      ⟨⟨m.store.log, held, acquires⟩, s.calls + 1, m.handles, update m.leases s.calls got⟩ := by
  refine ⟨rfl, h.handles, h.leases.update _ _ ?_, h.handleOf, ?_, h.windows, h.widest, hslots⟩
  · intro lease hlease i hin hi
    have heq := hinj ((h.leaseOf i lease hi).symm.trans (hgot lease hlease))
    omega
  · intro i lease (hi : update m.leases s.calls got i = some lease)
    by_cases hin : i = s.calls
    · subst hin
      rw [update_self] at hi
      exact hgot lease hi
    · rw [update_of_ne hin] at hi
      exact h.leaseOf i lease hi

theorem memory_acquire (hinj : Injective uuid) (hsound : Ledger.Sound now s)
    (h : MemoryMatches uuid width now s m) (key : Key) (limit : ℤ) (lease : ℚ) :
    ((memoryStore exactly uuid).step width m (now, .acquire key limit lease)).1.wholeMs
        = (ledgerStore.step width s (now, .acquire key limit lease)).1
      ∧ MemoryMatches uuid width now (ledgerStore.step width s (now, .acquire key limit lease)).2
        ((memoryStore exactly uuid).step width m (now, .acquire key limit lease)).2 := by
  obtain ⟨held, hheld⟩ : ∃ held : Key → Option (List Lease), held =
      if cleanupInterval ≤ m.store.acquires + 1 then
        fun k => (m.store.leases k).filter fun slots => !slots.all (Lease.over exactly now)
      else m.store.leases := ⟨_, rfl⟩
  have hslots : ∀ k, SlotsAt m.leases now (s.store.slots k) (held k) := by
    intro k
    rw [hheld]
    split
    · exact (h.slots k).cleanup
    · exact h.slots k
  have hother : ∀ got k held, SlotsAt m.leases now (s.store.slots k) held →
      SlotsAt (update m.leases s.calls got) now (s.store.slots k) held := by
    rintro got k held ⟨kept, hkept, heq⟩
    refine ⟨kept, hkept, heq.trans ?_⟩
    rw [map_leased_update fun slot hslot => hsound.fresh_slot (hkept.sub.subset hslot)]
  have hcurrent := (hslots key).current
  have hlength := congrArg List.length hcurrent
  rw [length_map, length_map] at hlength
  simp only [Store.step, memoryStore, ledgerStore, InMemoryRateLimitStore.acquire, Ledger.acquire,
    h.calls]
  rw [← hheld, hlength]
  by_cases hfull : limit ≤ (live Slot.expires now (s.store.slots key)).length
  · simp only [hfull, if_true]
    refine ⟨rfl, h.acquire none hinj (by simp) fun k => ?_⟩
    by_cases hk : k = key
    · subst hk
      rw [update_self]
      refine hother _ k _ ⟨_, Keeps.current _ now _, ?_⟩
      rw [Option.getD_some, hcurrent]
    · rw [update_of_ne hk]
      exact hother _ k _ (hslots k)
  · simp only [hfull, if_false]
    refine ⟨rfl, h.acquire (some _) hinj (fun lease h => (Option.some.inj h).symm) fun k => ?_⟩
    by_cases hk : k = key
    · subst hk
      rw [update_self, update_self]
      refine ⟨_, (Keeps.current _ now _).append _, ?_⟩
      rw [Option.getD_some, map_append, hcurrent, map_append,
        map_leased_update fun slot hslot => hsound.fresh_slot (live_sublist.subset hslot)]
      simp [leased, Lease.whole]
    · rw [update_of_ne hk, update_of_ne hk]
      exact hother _ k _ (hslots k)

theorem SlotsAt.release {slot : ℕ}
    {lease : Handle} (htables : SameTables own handed) (hlease : handed slot = some lease)
    (hslots : ∀ x ∈ slots, own x.call = some x.call) (h : SlotsAt handed T slots held) :
    SlotsAt handed T (slots.filter fun x => x.call ≠ slot)
      (held.bind fun ls => if ls.filter (fun l => l.id ≠ lease) = [] then none
        else some (ls.filter fun l => l.id ≠ lease)) := by
  obtain ⟨kept, hkept, hheld⟩ := h
  refine ⟨_, hkept.filter _, ?_⟩
  have hfilter := congrArg (List.filter fun l : Handle × ℤ => l.1 ≠ lease) hheld
  rw [filter_map, filter_map] at hfilter
  have hcalls : kept.filter ((fun l : Handle × ℤ => decide (l.1 ≠ lease)) ∘ leased handed)
      = kept.filter fun x => x.call ≠ slot := by
    refine filter_congr fun x hx => ?_
    have hown : own slot = some slot := by rw [htables.own_eq, hlease]; rfl
    have hname : name handed slot = lease := by rw [name, hlease]; rfl
    rw [comp_apply, decide_eq_decide, leased, ← hname, not_iff_not]
    exact htables.name_inj (hslots x (hkept.sub.subset hx)) hown
  rw [hcalls] at hfilter
  rw [← hfilter]
  refine congrArg _ ?_
  cases held with
  | none => rfl
  | some ls =>
    rw [Option.bind_some, Option.getD_some]
    split_ifs with hnil
    · exact hnil.symm
    · rfl

theorem memory_release (hsound : Ledger.Sound now s) (h : MemoryMatches uuid width now s m)
    (key : Key) (slot : ℕ) :
    ((memoryStore exactly uuid).step width m (now, .release key slot)).1.wholeMs
        = (ledgerStore.step width s (now, .release key slot)).1
      ∧ MemoryMatches uuid width now (ledgerStore.step width s (now, .release key slot)).2
        ((memoryStore exactly uuid).step width m (now, .release key slot)).2 := by
  refine ⟨rfl, ?_⟩
  simp only [Store.step, memoryStore, ledgerStore, h.calls, h.leases.own_eq slot]
  cases hlease : m.leases slot with
  | none => exact { h with calls := rfl }
  | some lease =>
    have hrest : (m.store.release key lease).log = m.store.log := by
      unfold InMemoryRateLimitStore.release
      split <;> rfl
    have hslots : ∀ k, SlotsAt m.leases now ((s.store.release key slot).slots k)
        ((m.store.release key lease).leases k) := by
      intro k
      by_cases hk : k = key
      · subst hk
        have hheld : (m.store.release k lease).leases k
            = (m.store.leases k).bind fun ls => if ls.filter (fun l => l.id ≠ lease) = [] then none
              else some (ls.filter fun l => l.id ≠ lease) := by
          unfold InMemoryRateLimitStore.release
          cases hls : m.store.leases k with
          | none => exact hls
          | some ls => exact update_self _ _ _
        rw [hheld, Ledger.release_self]
        exact (h.slots k).release h.leases hlease (hsound.slots k)
      · have hsame : (m.store.release key lease).leases k = m.store.leases k := by
          unfold InMemoryRateLimitStore.release
          split
          · rfl
          · exact update_of_ne hk _ _
        rw [hsame, Ledger.release_of_ne _ hk]
        exact h.slots k
    refine { h with calls := rfl, handleOf := ?_, windows := ?_, widest := ?_, slots := hslots }
    · exact hrest.symm ▸ h.handleOf
    · exact hrest.symm ▸ h.windows
    · exact hrest.symm ▸ h.widest

theorem memory_step (hinj : Injective uuid) (hsound : Ledger.Sound T s)
    (h : MemoryMatches uuid width T s m) (hT : T ≤ now) (call : Call) :
    ((memoryStore exactly uuid).step width m (now, call)).1.wholeMs
        = (ledgerStore.step width s (now, call)).1
      ∧ MemoryMatches uuid width now (ledgerStore.step width s (now, call)).2
        ((memoryStore exactly uuid).step width m (now, call)).2 := by
  have hsound := hsound.mono hT
  have h := h.mono hT
  cases call with
  | hit key limit cost => exact memory_hit hsound h key limit cost
  | settle key entry cost => exact memory_settle hsound h key entry cost
  | acquire key limit lease => exact memory_acquire hinj hsound h key limit lease
  | release key slot => exact memory_release hsound h key slot

/-- **Over any sequence of calls the in-process store answers as the ledger.** -/
theorem memory_run (hinj : Injective uuid) {calls : List (ℤ × Call)}
    (hcalls : calls.Pairwise fun a b => a.1 ≤ b.1) (hT : ∀ call ∈ calls, T ≤ call.1)
    (hsound : Ledger.Sound T s) (h : MemoryMatches uuid width T s m) :
    ((memoryStore exactly uuid).run width m calls).1.map Answer.wholeMs
      = (ledgerStore.run width s calls).1 := by
  induction calls generalizing T s m with
  | nil => rfl
  | cons call calls ih =>
    obtain ⟨hfirst, hcalls⟩ := pairwise_cons.mp hcalls
    have hle := hT call mem_cons_self
    obtain ⟨hanswer, hstep⟩ := memory_step hinj hsound h hle call.2
    have hrest := ih hcalls hfirst ((hsound.mono hle).step call.2) hstep
    simp only [Store.run, map_cons]
    exact congrArg₂ List.cons hanswer hrest

end Otari.RateLimit
