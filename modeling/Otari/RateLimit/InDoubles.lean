import Otari.RateLimit.StoresAgree

/-!
# Rate limit — InDoubles — the in-process store in doubles of seconds

Where the doubles of the calls' instants, and of the ends of their windows and leases, are in the order
of the milliseconds they stand for (`Told`), the in-process store decides as it would on exact numbers
(`memory_told`): it keeps the same entries and leases, and only what is left of a window differs, by what
the doubles round.
-/

namespace Otari.RateLimit
open Function List

variable {d : Doubles} {ε : ℚ} {width : Key → ℚ} {calls rest : List (ℤ × Call)} {uuid : ℕ → Handle}

def At (calls : List (ℤ × Call)) (t : ℤ) : Prop := ∃ call ∈ calls, call.1 = t

/-- A width the log has noted: none yet, or a key's. -/
def Noted (width : Key → ℚ) (w : ℚ) : Prop := w = 0 ∨ ∃ key, w = width key

theorem Noted.max {w : ℚ} (h : Noted width w) (key : Key) : Noted width (max w (width key)) := by
  rcases max_choice w (width key) with hmax | hmax
  · rwa [hmax]
  · rw [hmax]
    exact .inr ⟨key, rfl⟩

/-- A length one of the calls asks a lease for. -/
def Asks (calls : List (ℤ × Call)) (length : ℚ) : Prop :=
  ∃ now key limit, (now, Call.acquire key limit length) ∈ calls

/-- Doubles tell what has left its window and which lease has run out as the milliseconds do, the time
to wait within `ε`, and what is asked of Redis. -/
structure Told (d : Doubles) (ε : ℚ) (width : Key → ℚ) (calls : List (ℤ × Call)) : Prop where
  window : ∀ t now w, At calls t → At calls now → Noted width w →
    (d.seconds t ≤ d.seconds (d.seconds now - w) ↔ (t : ℚ) ≤ now - w)
  lease : ∀ t now length, At calls t → At calls now → Asks calls length →
    (d.seconds (d.seconds t + length) ≤ d.seconds now ↔ (t : ℚ) + length ≤ now)
  waits : ∀ t now key, At calls t → At calls now →
    |d.seconds (d.seconds (d.seconds t + width key) - d.seconds now) - (t + width key - now)| ≤ ε
  whole : ∀ t now key, At calls t → At calls now →
    |d.seconds ((t + ⌈width key⌉ - now : ℤ) : ℚ) - (t + ⌈width key⌉ - now : ℤ)| ≤ ε ∧
      |d.seconds ⌈width key⌉ - ⌈width key⌉| ≤ ε
  asked : ∀ call ∈ calls, call.2.Asked d width

/-- The same decisions, times to wait that differ by what doubles round, and whole milliseconds of them
that are told as well. -/
def Answer.Alike (d : Doubles) (ε : ℚ) : Answer → Answer → Prop
  | .window allowed count reset, .window allowed' count' reset' =>
    allowed = allowed' ∧ count = count' ∧ |reset - reset'| ≤ ε ∧
      |d.seconds ⌈reset'⌉ - ⌈reset'⌉| ≤ ε
  | answer, answer' => answer = answer'

/-- What the store holds is of the calls. -/
structure OfCalls (width : Key → ℚ) (calls : List (ℤ × Call)) (store : InMemoryRateLimitStore) :
    Prop where
  entries : ∀ key window, store.log.requests key = some window →
    ∀ e ∈ window.entries, At calls e.time
  leases : ∀ key slots, store.leases key = some slots →
    ∀ l ∈ slots, At calls l.granted ∧ Asks calls l.length
  widest : Noted width store.log.widestWindow

theorem OfCalls.empty : OfCalls width calls .empty where
  entries _ _ h := by cases h
  leases _ _ h := by cases h
  widest := .inl rfl

variable {store : InMemoryRateLimitStore} {now : ℤ} {key : Key}

/-! ### A hit -/

theorem expire_congr {cutoff cutoff' : ℚ} {es : List (Entry Handle)}
    (h : ∀ e ∈ es, d.seconds e.time ≤ cutoff ↔ (e.time : ℚ) ≤ cutoff') (total : ℤ) :
    Window.expire d cutoff es total = Window.expire exactly cutoff' es total := by
  induction es generalizing total with
  | nil => rfl
  | cons e es ih =>
    have hrest := ih fun e' he' => h e' (mem_cons_of_mem _ he')
    by_cases hle : (e.time : ℚ) ≤ cutoff'
    · rw [Window.expire, Window.expire, if_pos ((h e mem_cons_self).mpr hle)]
      exact (hrest _).trans (if_pos hle).symm
    · rw [Window.expire, Window.expire, if_neg fun hle' => hle ((h e mem_cons_self).mp hle')]
      exact (if_neg hle).symm

theorem expire_subset {cutoff : ℚ} {es : List (Entry Handle)} {total : ℤ} {e : Entry Handle}
    (h : e ∈ (Window.expire d cutoff es total).entries) : e ∈ es := by
  induction es generalizing total with
  | nil => exact h
  | cons first es ih =>
    rw [Window.expire] at h
    split at h
    · exact mem_cons_of_mem _ (ih h)
    · exact h

theorem Told.requestsAt (htold : Told d ε width calls) (hstore : OfCalls width calls store)
    (hnow : At calls now) (key : Key) :
    requestsAt d store.log now (width key) = requestsAt exactly store.log now (width key) := by
  have hwidest := hstore.widest.max key
  unfold RateLimit.requestsAt
  split
  · funext k
    unfold SlidingWindowLog.cleanup
    cases hreq : store.log.requests k with
    | none => rfl
    | some window =>
      rw [Option.filter_some, Option.filter_some]
      cases hlast : window.entries.getLast? with
      | none => rfl
      | some e =>
        have hmem := mem_of_getLast? hlast
        have htime := hstore.entries k window hreq e hmem
        have hiff := not_congr (htold.window _ _ _ htime hnow hwidest)
        rw [not_le, not_le] at hiff
        simp only [Option.any_some, hiff]
        rfl
  · rfl

theorem OfCalls.requestsAt (hstore : OfCalls width calls store) {w : ℚ} {k : Key} {window : Window}
    (h : RateLimit.requestsAt d store.log now w k = some window) :
    ∀ e ∈ window.entries, At calls e.time := by
  unfold RateLimit.requestsAt at h
  split at h
  · exact hstore.entries k window (Option.filter_eq_some_iff.mp h).1
  · exact hstore.entries k window h

/-- What a hit answers and leaves, once its window is expired. -/
def counted (d : Doubles) (log : SlidingWindowLog) (now : ℤ) (key : Key) (limit : ℤ) (w : ℚ)
    (cost : ℤ) (requests : Key → Option Window) (window : Window) :
    RateLimitWindow × SlidingWindowLog :=
  let callCount := if cleanupInterval ≤ log.callCount + 1 then 0 else log.callCount + 1
  let widest := max log.widestWindow w
  if window.total + cost ≤ limit then
    let handle := str log.handles
    let window : Window := ⟨window.entries ++ [⟨now, handle, cost⟩], window.total + cost⟩
    (⟨true, window.total, resetIn d now w window.entries, some handle⟩,
      ⟨update requests key (some window), callCount, widest, log.handles + 1⟩)
  else
    (⟨false, window.total, resetIn d now w window.entries, none⟩,
      ⟨update requests key (some window), callCount, widest, log.handles⟩)

theorem hit_eq_counted (d : Doubles) (log : SlidingWindowLog) (limit cost : ℤ) (w : ℚ) :
    log.hit d now key limit w cost = counted d log now key limit w cost (requestsAt d log now w)
      (Window.expire d (d.seconds (d.seconds now - w))
        ((requestsAt d log now w key).getD ⟨[], 0⟩).entries
        ((requestsAt d log now w key).getD ⟨[], 0⟩).total) :=
  rfl

theorem resetIn_alike (htold : Told d ε width calls) (hnow : At calls now) {es : List (Entry Handle)}
    (hes : ∀ e ∈ es, At calls e.time) :
    |resetIn d now (width key) es - resetIn exactly now (width key) es| ≤ ε ∧
      |d.seconds ⌈resetIn exactly now (width key) es⌉ - ⌈resetIn exactly now (width key) es⌉| ≤ ε := by
  cases es with
  | nil =>
    have hε : 0 ≤ ε := (abs_nonneg _).trans (htold.waits now now key hnow hnow)
    exact ⟨by simpa [resetIn] using hε, (htold.whole now now key hnow hnow).2⟩
  | cons e es =>
    have htime := hes e mem_cons_self
    have hceil : ⌈resetIn exactly now (width key) (e :: es)⌉ = e.time + ⌈width key⌉ - now := by
      simp only [resetIn, exactly_seconds]
      rw [Int.ceil_sub_intCast, Int.ceil_intCast_add]
    rw [hceil]
    exact ⟨htold.waits e.time now key htime hnow, (htold.whole e.time now key htime hnow).1⟩

theorem OfCalls.counted (hstore : OfCalls width calls store) (hnow : At calls now) (limit cost : ℤ)
    {requests : Key → Option Window} {window : Window}
    (hrequests : ∀ k window, requests k = some window → ∀ e ∈ window.entries, At calls e.time)
    (hwindow : ∀ e ∈ window.entries, At calls e.time) : OfCalls width calls { store with
      log := (counted d store.log now key limit (width key) cost requests window).2 } := by
  have hput : ∀ entries : List (Entry Handle), ∀ total, (∀ e ∈ entries, At calls e.time) →
      ∀ k window', update requests key (some ⟨entries, total⟩) k = some window' →
        ∀ e ∈ window'.entries, At calls e.time := by
    intro entries total hentries k window' hk
    by_cases hkey : k = key
    · subst hkey
      rw [update_self] at hk
      cases hk
      exact hentries
    · rw [update_of_ne hkey] at hk
      exact hrequests k window' hk
  have hwidest := hstore.widest.max key
  have hnew : ∀ e ∈ window.entries ++ [⟨now, str store.log.handles, cost⟩], At calls e.time := by
    intro e he
    rcases mem_append.mp he with he | he
    · exact hwindow e he
    · rw [mem_singleton.mp he]
      exact hnow
  unfold RateLimit.counted
  dsimp only
  split
  · exact ⟨hput _ _ hnew, hstore.leases, hwidest⟩
  · exact ⟨hput _ _ hwindow, hstore.leases, hwidest⟩

theorem hit_told (htold : Told d ε width calls) (hstore : OfCalls width calls store)
    (hnow : At calls now) (key : Key) (limit cost : ℤ) :
    (store.hit d now key limit (width key) cost).2 = (store.hit exactly now key limit (width key) cost).2
      ∧ (store.hit d now key limit (width key) cost).1.handle
        = (store.hit exactly now key limit (width key) cost).1.handle
      ∧ (store.hit d now key limit (width key) cost).1.answer.1.Alike d ε
        (store.hit exactly now key limit (width key) cost).1.answer.1
      ∧ OfCalls width calls (store.hit exactly now key limit (width key) cost).2 := by
  obtain ⟨window, hwindow⟩ : ∃ window,
      window = (requestsAt exactly store.log now (width key) key).getD ⟨[], 0⟩ := ⟨_, rfl⟩
  have hentries : ∀ e ∈ window.entries, At calls e.time := by
    rw [hwindow]
    cases hreq : requestsAt exactly store.log now (width key) key with
    | none => simp
    | some kept => exact hstore.requestsAt hreq
  -- doubles and exact numbers expire the same entries, as each is told apart from the cutoff
  have hexpire : Window.expire d (d.seconds (d.seconds now - width key)) window.entries window.total
      = Window.expire exactly (exactly.seconds (exactly.seconds now - width key)) window.entries
        window.total :=
    expire_congr (fun e he => htold.window _ _ _ (hentries e he) hnow (.inr ⟨key, rfl⟩)) _
  obtain ⟨kept, hkept⟩ : ∃ kept, kept = Window.expire exactly
      (exactly.seconds (exactly.seconds now - width key)) window.entries window.total := ⟨_, rfl⟩
  have hin : ∀ e ∈ kept.entries, At calls e.time := by
    intro e he
    rw [hkept] at he
    exact hentries e (expire_subset he)
  have hnew : ∀ e ∈ kept.entries ++ [⟨now, str store.log.handles, cost⟩], At calls e.time := by
    intro e he
    rcases mem_append.mp he with he | he
    · exact hin e he
    · rw [mem_singleton.mp he]
      exact hnow
  have hafter : OfCalls width calls { store with
      log := (RateLimit.counted exactly store.log now key limit (width key) cost
        (requestsAt exactly store.log now (width key)) kept).2 } :=
    hstore.counted hnow limit cost (fun _ _ => hstore.requestsAt) hin
  -- so the two hits differ in the wait they tell, and in nothing they keep
  simp only [InMemoryRateLimitStore.hit, hit_eq_counted]
  rw [htold.requestsAt hstore hnow, ← hwindow, hexpire, ← hkept]
  refine ⟨?_, ?_, ?_, hafter⟩
  · unfold RateLimit.counted
    dsimp only
    split <;> rfl
  · unfold RateLimit.counted
    dsimp only
    split <;> rfl
  · unfold RateLimit.counted
    dsimp only
    split
    · exact ⟨rfl, rfl, resetIn_alike htold hnow hnew⟩
    · exact ⟨rfl, rfl, resetIn_alike htold hnow hin⟩

/-! ### The other calls -/

theorem OfCalls.settle (hstore : OfCalls width calls store) (key : Key) (handle : Handle) (cost : ℤ) :
    OfCalls width calls (store.settle key handle cost) := by
  refine ⟨?_, hstore.leases, ?_⟩
  · intro k window hk
    simp only [InMemoryRateLimitStore.settle, SlidingWindowLog.settle] at hk
    cases hreq : store.log.requests key with
    | none =>
      rw [hreq] at hk
      exact hstore.entries k window hk
    | some held =>
      rw [hreq] at hk
      dsimp only at hk
      split at hk
      · exact hstore.entries k window hk
      · by_cases hkey : k = key
        · subst hkey
          simp only [update_self, Option.some.injEq] at hk
          subst hk
          intro e he
          obtain ⟨e', he', rfl⟩ := mem_map.mp he
          rw [time_recost]
          exact hstore.entries k held hreq e' he'
        · simp only [update_of_ne hkey] at hk
          exact hstore.entries k window hk
  · simp only [InMemoryRateLimitStore.settle, SlidingWindowLog.settle]
    split
    · exact hstore.widest
    · split <;> exact hstore.widest

theorem Told.over (htold : Told d ε width calls) (hnow : At calls now) {l : Lease}
    (hl : At calls l.granted ∧ Asks calls l.length) : l.over d now = l.over exactly now :=
  decide_eq_decide.mpr (htold.lease _ _ _ hl.1 hnow hl.2)

/-- The leases an acquire finds, after the cleanup it may make. -/
def leasesAt (d : Doubles) (store : InMemoryRateLimitStore) (now : ℤ) : Key → Option (List Lease) :=
  if cleanupInterval ≤ store.acquires + 1 then
    fun k => (store.leases k).filter fun slots => !slots.all (Lease.over d now)
  else store.leases

theorem Told.leasesAt (htold : Told d ε width calls) (hstore : OfCalls width calls store)
    (hnow : At calls now) : leasesAt d store now = leasesAt exactly store now := by
  unfold RateLimit.leasesAt
  split
  · funext k
    cases hk : store.leases k with
    | none => rfl
    | some slots =>
      have hall : slots.all (Lease.over d now) = slots.all (Lease.over exactly now) := by
        rw [Bool.eq_iff_iff, all_eq_true, all_eq_true]
        exact forall₂_congr fun l hl => by rw [htold.over hnow (hstore.leases k slots hk l hl)]
      rw [Option.filter_some, Option.filter_some, hall]
  · rfl

theorem OfCalls.leasesAt (hstore : OfCalls width calls store) {k : Key} {slots : List Lease}
    (h : RateLimit.leasesAt d store now k = some slots) :
    ∀ l ∈ slots, At calls l.granted ∧ Asks calls l.length := by
  unfold RateLimit.leasesAt at h
  split at h
  · exact hstore.leases k slots (Option.filter_eq_some_iff.mp h).1
  · exact hstore.leases k slots h

theorem acquire_told (htold : Told d ε width calls) (hstore : OfCalls width calls store)
    {limit : ℤ} {length : ℚ} (hcall : (now, Call.acquire key limit length) ∈ calls) (id : Handle) :
    store.acquire d id now key limit length = store.acquire exactly id now key limit length
      ∧ OfCalls width calls (store.acquire exactly id now key limit length).2 := by
  have hnow : At calls now := ⟨_, hcall, rfl⟩
  obtain ⟨held, hheld⟩ : ∃ held, held = leasesAt exactly store now := ⟨_, rfl⟩
  have hin : ∀ k slots, held k = some slots → ∀ l ∈ slots, At calls l.granted ∧ Asks calls l.length := by
    intro k slots hk
    exact hstore.leasesAt (hheld ▸ hk)
  have hslots : ∀ l ∈ (held key).getD [], At calls l.granted ∧ Asks calls l.length := by
    cases hk : held key with
    | none => simp
    | some slots => exact hin key slots hk
  have hlive : ((held key).getD []).filter (fun l => !l.over d now)
      = ((held key).getD []).filter fun l => !l.over exactly now :=
    filter_congr fun l hl => by rw [htold.over hnow (hslots l hl)]
  have hput : ∀ slots' : List Lease, (∀ l ∈ slots', At calls l.granted ∧ Asks calls l.length) →
      ∀ k slots, update held key (some slots') k = some slots →
        ∀ l ∈ slots, At calls l.granted ∧ Asks calls l.length := by
    intro slots' hslots' k slots hk
    by_cases hkey : k = key
    · subst hkey
      rw [update_self] at hk
      cases hk
      exact hslots'
    · rw [update_of_ne hkey] at hk
      exact hin k slots hk
  have hkept : ∀ l ∈ ((held key).getD []).filter fun l => !l.over exactly now,
      At calls l.granted ∧ Asks calls l.length := fun l hl => hslots l (mem_filter.mp hl).1
  constructor
  · simp only [InMemoryRateLimitStore.acquire]
    rw [← leasesAt, htold.leasesAt hstore hnow, ← leasesAt, ← hheld, hlive]
  · simp only [InMemoryRateLimitStore.acquire]
    rw [← leasesAt, ← hheld]
    split
    · exact ⟨hstore.entries, hput _ hkept, hstore.widest⟩
    · refine ⟨hstore.entries, hput _ fun l hl => ?_, hstore.widest⟩
      rcases mem_append.mp hl with hl | hl
      · exact hkept l hl
      · rw [mem_singleton.mp hl]
        exact ⟨hnow, now, key, limit, hcall⟩

theorem OfCalls.release (hstore : OfCalls width calls store) (key : Key) (lease : Handle) :
    OfCalls width calls (store.release key lease) := by
  unfold InMemoryRateLimitStore.release
  split
  · exact hstore
  · rename_i slots hslots
    refine ⟨hstore.entries, fun k slots' hk l hl => ?_, hstore.widest⟩
    by_cases hkey : k = key
    · subst hkey
      dsimp only at hk
      rw [update_self] at hk
      split at hk
      · cases hk
      · cases hk
        exact hstore.leases k slots hslots l (mem_filter.mp hl).1
    · dsimp only at hk
      rw [update_of_ne hkey] at hk
      exact hstore.leases k slots' hk l hl

/-! ### Runs -/

theorem memory_step_told (uuid : ℕ → Handle) (htold : Told d ε width calls)
    {m : Session InMemoryRateLimitStore Handle}
    (hstore : OfCalls width calls m.store) {call : ℤ × Call} (hcall : call ∈ calls) :
    ((memoryStore d uuid).step width m call).1.Alike d ε
        ((memoryStore exactly uuid).step width m call).1
      ∧ ((memoryStore d uuid).step width m call).2 = ((memoryStore exactly uuid).step width m call).2
      ∧ OfCalls width calls ((memoryStore exactly uuid).step width m call).2.store := by
  obtain ⟨now, call⟩ := call
  have hnow : At calls now := ⟨_, hcall, rfl⟩
  cases call with
  | hit key limit cost =>
    obtain ⟨hsame, hhandle, halike, hafter⟩ := hit_told htold hstore hnow key limit cost
    refine ⟨halike, ?_, hafter⟩
    simp only [Store.step, memoryStore, RateLimitWindow.answer]
    rw [hsame, hhandle]
  | settle key entry cost =>
    refine ⟨rfl, rfl, ?_⟩
    simp only [Store.step, memoryStore]
    cases m.handles entry with
    | none => exact hstore
    | some handle => exact hstore.settle key handle cost
  | acquire key limit length =>
    obtain ⟨hsame, hafter⟩ := acquire_told htold hstore hcall (uuid (2 * m.calls + 1))
    simp only [Store.step, memoryStore]
    rw [hsame]
    exact ⟨rfl, rfl, hafter⟩
  | release key slot =>
    refine ⟨rfl, rfl, ?_⟩
    simp only [Store.step, memoryStore]
    cases m.leases slot with
    | none => exact hstore
    | some lease => exact hstore.release key lease

/-- **The in-process store decides as on exact numbers**, where the doubles tell the calls' instants. -/
theorem memory_told (htold : Told d ε width calls) {m : Session InMemoryRateLimitStore Handle}
    (hstore : OfCalls width calls m.store) (hrest : ∀ call ∈ rest, call ∈ calls) :
    List.Forall₂ (Answer.Alike d ε) ((memoryStore d uuid).run width m rest).1
      ((memoryStore exactly uuid).run width m rest).1 := by
  induction rest generalizing m with
  | nil => exact .nil
  | cons call rest ih =>
    obtain ⟨halike, hsame, hafter⟩ := memory_step_told uuid htold hstore (hrest call mem_cons_self)
    have hlater := ih hafter fun c hc => hrest c (mem_cons_of_mem _ hc)
    simp only [Store.run]
    refine .cons halike ?_
    rw [hsame]
    exact hlater

theorem memory_alike (uuid : ℕ → Handle) (htold : Told d ε width calls) :
    List.Forall₂ (Answer.Alike d ε) ((memoryStore d uuid).run width (.start .empty) calls).1
      ((memoryStore exactly uuid).run width (.start .empty) calls).1 := by
  have hstart : OfCalls width calls (Session.start .empty : Session _ Handle).store := .empty
  exact memory_told htold hstart fun _ h => h

end Otari.RateLimit
