import Otari.RateLimit.InRedis

/-!
# Rate limit — Stores agree — the Redis store refines the in-process one

A store whose Redis answers every call answers as the ledger while its numbers stay where a double
is exact (`redis_run`), hence as the in-process store.  Past that range it does not: a double rounds
a cost down to the limit it exceeds.
-/

namespace Otari.RateLimit
open Expiry List
open Function (update_eq_self update_of_ne update_self)

/-- The ids `uuid4().hex` draws: no two alike, and of hexadecimal digits. -/
structure Uuids (uuid : ℕ → Handle) : Prop where
  inj : Function.Injective uuid
  hex : ∀ n, uuid n ≠ [] ∧ ∀ c ∈ uuid n, c.isDigit ∨ c ∈ "abcdef".toList

variable {d : Doubles} {uuid : ℕ → Handle} {width : Key → ℚ} {T now : ℤ} {s : Session Ledger ℕ}
  {m : Session RedisRateLimitStore Handle} {calls : List (ℤ × Call)}

theorem Uuids.ne_total (h : Uuids uuid) (n : ℕ) : uuid n ≠ totalField := by
  intro heq
  have hmem : '#' ∈ uuid n := by rw [heq]; exact mem_singleton.mpr rfl
  exact absurd ((h.hex n).2 _ hmem) (by decide)

theorem Uuids.ofLocal (h : Uuids uuid) (n : ℕ) : RateLimit.ofLocal (uuid n) = none := by
  rw [RateLimit.ofLocal, if_neg]
  intro hlocal
  have hmem : 'l' ∈ uuid n := (List.isPrefixOf_iff_prefix.mp hlocal).subset (by decide)
  exact absurd ((h.hex n).2 _ hmem) (by decide)

/-! ### The range where a double is exact -/

def Call.charge (key : Key) : Call → ℤ
  | .hit k _ cost => if k = key then |cost| else 0
  | .settle k _ cost => if k = key then |cost| else 0
  | _ => 0

def charged (key : Key) (calls : List (ℤ × Call)) : ℤ :=
  (calls.map fun call => call.2.charge key).sum

def Call.Small (width : Key → ℚ) : Call → Prop
  | .hit key limit _ => |limit| ≤ 2 ^ 53 ∧ |⌈width key⌉| ≤ 2 ^ 51
  | .settle .. => True
  | .acquire _ limit lease => |limit| ≤ 2 ^ 53 ∧ |⌈lease⌉| ≤ 2 ^ 51
  | .release .. => True

/-- The width or the length that a call hands to Redis is the milliseconds it stands for. -/
def Call.Asked (d : Doubles) (width : Key → ℚ) : Call → Prop
  | .hit key _ _ => ⌈d.millis (width key)⌉ = ⌈width key⌉
  | .acquire _ _ lease => ⌈d.millis lease⌉ = ⌈lease⌉
  | _ => True

/-- The answer, with the time to wait as a double of seconds. -/
def Answer.told (d : Doubles) : Answer → Answer
  | .window allowed count reset => .window allowed count (d.seconds reset)
  | answer => answer

/-- The calls' numbers stay where a double is exact: no limit is larger, what is charged on a key
adds up to no more, and instants, widths and lease lengths are well within it. -/
structure InRange (width : Key → ℚ) (calls : List (ℤ × Call)) : Prop where
  small : ∀ call ∈ calls, |call.1| ≤ 2 ^ 51 ∧ call.2.Small width
  charges : ∀ key, charged key calls ≤ 2 ^ 53

/-- With the calls still to come, the ledger stays in range. -/
structure Ledger.Bounded (calls : List (ℤ × Call)) (ledger : Ledger) : Prop where
  costs : ∀ key, size (ledger.entries key) + charged key calls ≤ 2 ^ 53
  times : ∀ key, ∀ e ∈ ledger.entries key, |e.time| ≤ 2 ^ 51

theorem charge_nonneg (key : Key) (call : Call) : 0 ≤ call.charge key := by
  cases call <;> simp only [Call.charge] <;> (try split_ifs) <;> first | exact abs_nonneg _ | rfl

theorem charged_cons (key : Key) (call : ℤ × Call) :
    charged key (call :: calls) = call.2.charge key + charged key calls := by
  rw [charged, charged, map_cons, sum_cons]

theorem charged_nonneg (key : Key) (calls : List (ℤ × Call)) : 0 ≤ charged key calls := by
  induction calls with
  | nil => exact le_refl _
  | cons call calls ih =>
    rw [charged_cons]
    exact add_nonneg (charge_nonneg key call.2) ih

theorem Ledger.Bounded.empty (h : ∀ key, charged key calls ≤ 2 ^ 53) :
    Ledger.Bounded calls Ledger.empty :=
  ⟨fun key => by simpa [Ledger.empty, size] using h key, fun _ _ he => by cases he⟩

theorem size_append (es fs : List (Entry ℕ)) : size (es ++ fs) = size es + size fs := by
  rw [size, size, size, map_append, sum_append]

theorem Ledger.Bounded.step {call : Call} (hsound : Ledger.Sound now s)
    (h : s.store.Bounded ((now, call) :: calls)) (hnow : |now| ≤ 2 ^ 51) :
    (ledgerStore.step width s (now, call)).2.store.Bounded calls := by
  have hcosts := h.costs
  simp only [charged_cons] at hcosts
  have hless : s.store.Bounded calls := by
    refine ⟨fun key => ?_, h.times⟩
    have := hcosts key
    have := charge_nonneg key call
    omega
  -- a call adds at most its own charge to what the calls to come may add
  cases call with
  | hit key limit cost =>
    simp only [Store.step, ledgerStore, Ledger.hit]
    split_ifs
    · refine ⟨fun k => ?_, fun k e he => ?_⟩
      · by_cases hk : k = key
        · subst hk
          have := hcosts k
          simp only [Call.charge, if_true] at this
          dsimp only
          rw [update_self, size_append, size_cons]
          have hnil : size [] = 0 := rfl
          dsimp only
          omega
        · dsimp only
          rw [update_of_ne hk]
          exact hless.costs k
      · by_cases hk : k = key
        · subst hk
          dsimp only at he
          rw [update_self] at he
          rcases mem_append.mp he with he | he
          · exact h.times k e he
          · rw [mem_singleton.mp he]
            exact hnow
        · dsimp only at he
          rw [update_of_ne hk] at he
          exact h.times k e he
    · exact hless
  | settle key entry cost =>
    simp only [Store.step, ledgerStore]
    cases s.handles entry with
    | none => exact hless
    | some j =>
      refine ⟨fun k => ?_, fun k e he => ?_⟩
      · by_cases hk : k = key
        · subst hk
          have := hcosts k
          have := size_recost j cost (hsound.nodup k)
          simp only [Call.charge, if_true] at *
          rw [Ledger.settle_self]
          omega
        · dsimp only
          rw [Ledger.settle_of_ne _ hk]
          exact hless.costs k
      · by_cases hk : k = key
        · subst hk
          dsimp only at he
          rw [Ledger.settle_self] at he
          obtain ⟨y, hy, rfl⟩ := mem_map.mp he
          rw [time_recost]
          exact h.times k y hy
        · dsimp only at he
          rw [Ledger.settle_of_ne _ hk] at he
          exact h.times k e he
  | acquire key limit lease =>
    simp only [Store.step, ledgerStore, Ledger.acquire]
    split_ifs
    · exact hless
    · exact ⟨hless.costs, hless.times⟩
  | release key slot =>
    simp only [Store.step, ledgerStore]
    cases s.leases slot with
    | none => exact hless
    | some j => exact ⟨hless.costs, hless.times⟩

/-! ### What Redis has kept of the ledger -/

/-- What the keys of one limit show of the ledger after calls up to `T`. -/
structure KeyMatches (handles leases : ℕ → Option Handle) (w : ℚ) (T : ℤ) (es : List (Entry ℕ))
    (slots : List Slot) (k : RedisKey) : Prop where
  window : ∃ kept, Keeps (leaves w) T es kept ∧ LogShows handles w kept k.log k.cost
  slots : ∃ held, Keeps Slot.expires T slots held ∧ LeasesShow leases T held k.leases

structure RedisMatches (uuid : ℕ → Handle) (width : Key → ℚ) (T : ℤ) (s : Session Ledger ℕ)
    (m : Session RedisRateLimitStore Handle) : Prop where
  calls : m.calls = s.calls
  handles : SameTables s.handles m.handles
  leases : SameTables s.leases m.leases
  handleOf : ∀ i h, m.handles i = some h → h = uuid (2 * i)
  leaseOf : ∀ i h, m.leases i = some h → h = uuid (2 * i)
  up : m.store.retryAt = none
  keys : ∀ key, KeyMatches m.handles m.leases (width key) T (s.store.entries key)
    (s.store.slots key) (m.store.redis key)

theorem RedisMatches.start : RedisMatches uuid width T (.start .empty) (.start .empty) where
  calls := rfl
  handles := .start
  leases := .start
  handleOf _ _ h := by cases h
  leaseOf _ _ h := by cases h
  up := rfl
  keys _ := ⟨⟨[], .refl _ _ _, .none⟩, [], .refl _ _ _, rfl, (by rintro _ _ _ ⟨⟩), by rintro _ _ ⟨⟩⟩

variable {handed : ℕ → Option Handle}

theorem LeasesShow.mono {held : List Slot} {leases : Expiring Zset}
    (h : LeasesShow handed T held leases) (hT : T ≤ now) : LeasesShow handed now held leases :=
  { h with lasting := fun hn slot hslot => (h.lasting hn slot hslot).trans hT }

theorem RedisMatches.mono (h : RedisMatches uuid width T s m) (hT : T ≤ now) :
    RedisMatches uuid width now s m := by
  refine { h with keys := fun key => ?_ }
  obtain ⟨⟨kept, hkept, hshows⟩, held, hheld, hslots⟩ := h.keys key
  exact ⟨⟨kept, hkept.mono hT, hshows⟩, held, hheld.mono hT, hslots.mono hT⟩

variable {w : ℚ} {n : ℕ} {got : Option Handle}

theorem LogShows.update {kept : List (Entry ℕ)} {log : Expiring Zset} {cost : Expiring Hash}
    (h : LogShows handed w kept log cost) (hfresh : ∀ e ∈ kept, e.handle ≠ n) :
    LogShows (Function.update handed n got) w kept log cost := by
  have hname : ∀ e ∈ kept, name (Function.update handed n got) e.handle = name handed e.handle :=
    fun e he => name_update (hfresh e he)
  refine { h with members := ?_, costs := fun e he => ?_, rest := fun field hne hrest => ?_ }
  · rw [h.members]
    exact map_congr_left fun e he => by rw [hname e he]
  · rw [hname e he]
    exact h.costs e he
  · refine h.rest field hne fun e he => ?_
    rw [← hname e he]
    exact hrest e he

theorem LeasesShow.update {held : List Slot}
    {leases : Expiring Zset} (h : LeasesShow handed T held leases)
    (hfresh : ∀ slot ∈ held, slot.call ≠ n) :
    LeasesShow (Function.update handed n got) T held leases :=
  { h with members := h.members.trans (map_leased_update hfresh).symm }

variable {es : List (Entry ℕ)} {k : RedisKey}

theorem KeyMatches.window_at {handles leases : ℕ → Option Handle}
    {slots : List Slot} (h : KeyMatches handles leases w now es slots k) :
    ∃ kept, Keeps (leaves w) now es kept
      ∧ LogShows handles w kept (noZset.at now k.log) (noHash.at now k.cost) := by
  obtain ⟨kept, hkept, hshows⟩ := h.window
  exact hshows.at hkept (le_refl _)

theorem KeyMatches.slots_at {handles leases : ℕ → Option Handle}
    {slots : List Slot} (h : KeyMatches handles leases w now es slots k) :
    ∃ held, Keeps Slot.expires now slots held
      ∧ LeasesShow leases now held (noZset.at now k.leases) := by
  obtain ⟨held, hheld, hshows⟩ := h.slots
  obtain ⟨held', hheld', hshows', -⟩ := hshows.at hheld (le_refl _)
  exact ⟨held', hheld', hshows'⟩

theorem ids_update (h : ∀ i handle, handed i = some handle → handle = uuid (2 * i))
    (hgot : ∀ handle, got = some handle → handle = uuid (2 * n)) :
    ∀ i handle, Function.update handed n got i = some handle → handle = uuid (2 * i) := by
  intro i handle hi
  by_cases hin : i = n
  · subst hin
    rw [update_self] at hi
    exact hgot handle hi
  · rw [update_of_ne hin] at hi
    exact h i handle hi

theorem SameTables.update_id {own : ℕ → Option ℕ} (h : SameTables own handed) (huuid : Uuids uuid)
    (hids : ∀ i handle, handed i = some handle → handle = uuid (2 * i))
    (hgot : ∀ handle, got = some handle → handle = uuid (2 * n)) :
    SameTables (Function.update own n (got.map fun _ => n)) (Function.update handed n got) := by
  refine h.update n got fun handle hhandle i hin hi => ?_
  have heq := huuid.inj ((hids i handle hi).symm.trans (hgot handle hhandle))
  omega

theorem redisOrFallback_answered {α : Type} {store : RedisRateLimitStore} {result : α}
    {redis : Redis} {call : Redis → Option α × Redis}
    {fallback : InMemoryRateLimitStore → α × InMemoryRateLimitStore}
    (hup : store.retryAt = none) (hcall : call store.redis = (some result, redis)) :
    store.redisOrFallback d now .answered call fallback
      = (result, ⟨redis, store.fallback, none⟩) := by
  simp only [RedisRateLimitStore.redisOrFallback, hup, hcall]
  rfl

theorem script_eq {α : Type} {key : Key} {run : RedisKey → Option α × RedisKey} {redis : Redis}
    {result : Option α} (h : run (redis key) = (result, k)) :
    RedisRateLimitStore.script key run redis = (result, Function.update redis key k) := by
  rw [RedisRateLimitStore.script, h]

/-- A store whose Redis answers every call. -/
abbrev upStore (d : Doubles) (uuid : ℕ → Handle) : Store RedisRateLimitStore Handle :=
  redisStore d uuid fun _ => .answered

variable {store : RedisRateLimitStore} {key : Key} {k' : RedisKey} {handle : Handle}

theorem hit_answered {limit cost total reset : ℤ} {allowed : Bool} (hup : store.retryAt = none)
    (hasked : ⌈d.millis w⌉ = ⌈w⌉) (h : hitScript now limit ⌈w⌉ cost handle (store.redis key)
      = (some (allowed, total, reset), k')) : store.hit d handle .answered now key limit w cost
      = (⟨allowed, total, d.seconds reset, if allowed then some handle else none⟩,
          ⟨Function.update store.redis key k', store.fallback, none⟩) := by
  simp only [RedisRateLimitStore.hit, hasked]
  refine redisOrFallback_answered hup ?_
  simp only [script_eq h]
  rfl

theorem settle_answered {cost : ℤ} (hup : store.retryAt = none) (hlocal : ofLocal handle = none)
    (h : settleScript now handle cost (store.redis key) = (some (), k')) :
    store.settle d .answered now key handle cost
      = ⟨Function.update store.redis key k', store.fallback, none⟩ := by
  simp only [RedisRateLimitStore.settle, hlocal]
  rw [redisOrFallback_answered hup (script_eq h)]

theorem acquire_answered {limit : ℤ} {lease : ℚ} {granted : Bool} {localUuid : Handle}
    (hup : store.retryAt = none) (hasked : ⌈d.millis lease⌉ = ⌈lease⌉)
    (h : acquireScript now limit ⌈lease⌉ handle (store.redis key) = (some granted, k')) :
    store.acquire d handle localUuid .answered now key limit lease
      = (if granted then some handle else none,
          ⟨Function.update store.redis key k', store.fallback, none⟩) := by
  simp only [RedisRateLimitStore.acquire, hasked]
  refine redisOrFallback_answered hup ?_
  simp only [script_eq h]
  rfl

theorem release_answered (hup : store.retryAt = none) (hlocal : ofLocal handle = none)
    (h : zremLease now handle (store.redis key) = (some (), k')) :
    store.release d .answered now key handle
      = ⟨Function.update store.redis key k', store.fallback, none⟩ := by
  simp only [RedisRateLimitStore.release, hlocal]
  rw [redisOrFallback_answered hup (script_eq h)]

theorem RedisMatches.hit (huuid : Uuids uuid) (hsound : Ledger.Sound now s)
    (h : RedisMatches uuid width now s m)
    (hgot : ∀ handle, got = some handle → handle = uuid (2 * s.calls))
    (hwindow : ∃ kept, Keeps (leaves (width key)) now es kept
      ∧ LogShows (Function.update m.handles s.calls got) (width key) kept k'.log k'.cost)
    (hleases : k'.leases = noZset.at now (m.store.redis key).leases) : RedisMatches uuid width now
      ⟨⟨Function.update s.store.entries key es, s.store.slots⟩, s.calls + 1,
        Function.update s.handles s.calls (got.map fun _ => s.calls), s.leases⟩
      ⟨⟨Function.update m.store.redis key k', m.store.fallback, none⟩, s.calls + 1,
        Function.update m.handles s.calls got, m.leases⟩ := by
  refine ⟨rfl, h.handles.update_id huuid h.handleOf hgot, h.leases, ids_update h.handleOf hgot,
    h.leaseOf, rfl, fun k => ?_⟩
  by_cases hk : k = key
  · subst hk
    dsimp only
    rw [update_self, update_self]
    exact ⟨hwindow, hleases ▸ (h.keys k).slots_at⟩
  · dsimp only
    rw [update_of_ne hk, update_of_ne hk]
    obtain ⟨kept, hkept, hshows⟩ := (h.keys k).window
    refine ⟨⟨kept, hkept, hshows.update fun e he => ?_⟩, (h.keys k).slots⟩
    exact hsound.fresh_handle (hkept.sub.subset he)

theorem RedisMatches.distinct (huuid : Uuids uuid) (hsound : Ledger.Sound now s)
    (h : RedisMatches uuid width now s m) (key : Key) :
    Distinct m.handles (s.store.entries key) := by
  have hnames : ∀ e ∈ s.store.entries key, name m.handles e.handle = uuid (2 * e.handle) :=
    fun e he => h.handleOf _ _ (h.handles.name_eq (hsound.entries key e he).1)
  refine ⟨?_, fun e he => hnames e he ▸ huuid.ne_total _⟩
  have hmap : (s.store.entries key).map (fun e => name m.handles e.handle)
      = ((s.store.entries key).map Entry.handle).map fun i => uuid (2 * i) := by
    rw [map_map]
    exact map_congr_left hnames
  rw [hmap]
  refine (hsound.nodup key).map fun a b hab => ?_
  have := huuid.inj hab
  omega

theorem redis_hit (huuid : Uuids uuid) (hsound : Ledger.Sound now s)
    (h : RedisMatches uuid width now s m) (key : Key) (limit cost : ℤ)
    (hbounded : s.store.Bounded ((now, .hit key limit cost) :: calls)) (hnow : |now| ≤ 2 ^ 51)
    (hsmall : (Call.hit key limit cost).Small width)
    (hasked : (Call.hit key limit cost).Asked d width) :
    ((upStore d uuid).step width m (now, .hit key limit cost)).1
        = (ledgerStore.step width s (now, .hit key limit cost)).1.told d
      ∧ RedisMatches uuid width now (ledgerStore.step width s (now, .hit key limit cost)).2
        ((upStore d uuid).step width m (now, .hit key limit cost)).2 := by
  obtain ⟨kept, hkept, hshows⟩ := (h.keys key).window
  have hfresh : ∀ e ∈ s.store.entries key, e.handle ≠ s.calls
      ∧ name m.handles e.handle ≠ uuid (2 * s.calls) := by
    intro e he
    refine ⟨hsound.fresh_handle he, fun heq => hsound.fresh_handle he ?_⟩
    rw [h.handleOf _ _ (h.handles.name_eq (hsound.entries key e he).1)] at heq
    have := huuid.inj heq
    omega
  have hsize : size (s.store.entries key) + |cost| ≤ 2 ^ 53 := by
    have hcosts := hbounded.costs key
    have := charged_nonneg key calls
    rw [charged_cons] at hcosts
    simp only [Call.charge, if_true] at hcosts
    omega
  obtain ⟨k', hleases, hscript⟩ := hitScript_eq hshows hkept (le_refl _)
    (h.distinct huuid hsound key) (hsound.sorted key)
    (fun e he => ⟨(hsound.entries key e he).2, hbounded.times key e he⟩)
    hfresh (huuid.ne_total _) hsize hsmall.2 hnow hsmall.1
  simp only [Store.step, upStore, redisStore, ledgerStore, Ledger.hit, h.calls]
  by_cases hfits : spent (live (leaves (width key)) now (s.store.entries key)) + cost ≤ limit
  · rw [if_pos hfits] at hscript
    obtain ⟨heq, hwindow⟩ := hscript
    rw [hit_answered h.up hasked heq]
    simp only [if_pos hfits]
    exact ⟨rfl, h.hit huuid hsound (fun handle hh => (Option.some.inj hh).symm) hwindow hleases⟩
  · rw [if_neg hfits] at hscript
    obtain ⟨heq, kept', hkept', hshows'⟩ := hscript
    rw [hit_answered h.up hasked heq]
    simp only [if_neg hfits]
    have hwindow : LogShows (Function.update m.handles s.calls none) (width key) kept' k'.log
        k'.cost := hshows'.update fun e he => (hfresh e (hkept'.sub.subset he)).1
    have := h.hit huuid hsound (by simp) ⟨kept', hkept', hwindow⟩ hleases
    rw [update_eq_self] at this
    exact ⟨rfl, this⟩

theorem redis_settle (huuid : Uuids uuid) (hsound : Ledger.Sound now s)
    (h : RedisMatches uuid width now s m) (key : Key) (entry : ℕ) (cost : ℤ)
    (hbounded : s.store.Bounded ((now, .settle key entry cost) :: calls)) :
    ((upStore d uuid).step width m (now, .settle key entry cost)).1
        = (ledgerStore.step width s (now, .settle key entry cost)).1.told d
      ∧ RedisMatches uuid width now (ledgerStore.step width s (now, .settle key entry cost)).2
        ((upStore d uuid).step width m (now, .settle key entry cost)).2 := by
  refine ⟨rfl, ?_⟩
  simp only [Store.step, upStore, redisStore, ledgerStore, h.calls, h.handles.own_eq entry]
  cases hentry : m.handles entry with
  | none => exact { h with calls := rfl }
  | some handle =>
    have hid := h.handleOf entry handle hentry
    have hsize : size (s.store.entries key) + |cost| ≤ 2 ^ 53 := by
      have hcosts := hbounded.costs key
      have := charged_nonneg key calls
      rw [charged_cons] at hcosts
      simp only [Call.charge, if_true] at hcosts
      omega
    obtain ⟨kept, hkept, hshows⟩ := (h.keys key).window
    obtain ⟨k', heq, hleases, hwindow⟩ := settleScript_eq hshows hkept (le_refl _)
      (h.distinct huuid hsound key) h.handles hentry (fun e he => (hsound.entries key e he).1)
      (hsound.nodup key) (hid ▸ huuid.ne_total _) hsize
    simp only [settle_answered h.up (hid ▸ huuid.ofLocal _) heq]
    refine { h with calls := rfl, up := rfl, keys := fun k => ?_ }
    by_cases hk : k = key
    · subst hk
      simp only [Option.map_some, Ledger.settle_self, update_self]
      exact ⟨hwindow, hleases ▸ (h.keys k).slots_at⟩
    · simp only [Option.map_some, Ledger.settle_of_ne _ hk, update_of_ne hk]
      exact h.keys k

theorem redis_acquire (huuid : Uuids uuid) (hsound : Ledger.Sound now s)
    (h : RedisMatches uuid width now s m) (key : Key) (limit : ℤ) (lease : ℚ)
    (hnow : |now| ≤ 2 ^ 51) (hsmall : (Call.acquire key limit lease).Small width)
    (hasked : (Call.acquire key limit lease).Asked d width) :
    ((upStore d uuid).step width m (now, .acquire key limit lease)).1
        = (ledgerStore.step width s (now, .acquire key limit lease)).1.told d
      ∧ RedisMatches uuid width now (ledgerStore.step width s (now, .acquire key limit lease)).2
        ((upStore d uuid).step width m (now, .acquire key limit lease)).2 := by
  obtain ⟨held, hheld, hshows⟩ := (h.keys key).slots
  have hfresh : ∀ slot ∈ s.store.slots key, slot.call ≠ s.calls
      ∧ name m.leases slot.call ≠ uuid (2 * s.calls) := by
    intro slot hslot
    refine ⟨hsound.fresh_slot hslot, fun heq => hsound.fresh_slot hslot ?_⟩
    rw [h.leaseOf _ _ (h.leases.name_eq (hsound.slots key slot hslot))] at heq
    have := huuid.inj heq
    omega
  obtain ⟨k', hlog, hcost, hscript⟩ := acquireScript_eq hshows hheld (le_refl _) hfresh hsmall.1
    hnow hsmall.2
  have hafter : ∀ got (slots : List Slot),
      (∀ handle, got = some handle → handle = uuid (2 * s.calls)) →
      (∃ held', Keeps Slot.expires now slots held'
        ∧ LeasesShow (Function.update m.leases s.calls got) now held' k'.leases) →
      RedisMatches uuid width now
        ⟨⟨s.store.entries, Function.update s.store.slots key slots⟩, s.calls + 1, s.handles,
          Function.update s.leases s.calls (got.map fun _ => s.calls)⟩
        ⟨⟨Function.update m.store.redis key k', m.store.fallback, none⟩, s.calls + 1, m.handles,
          Function.update m.leases s.calls got⟩ := by
    intro got slots hgot hslots
    refine ⟨rfl, h.handles, h.leases.update_id huuid h.leaseOf hgot, h.handleOf,
      ids_update h.leaseOf hgot, rfl, fun k => ?_⟩
    by_cases hk : k = key
    · subst hk
      dsimp only
      rw [update_self, update_self]
      exact ⟨hlog ▸ hcost ▸ (h.keys k).window_at, hslots⟩
    · dsimp only
      rw [update_of_ne hk, update_of_ne hk]
      obtain ⟨held, hheld, hshows⟩ := (h.keys k).slots
      refine ⟨(h.keys k).window, held, hheld, hshows.update fun slot hslot => ?_⟩
      exact hsound.fresh_slot (hheld.sub.subset hslot)
  simp only [Store.step, upStore, redisStore, ledgerStore, Ledger.acquire, h.calls]
  by_cases hfull : limit ≤ (live Slot.expires now (s.store.slots key)).length
  · rw [if_pos hfull] at hscript
    obtain ⟨heq, held', hheld', hshows'⟩ := hscript
    rw [acquire_answered h.up hasked heq]
    simp only [if_pos hfull]
    have := hafter none (s.store.slots key) (by simp) ⟨held', hheld',
      hshows'.update fun slot hslot => (hfresh slot (hheld'.sub.subset hslot)).1⟩
    rw [update_eq_self] at this
    exact ⟨rfl, this⟩
  · rw [if_neg hfull] at hscript
    obtain ⟨heq, hslots⟩ := hscript
    rw [acquire_answered h.up hasked heq]
    simp only [if_neg hfull]
    exact ⟨rfl, hafter _ _ (fun handle hh => (Option.some.inj hh).symm) hslots⟩

theorem redis_release (huuid : Uuids uuid) (hsound : Ledger.Sound now s)
    (h : RedisMatches uuid width now s m) (key : Key) (slot : ℕ) :
    ((upStore d uuid).step width m (now, .release key slot)).1
        = (ledgerStore.step width s (now, .release key slot)).1.told d
      ∧ RedisMatches uuid width now (ledgerStore.step width s (now, .release key slot)).2
        ((upStore d uuid).step width m (now, .release key slot)).2 := by
  refine ⟨rfl, ?_⟩
  simp only [Store.step, upStore, redisStore, ledgerStore, h.calls, h.leases.own_eq slot]
  cases hlease : m.leases slot with
  | none => exact { h with calls := rfl }
  | some lease =>
    have hid := h.leaseOf slot lease hlease
    obtain ⟨held, hheld, hshows⟩ := (h.keys key).slots
    obtain ⟨k', heq, hlog, hcost, hslots⟩ := zremLease_eq hshows hheld (le_refl _) h.leases hlease
      (hsound.slots key)
    simp only [release_answered h.up (hid ▸ huuid.ofLocal _) heq]
    refine { h with calls := rfl, up := rfl, keys := fun k => ?_ }
    by_cases hk : k = key
    · subst hk
      simp only [Option.map_some, Ledger.release_self, update_self]
      exact ⟨hlog ▸ hcost ▸ (h.keys k).window_at, hslots⟩
    · simp only [Option.map_some, Ledger.release_of_ne _ hk, update_of_ne hk]
      exact h.keys k

theorem redis_step (huuid : Uuids uuid) (hsound : Ledger.Sound T s)
    (h : RedisMatches uuid width T s m) (hT : T ≤ now) {call : Call}
    (hbounded : s.store.Bounded ((now, call) :: calls)) (hnow : |now| ≤ 2 ^ 51)
    (hsmall : call.Small width) (hasked : call.Asked d width) :
    ((upStore d uuid).step width m (now, call)).1 = (ledgerStore.step width s (now, call)).1.told d
      ∧ RedisMatches uuid width now (ledgerStore.step width s (now, call)).2
        ((upStore d uuid).step width m (now, call)).2 := by
  have hsound := hsound.mono hT
  have h := h.mono hT
  cases call with
  | hit key limit cost => exact redis_hit huuid hsound h key limit cost hbounded hnow hsmall hasked
  | settle key entry cost => exact redis_settle huuid hsound h key entry cost hbounded
  | acquire key limit lease => exact redis_acquire huuid hsound h key limit lease hnow hsmall hasked
  | release key slot => exact redis_release huuid hsound h key slot

/-- **Over any sequence of calls in range a store whose Redis answers answers as the ledger.** -/
theorem redis_run (huuid : Uuids uuid) (hcalls : calls.Pairwise fun a b => a.1 ≤ b.1)
    (hT : ∀ call ∈ calls, T ≤ call.1) (hsound : Ledger.Sound T s)
    (h : RedisMatches uuid width T s m) (hbounded : s.store.Bounded calls)
    (hsmall : ∀ call ∈ calls, |call.1| ≤ 2 ^ 51 ∧ call.2.Small width)
    (hasked : ∀ call ∈ calls, call.2.Asked d width) : ((upStore d uuid).run width m calls).1
      = (ledgerStore.run width s calls).1.map (Answer.told d) := by
  induction calls generalizing T s m with
  | nil => rfl
  | cons call calls ih =>
    obtain ⟨hfirst, hcalls⟩ := pairwise_cons.mp hcalls
    have hle := hT call mem_cons_self
    obtain ⟨hnow, hcall⟩ := hsmall call mem_cons_self
    obtain ⟨hanswer, hstep⟩ := redis_step huuid hsound h hle hbounded hnow hcall
      (hasked call mem_cons_self)
    have hsound' := hsound.mono hle
    have hrest := ih hcalls hfirst (hsound'.step call.2) hstep (hbounded.step hsound' hnow)
      (fun c hc => hsmall c (mem_cons_of_mem _ hc)) fun c hc => hasked c (mem_cons_of_mem _ hc)
    simp only [Store.run, map_cons]
    exact congrArg₂ List.cons hanswer hrest

end Otari.RateLimit
