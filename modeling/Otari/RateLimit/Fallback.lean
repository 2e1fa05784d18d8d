import Otari.RateLimit.InDoubles

/-!
# Rate limit — Fallback — each handle goes back to the store that issued it

`routedStore` hands out handles that carry the store that issued them and sends each back there.
`RedisRateLimitStore` marks the in-process ones in their text instead, and behaves the same whatever
becomes of its calls to Redis (`routed_run`).  With the answers of the two stores, where doubles tell
their instants, and the bound on live slots this is the refinement (`redis_refines_memory`).
-/

namespace Otari.RateLimit
open Expiry Function List

variable {d : Doubles} {ε : ℚ} {uuid : ℕ → Handle} {width : Key → ℚ} {reply : ℕ → Reply}
  {calls : List (ℤ × Call)} {now : ℤ}

/-! ### Runs -/

section Runs
variable {σ η : Type} {port : Store σ η}

theorem run_append (s : Session σ η) (calls rest : List (ℤ × Call)) :
    port.run width s (calls ++ rest)
      = ((port.run width s calls).1 ++ (port.run width (port.run width s calls).2 rest).1,
          (port.run width (port.run width s calls).2 rest).2) := by
  induction calls generalizing s with
  | nil => rfl
  | cons call calls ih => simp only [cons_append, Store.run, ih]

theorem step_calls (s : Session σ η) (call : ℤ × Call) :
    (port.step width s call).2.calls = s.calls + 1 := by
  obtain ⟨now, call⟩ := call
  cases call <;> rfl

theorem step_hit (s : Session σ η) (key : Key) (limit cost : ℤ) :
    port.step width s (now, .hit key limit cost)
      = ((port.hit s.calls s.store now key limit (width key) cost).1.1,
          ⟨(port.hit s.calls s.store now key limit (width key) cost).2, s.calls + 1,
            update s.handles s.calls
              (port.hit s.calls s.store now key limit (width key) cost).1.2, s.leases⟩) :=
  rfl

theorem step_acquire (s : Session σ η) (key : Key) (limit : ℤ) (lease : ℚ) :
    port.step width s (now, .acquire key limit lease)
      = (.slot (port.acquire s.calls s.store now key limit lease).1.isSome,
          ⟨(port.acquire s.calls s.store now key limit lease).2, s.calls + 1, s.handles,
            update s.leases s.calls (port.acquire s.calls s.store now key limit lease).1⟩) :=
  rfl

theorem length_run (s : Session σ η) : (port.run width s calls).1.length = calls.length := by
  induction calls generalizing s with
  | nil => rfl
  | cons call calls ih => simp only [Store.run, length_cons, ih]

theorem calls_run (s : Session σ η) :
    (port.run width s calls).2.calls = s.calls + calls.length := by
  induction calls generalizing s with
  | nil => rfl
  | cons call calls ih =>
    simp only [Store.run, length_cons, ih, step_calls]
    omega

end Runs

/-! ### The slots in flight -/

/-- The call was granted a slot on `key` under `limit` which has not run out at `now`, and no later
call gave it back. -/
def holds (calls : List (ℤ × Call)) (answers : List Answer) (key : Key) (limit now : ℤ) (i : ℕ) :
    Bool :=
  match calls[i]?, answers[i]? with
  | some (t, .acquire k l lease), some (.slot true) =>
    decide (k = key ∧ l = limit ∧ (now : ℚ) < t + lease)
      && (calls.drop (i + 1)).all fun call => call.2 ≠ .release key i
  | _, _ => false

/-- The unexpired, unreleased slots granted under `limit` on `key`, as the calls that hold them. -/
def heldSlots (calls : List (ℤ × Call)) (answers : List Answer) (key : Key) (limit now : ℤ) :
    List ℕ :=
  (List.range calls.length).filter (holds calls answers key limit now)

variable {answers : List Answer} {key : Key} {limit : ℤ} {i : ℕ}

theorem holds_eq_true : holds calls answers key limit now i = true ↔
      ∃ t lease, calls[i]? = some (t, .acquire key limit lease) ∧ answers[i]? = some (.slot true)
        ∧ (now : ℚ) < t + lease ∧ ∀ call ∈ calls.drop (i + 1), call.2 ≠ .release key i := by
  unfold holds
  constructor
  · intro h
    split at h
    next t k l lease hcall hanswer =>
        obtain ⟨hkey, hall⟩ := Bool.and_eq_true_iff.mp h
        obtain ⟨rfl, rfl, hlt⟩ := of_decide_eq_true hkey
        refine ⟨t, lease, hcall, hanswer, hlt, fun call hmem => ?_⟩
        exact of_decide_eq_true (all_eq_true.mp hall call hmem)
    next => cases h
  · rintro ⟨t, lease, hcall, hanswer, hlt, hall⟩
    rw [hcall, hanswer]
    refine Bool.and_eq_true_iff.mpr ⟨decide_eq_true ⟨rfl, rfl, hlt⟩, ?_⟩
    exact all_eq_true.mpr fun call hmem => decide_eq_true (hall call hmem)

theorem slot_mem_step {s : Session Ledger ℕ} {T : ℤ} (hsound : Ledger.Sound T s)
    {slot : Slot} (h : slot ∈ s.store.slots key) {call : ℤ × Call}
    (hcall : call.2 ≠ .release key slot.call) :
    slot ∈ (ledgerStore.step width s call).2.store.slots key := by
  obtain ⟨now, call⟩ := call
  cases call with
  | hit k limit cost =>
    simp only [Store.step, ledgerStore, Ledger.hit]
    split_ifs <;> exact h
  | settle k entry cost =>
    simp only [Store.step, ledgerStore]
    cases s.handles entry <;> exact h
  | acquire k limit lease =>
    simp only [Store.step, ledgerStore, Ledger.acquire]
    split_ifs
    · exact h
    · by_cases hk : key = k
      · subst hk
        dsimp only
        rw [update_self]
        exact mem_append_left _ h
      · dsimp only
        rwa [update_of_ne hk]
  | release k i =>
    simp only [Store.step, ledgerStore]
    cases hlease : s.leases i with
    | none => exact h
    | some j =>
      obtain ⟨rfl, -⟩ := hsound.leases i j hlease
      by_cases hk : key = k
      · subst hk
        dsimp only
        rw [Ledger.release_self, mem_filter]
        refine ⟨h, decide_eq_true fun heq => hcall ?_⟩
        rw [heq]
      · dsimp only
        rwa [Ledger.release_of_ne _ hk]

theorem slot_mem_granted {s : Session Ledger ℕ} {t : ℤ} {lease : ℚ}
    (h : (ledgerStore.step width s (t, .acquire key limit lease)).1 = .slot true) :
    ⟨s.calls, limit, t + ⌈lease⌉⟩
      ∈ (ledgerStore.step width s (t, .acquire key limit lease)).2.store.slots key := by
  simp only [Store.step, ledgerStore, Ledger.acquire] at h ⊢
  split_ifs at h ⊢ with hfull
  · cases h
  · dsimp only
    rw [update_self]
    exact mem_append_right _ (mem_singleton.mpr rfl)

theorem sound_run {T : ℤ} {s : Session Ledger ℕ} (hcalls : calls.Pairwise fun a b => a.1 ≤ b.1)
    (hT : ∀ call ∈ calls, T ≤ call.1) (hnow : ∀ call ∈ calls, call.1 ≤ now) (hle : T ≤ now)
    (hsound : Ledger.Sound T s) : Ledger.Sound now (ledgerStore.run width s calls).2 := by
  induction calls generalizing T s with
  | nil => exact hsound.mono hle
  | cons call calls ih =>
    obtain ⟨hfirst, hcalls⟩ := pairwise_cons.mp hcalls
    have hstep : Ledger.Sound call.1 (ledgerStore.step width s call).2 :=
      (hsound.mono (hT call mem_cons_self)).step call.2
    exact ih hcalls hfirst (fun c hc => hnow c (mem_cons_of_mem _ hc))
      (hnow call mem_cons_self) hstep

theorem exists_start (hcalls : calls.Pairwise fun a b => a.1 ≤ b.1) (now : ℤ) :
    ∃ T ≤ now, ∀ call ∈ calls, T ≤ call.1 := by
  cases calls with
  | nil => exact ⟨now, le_refl _, by rintro _ ⟨⟩⟩
  | cons call calls =>
    refine ⟨min call.1 now, min_le_right _ _, fun c hc => (min_le_left _ _).trans ?_⟩
    rcases mem_cons.mp hc with rfl | hc
    · exact le_refl _
    · exact (pairwise_cons.mp hcalls).1 c hc

theorem mem_slots_of_holds (hcalls : calls.Pairwise fun a b => a.1 ≤ b.1)
    (h : holds calls (ledgerStore.run width (.start .empty) calls).1 key limit now i = true) :
    ∃ expires, now < expires
      ∧ ⟨i, limit, expires⟩ ∈ (ledgerStore.run width (.start .empty) calls).2.store.slots key := by
  obtain ⟨t, lease, hcall, hanswer, hlt, hall⟩ := holds_eq_true.mp h
  have hexpires : now < t + ⌈lease⌉ := by
    rw [← sub_lt_iff_lt_add', Int.lt_ceil, Int.cast_sub]
    linarith
  refine ⟨t + ⌈lease⌉, hexpires, ?_⟩
  clear h hlt hexpires
  induction calls using List.reverseRecOn with
  | nil => cases hcall
  | append_singleton calls last ih =>
    obtain ⟨hcalls, -, hlast⟩ := pairwise_append.mp hcalls
    obtain ⟨T, hT, hfirst⟩ := exists_start hcalls last.1
    have hsound : Ledger.Sound last.1 (ledgerStore.run width (.start .empty) calls).2 :=
      sound_run hcalls hfirst (fun c hc => hlast c hc last (by simp)) hT .start
    rw [run_append] at hanswer ⊢
    simp only [Store.run]
    rcases lt_or_ge i calls.length with hi | hi
    · rw [List.getElem?_append_left hi] at hcall
      rw [List.getElem?_append_left (by rw [length_run]; exact hi)] at hanswer
      rw [drop_append_of_le_length (by omega)] at hall
      have hold := ih hcalls hcall hanswer fun c hc => hall c (mem_append_left _ hc)
      exact slot_mem_step hsound hold (hall last (mem_append_right _ (by simp)))
    · rw [List.getElem?_append_right hi] at hcall
      rw [List.getElem?_append_right (by rw [length_run]; exact hi), length_run] at hanswer
      obtain rfl : i = calls.length := by
        rcases Nat.eq_or_lt_of_le hi with heq | hlt
        · exact heq.symm
        · rw [List.getElem?_eq_none (by simp; omega)] at hcall
          cases hcall
      rw [Nat.sub_self, List.getElem?_cons_zero] at hcall
      obtain rfl := Option.some.inj hcall
      rw [Nat.sub_self] at hanswer
      simp only [Store.run, List.getElem?_cons_zero, Option.some.injEq] at hanswer
      have hn : (ledgerStore.run width (.start .empty) calls).2.calls = calls.length :=
        (calls_run _).trans (zero_add _)
      have hslot := slot_mem_granted hanswer
      rwa [hn] at hslot

/-- **At no time are more slots in flight under a limit than the limit.** -/
theorem heldSlots_le (hcalls : calls.Pairwise fun a b => a.1 ≤ b.1)
    (hnow : ∀ call ∈ calls, call.1 ≤ now) :
    (heldSlots calls (ledgerStore.run width (.start .empty) calls).1 key limit now).length
      ≤ limit.toNat := by
  obtain ⟨T, hT, hfirst⟩ := exists_start hcalls now
  have hsound : Ledger.Sound now (ledgerStore.run width (.start .empty) calls).2 :=
    sound_run hcalls hfirst hnow hT .start
  refine le_trans ?_ (hsound.within key limit now (le_refl _))
  rw [← length_map (f := Slot.call)]
  refine (subperm_of_subset (nodup_range.filter _) fun i hi => ?_).length_le
  obtain ⟨expires, hlt, hmem⟩ := mem_slots_of_holds hcalls (mem_filter.mp hi).2
  refine mem_map.mpr ⟨_, mem_filter.mpr ⟨mem_live.mpr ⟨hmem, hlt⟩, ?_⟩, rfl⟩
  exact decide_eq_true rfl

theorem holds_map {f : Answer → Answer} (hf : ∀ answer, f answer = .slot true ↔ answer = .slot true) :
    holds calls (answers.map f) key limit now i = holds calls answers key limit now i := by
  have hslot : (answers.map f)[i]? = some (.slot true) ↔ answers[i]? = some (.slot true) := by
    rw [List.getElem?_map]
    cases answers[i]? with
    | none => simp
    | some answer => simpa using hf answer
  rw [Bool.eq_iff_iff, holds_eq_true, holds_eq_true, hslot]

theorem heldSlots_map {f : Answer → Answer}
    (hf : ∀ answer, f answer = .slot true ↔ answer = .slot true) :
    heldSlots calls (answers.map f) key limit now = heldSlots calls answers key limit now :=
  filter_congr fun _ _ => holds_map hf

theorem wholeMs_eq_slot (answer : Answer) : answer.wholeMs = .slot true ↔ answer = .slot true := by
  cases answer <;> simp [Answer.wholeMs]

theorem told_eq_slot (answer : Answer) : answer.told d = .slot true ↔ answer = .slot true := by
  cases answer <;> simp [Answer.told]

theorem heldSlots_alike {answers' : List Answer}
    (h : List.Forall₂ (Answer.Alike d ε) answers answers') :
    heldSlots calls answers key limit now = heldSlots calls answers' key limit now := by
  let granted (answer : Answer) : Answer := .slot (decide (answer = .slot true))
  have hslot : ∀ answer, granted answer = .slot true ↔ answer = .slot true := by
    intro answer
    simp [granted]
  have hsame : answers.map granted = answers'.map granted := by
    induction h with
    | nil => rfl
    | @cons a b _ _ halike _ ih =>
      rw [map_cons, map_cons, ih]
      refine congrArg (· :: _) ?_
      cases a <;> cases b <;> simp_all [Answer.Alike, granted]
  rw [← heldSlots_map hslot, hsame, heldSlots_map hslot]

/-! ### Handles that carry their issuer -/

/-- A handle or a lease, and the store that issued it. -/
inductive Issued where
  | redis (handle : Handle)
  | memory (handle : Handle)

/-- The handle as `RedisRateLimitStore` hands it out. -/
def Issued.text : Issued → Handle
  | .redis handle => handle
  | .memory handle => markLocal handle

open RedisRateLimitStore in
/-- `RedisRateLimitStore` with handles that carry their issuer: each is settled and released there
and nowhere else. -/
def routedStore (d : Doubles) (uuid : ℕ → Handle) (reply : ℕ → Reply) : Store RedisRateLimitStore Issued where
  hit n store now key limit width cost :=
    let call (redis : Redis) : Option (Answer × Option Issued) × Redis :=
      let (reply, redis) := script key (hitScript now limit ⌈d.millis width⌉ cost (uuid (2 * n))) redis
      (reply.map fun (allowed, total, reset) =>
        (.window allowed total (d.seconds reset), if allowed then some (.redis (uuid (2 * n))) else none),
        redis)
    let fallback (memory : InMemoryRateLimitStore) :
        (Answer × Option Issued) × InMemoryRateLimitStore :=
      let (window, memory) := memory.hit d now key limit width cost
      ((window.answer.1, window.handle.map .memory), memory)
    redisOrFallback d store now (reply n) call fallback
  settle n store now key issued cost :=
    match issued with
    | .memory handle => { store with fallback := store.fallback.settle key handle cost }
    | .redis handle =>
      (redisOrFallback d store now (reply n) (script key (settleScript now handle cost)) noop).2
  acquire n store now key limit lease :=
    let call (redis : Redis) : Option (Option Issued) × Redis :=
      let (taken, redis) := script key (acquireScript now limit ⌈d.millis lease⌉ (uuid (2 * n))) redis
      (taken.map fun taken => if taken then some (.redis (uuid (2 * n))) else none, redis)
    let fallback (memory : InMemoryRateLimitStore) : Option Issued × InMemoryRateLimitStore :=
      let (lease, memory) := memory.acquire d (uuid (2 * n + 1)) now key limit lease
      (lease.map .memory, memory)
    redisOrFallback d store now (reply n) call fallback
  release n store now key issued :=
    match issued with
    | .memory handle => { store with fallback := store.fallback.release key handle }
    | .redis handle =>
      (redisOrFallback d store now (reply n) (script key (zremLease now handle)) noop).2

def Issued.Marked : Issued → Prop
  | .redis handle => ofLocal handle = none
  | .memory handle => handle ≠ []

variable {issued : Issued}

theorem Issued.ofLocal_text (h : issued.Marked) :
    ofLocal issued.text = match issued with
      | .redis _ => none
      | .memory handle => some handle := by
  cases issued with
  | redis handle => exact h
  | memory handle =>
    have hpre : localPrefix.isPrefixOf (localPrefix ++ handle) = true :=
      List.isPrefixOf_iff_prefix.mpr (prefix_append _ _)
    rw [Issued.text, markLocal, if_neg h, ofLocal, if_pos hpre, drop_left]

variable {store : RedisRateLimitStore}

/-- Two calls that tell the caller the same in different forms do so through
`_redis_or_fallback`. -/
theorem redisOrFallback_same {α β γ : Type} {f : α → γ} {g : β → γ}
    {r : Reply} {call : Redis → Option α × Redis} {call' : Redis → Option β × Redis}
    {fallback : InMemoryRateLimitStore → α × InMemoryRateLimitStore}
    {fallback' : InMemoryRateLimitStore → β × InMemoryRateLimitStore}
    (hcall : ∀ redis, (call redis).1.map f = (call' redis).1.map g
      ∧ (call redis).2 = (call' redis).2)
    (hfallback : ∀ memory, f (fallback memory).1 = g (fallback' memory).1
      ∧ (fallback memory).2 = (fallback' memory).2) :
    f (store.redisOrFallback d now r call fallback).1
        = g (store.redisOrFallback d now r call' fallback').1
      ∧ (store.redisOrFallback d now r call fallback).2
        = (store.redisOrFallback d now r call' fallback').2 := by
  have hfailed : ∀ redis redis' retryAt, redis = redis' →
      f (fallback store.fallback).1 = g (fallback' store.fallback).1
        ∧ (⟨redis, (fallback store.fallback).2, retryAt⟩ : RedisRateLimitStore)
          = ⟨redis', (fallback' store.fallback).2, retryAt⟩ := by
    rintro redis _ retryAt rfl
    exact ⟨(hfallback _).1, by rw [(hfallback _).2]⟩
  simp only [RedisRateLimitStore.redisOrFallback]
  split
  · exact hfailed _ _ _ rfl
  · cases r with
    | unreachable => exact hfailed _ _ _ rfl
    | lost => exact hfailed _ _ _ (hcall _).2
    | answered =>
      obtain ⟨hresult, hredis⟩ := hcall store.redis
      simp only
      generalize call store.redis = x at hresult hredis ⊢
      generalize call' store.redis = y at hresult hredis ⊢
      obtain ⟨x, redis⟩ := x
      obtain ⟨y, redis'⟩ := y
      obtain rfl : redis = redis' := hredis
      cases x with
      | none =>
        cases y with
        | none => exact hfailed _ _ _ rfl
        | some result' => cases hresult
      | some result =>
        cases y with
        | none => cases hresult
        | some result' => exact ⟨Option.some.inj hresult, rfl⟩

theorem redisOrFallback_answer {α : Type} {P : α → Prop} {r : Reply}
    {call : Redis → Option α × Redis}
    {fallback : InMemoryRateLimitStore → α × InMemoryRateLimitStore}
    (hcall : ∀ redis result, (call redis).1 = some result → P result)
    (hfallback : ∀ memory, P (fallback memory).1) :
    P (store.redisOrFallback d now r call fallback).1 := by
  simp only [RedisRateLimitStore.redisOrFallback]
  split
  · exact hfallback _
  · cases r with
    | unreachable => exact hfallback _
    | lost => exact hfallback _
    | answered =>
      simp only
      rcases hres : call store.redis with ⟨_ | result, redis⟩
      · exact hfallback _
      · exact hcall store.redis result (congrArg Prod.fst hres)

/-- The code's store and the routed one between two calls: the same counts, and the same handles up
to their text. -/
structure Routed (r : Session RedisRateLimitStore Issued)
    (s : Session RedisRateLimitStore Handle) : Prop where
  store : s.store = r.store
  calls : s.calls = r.calls
  handles : ∀ i, s.handles i = (r.handles i).map Issued.text
  leases : ∀ i, s.leases i = (r.leases i).map Issued.text
  markedHandles : ∀ i issued, r.handles i = some issued → issued.Marked
  markedLeases : ∀ i issued, r.leases i = some issued → issued.Marked

variable {r : Session RedisRateLimitStore Issued} {s : Session RedisRateLimitStore Handle}

theorem Routed.start : Routed (.start .empty) (.start .empty) where
  store := rfl
  calls := rfl
  handles _ := rfl
  leases _ := rfl
  markedHandles _ _ h := by cases h
  markedLeases _ _ h := by cases h

theorem text_update {routed : ℕ → Option Issued} {handed : ℕ → Option Handle} {n : ℕ}
    {got : Option Issued} (h : ∀ i, handed i = (routed i).map Issued.text) :
    ∀ i, update handed n (got.map Issued.text) i = (update routed n got i).map Issued.text := by
  intro i
  by_cases hi : i = n
  · subst hi
    rw [update_self, update_self]
  · rw [update_of_ne hi, update_of_ne hi]
    exact h i

theorem marked_update {routed : ℕ → Option Issued} {n : ℕ} {got : Option Issued}
    (h : ∀ i issued, routed i = some issued → issued.Marked)
    (hgot : ∀ issued, got = some issued → issued.Marked) :
    ∀ i issued, update routed n got i = some issued → issued.Marked := by
  intro i issued hi
  by_cases hin : i = n
  · subst hin
    rw [update_self] at hi
    exact hgot issued hi
  · rw [update_of_ne hin] at hi
    exact h i issued hi

theorem memory_hit_handle {memory : InMemoryRateLimitStore} {cost : ℤ} {w : ℚ}
    {handle : Handle} (h : (memory.hit d now key limit w cost).1.handle = some handle) :
    handle ≠ [] := by
  obtain ⟨window, hwindow⟩ : ∃ window : RateLimitWindow,
      window = (memory.hit d now key limit w cost).1 := ⟨_, rfl⟩
  have hcases : window.handle = none ∨ window.handle = some (str memory.log.handles) := by
    rw [hwindow]
    simp only [InMemoryRateLimitStore.hit, SlidingWindowLog.hit]
    split
    · split
      · exact .inr rfl
      · exact .inl rfl
    · split
      · exact .inr rfl
      · exact .inl rfl
  rw [← hwindow] at h
  rcases hcases with hnone | hsome
  · rw [hnone] at h
    cases h
  · rw [hsome] at h
    rw [← Option.some.inj h]
    exact Nat.toDigits_ne_nil

theorem memory_acquire_lease {memory : InMemoryRateLimitStore} {lease : ℚ}
    {id handle : Handle} (h : (memory.acquire d id now key limit lease).1 = some handle) :
    handle = id := by
  obtain ⟨granted, hgranted⟩ : ∃ granted, granted = (memory.acquire d id now key limit lease).1 :=
    ⟨_, rfl⟩
  have hcases : granted = none ∨ granted = some id := by
    rw [hgranted]
    simp only [InMemoryRateLimitStore.acquire]
    split
    · split
      · exact .inl rfl
      · exact .inr rfl
    · split
      · exact .inl rfl
      · exact .inr rfl
  rw [← hgranted] at h
  rcases hcases with hnone | hsome
  · rw [hnone] at h
    cases h
  · rw [hsome] at h
    exact (Option.some.inj h).symm

theorem hit_same (huuid : Uuids uuid) (reply : ℕ → Reply) (n : ℕ) (now : ℤ)
    (store : RedisRateLimitStore) (key : Key) (limit cost : ℤ) (w : ℚ) :
    (redisStore d uuid reply).hit n store now key limit w cost
        = ((((routedStore d uuid reply).hit n store now key limit w cost).1.1,
            ((routedStore d uuid reply).hit n store now key limit w cost).1.2.map Issued.text),
          ((routedStore d uuid reply).hit n store now key limit w cost).2)
      ∧ ∀ issued, ((routedStore d uuid reply).hit n store now key limit w cost).1.2 = some issued →
        issued.Marked := by
  simp only [redisStore, routedStore, RedisRateLimitStore.hit]
  constructor
  · refine Prod.ext_iff.mpr ?_
    refine redisOrFallback_same (f := RateLimitWindow.answer)
      (g := fun answer : Answer × Option Issued => (answer.1, answer.2.map Issued.text)) ?_ ?_
    · intro redis
      refine ⟨?_, rfl⟩
      simp only [Option.map_map]
      refine congrArg (fun f => Option.map f _) (funext fun reply => ?_)
      obtain ⟨allowed, total, reset⟩ := reply
      cases allowed <;> rfl
    · intro memory
      refine ⟨?_, rfl⟩
      simp only [RateLimitWindow.answer, Option.map_map]
      rfl
  · refine redisOrFallback_answer
      (P := fun answer : Answer × Option Issued => ∀ issued : Issued, answer.2 = some issued →
        issued.Marked) ?_ ?_
    · rintro redis result hresult issued hissued
      obtain ⟨⟨allowed, total, reset⟩, -, rfl⟩ := Option.map_eq_some_iff.mp hresult
      cases allowed with
      | false => cases hissued
      | true =>
        rw [← Option.some.inj hissued]
        exact huuid.ofLocal _
    · intro memory issued hissued
      obtain ⟨handle, hhandle, rfl⟩ := Option.map_eq_some_iff.mp hissued
      exact memory_hit_handle hhandle

theorem acquire_same (huuid : Uuids uuid) (reply : ℕ → Reply) (n : ℕ) (now : ℤ)
    (store : RedisRateLimitStore) (key : Key) (limit : ℤ) (lease : ℚ) :
    (redisStore d uuid reply).acquire n store now key limit lease
        = (((routedStore d uuid reply).acquire n store now key limit lease).1.map Issued.text,
          ((routedStore d uuid reply).acquire n store now key limit lease).2)
      ∧ ∀ issued, ((routedStore d uuid reply).acquire n store now key limit lease).1 = some issued →
        issued.Marked := by
  simp only [redisStore, routedStore, RedisRateLimitStore.acquire]
  constructor
  · refine Prod.ext_iff.mpr ?_
    refine redisOrFallback_same (f := id) (g := Option.map Issued.text) ?_ ?_
    · intro redis
      refine ⟨?_, rfl⟩
      simp only [Option.map_map]
      refine congrArg (fun f => Option.map f _) (funext fun taken => ?_)
      cases taken <;> rfl
    · intro memory
      refine ⟨?_, rfl⟩
      simp only [id, Option.map_map]
      rfl
  · refine redisOrFallback_answer
      (P := fun answer : Option Issued => ∀ issued : Issued, answer = some issued →
        issued.Marked) ?_ ?_
    · rintro redis result hresult issued rfl
      obtain ⟨taken, -, htaken⟩ := Option.map_eq_some_iff.mp hresult
      cases taken with
      | false => cases htaken
      | true =>
        rw [← Option.some.inj htaken]
        exact huuid.ofLocal _
    · intro memory issued hissued
      obtain ⟨handle, hhandle, rfl⟩ := Option.map_eq_some_iff.mp hissued
      rw [memory_acquire_lease hhandle]
      exact (huuid.hex _).1

theorem routed_hit (huuid : Uuids uuid) (h : Routed r s) (key : Key) (limit cost : ℤ) :
    ((redisStore d uuid reply).step width s (now, .hit key limit cost)).1
        = ((routedStore d uuid reply).step width r (now, .hit key limit cost)).1
      ∧ Routed ((routedStore d uuid reply).step width r (now, .hit key limit cost)).2
        ((redisStore d uuid reply).step width s (now, .hit key limit cost)).2 := by
  obtain ⟨hsame, hmarked⟩ := hit_same huuid reply r.calls now r.store key limit cost
    (width key)
  rw [step_hit, step_hit, h.store, h.calls, hsame]
  exact ⟨rfl, rfl, rfl, text_update h.handles, h.leases, marked_update h.markedHandles hmarked,
    h.markedLeases⟩

theorem routed_acquire (huuid : Uuids uuid) (h : Routed r s) (key : Key) (limit : ℤ) (lease : ℚ) :
    ((redisStore d uuid reply).step width s (now, .acquire key limit lease)).1
        = ((routedStore d uuid reply).step width r (now, .acquire key limit lease)).1
      ∧ Routed ((routedStore d uuid reply).step width r (now, .acquire key limit lease)).2
        ((redisStore d uuid reply).step width s (now, .acquire key limit lease)).2 := by
  obtain ⟨hsame, hmarked⟩ := acquire_same huuid reply r.calls now r.store key limit lease
  rw [step_acquire, step_acquire, h.store, h.calls, hsame]
  refine ⟨?_, rfl, rfl, h.handles, text_update h.leases, h.markedHandles,
    marked_update h.markedLeases hmarked⟩
  rw [Option.isSome_map]

theorem settle_routed (h : Routed r s) (hi : r.handles i = some issued)
    (n : ℕ) (key : Key) (cost : ℤ) :
    (redisStore d uuid reply).settle n s.store now key issued.text cost
      = (routedStore d uuid reply).settle n r.store now key issued cost := by
  have hlocal := Issued.ofLocal_text (h.markedHandles i issued hi)
  rw [h.store]
  simp only [redisStore, routedStore, RedisRateLimitStore.settle, hlocal]
  cases issued <;> rfl

theorem release_routed (h : Routed r s) (hi : r.leases i = some issued) (n : ℕ) (key : Key) :
    (redisStore d uuid reply).release n s.store now key issued.text
      = (routedStore d uuid reply).release n r.store now key issued := by
  have hlocal := Issued.ofLocal_text (h.markedLeases i issued hi)
  rw [h.store]
  simp only [redisStore, routedStore, RedisRateLimitStore.release, hlocal]
  cases issued <;> rfl

theorem routed_settle (h : Routed r s) (key : Key) (entry : ℕ) (cost : ℤ) :
    ((redisStore d uuid reply).step width s (now, .settle key entry cost)).1
        = ((routedStore d uuid reply).step width r (now, .settle key entry cost)).1
      ∧ Routed ((routedStore d uuid reply).step width r (now, .settle key entry cost)).2
        ((redisStore d uuid reply).step width s (now, .settle key entry cost)).2 := by
  refine ⟨rfl, ?_, by rw [step_calls, step_calls, h.calls], h.handles, h.leases, h.markedHandles,
    h.markedLeases⟩
  simp only [Store.step, h.handles entry]
  cases hissued : r.handles entry with
  | none => exact h.store
  | some issued =>
    rw [h.calls]
    exact settle_routed h hissued _ key cost

theorem routed_release (h : Routed r s) (key : Key) (slot : ℕ) :
    ((redisStore d uuid reply).step width s (now, .release key slot)).1
        = ((routedStore d uuid reply).step width r (now, .release key slot)).1
      ∧ Routed ((routedStore d uuid reply).step width r (now, .release key slot)).2
        ((redisStore d uuid reply).step width s (now, .release key slot)).2 := by
  refine ⟨rfl, ?_, by rw [step_calls, step_calls, h.calls], h.handles, h.leases, h.markedHandles,
    h.markedLeases⟩
  simp only [Store.step, h.leases slot]
  cases hissued : r.leases slot with
  | none => exact h.store
  | some issued =>
    rw [h.calls]
    exact release_routed h hissued _ key

/-- **Whatever becomes of its calls to Redis, the store answers and counts as the one that sends
every handle to its issuer.** -/
theorem routed_run (huuid : Uuids uuid) (h : Routed r s) :
    ((redisStore d uuid reply).run width s calls).1 = ((routedStore d uuid reply).run width r calls).1
      ∧ Routed ((routedStore d uuid reply).run width r calls).2
        ((redisStore d uuid reply).run width s calls).2 := by
  induction calls generalizing r s with
  | nil => exact ⟨rfl, h⟩
  | cons call calls ih =>
    have hstep : ((redisStore d uuid reply).step width s call).1
          = ((routedStore d uuid reply).step width r call).1
        ∧ Routed ((routedStore d uuid reply).step width r call).2
          ((redisStore d uuid reply).step width s call).2 := by
      obtain ⟨now, call⟩ := call
      cases call with
      | hit key limit cost => exact routed_hit huuid h key limit cost
      | settle key entry cost => exact routed_settle h key entry cost
      | acquire key limit lease => exact routed_acquire huuid h key limit lease
      | release key slot => exact routed_release h key slot
    obtain ⟨hanswers, hrest⟩ := ih hstep.2
    simp only [Store.run]
    exact ⟨congrArg₂ List.cons hstep.1 hanswers, hrest⟩

/-! ### The refinement -/

/-- The same answer, but for times to wait that differ by no more than this. -/
def Answer.Near (error : ℚ) : Answer → Answer → Prop
  | .window allowed count reset, .window allowed' count' reset' =>
    allowed = allowed' ∧ count = count' ∧ |reset - reset'| ≤ error
  | answer, answer' => answer = answer'

theorem Answer.eq_of_near {a b : Answer} (h : a.Near 0 b) : a = b := by
  cases a <;> cases b <;> first | exact h | skip
  obtain ⟨hallowed, hcount, hreset⟩ := h
  rw [hallowed, hcount, sub_eq_zero.mp (abs_nonpos_iff.mp hreset)]

theorem near_of_alike {a b : Answer} (h : a.Alike d ε b) : (b.wholeMs.told d).Near (2 * ε + 1) a := by
  cases a <;> cases b <;> first | exact h.symm | (cases h; done) | skip
  rename_i reset _ _ reset'
  obtain ⟨hallowed, hcount, hreset, hwhole⟩ := h
  refine ⟨hallowed.symm, hcount.symm, ?_⟩
  have hle := Int.le_ceil reset'
  have hlt := Int.ceil_lt_add_one reset'
  rw [abs_le] at hreset hwhole ⊢
  constructor <;> linarith [hreset.1, hreset.2, hwhole.1, hwhole.2]

theorem near_of_whole {a b : Answer} (h : a.Alike d ε b) (hb : b.wholeMs = b) :
    (b.told d).Near (2 * ε) a := by
  cases a <;> cases b <;> first | exact h.symm | (cases h; done) | skip
  rename_i reset _ _ reset'
  obtain ⟨hallowed, hcount, hreset, hwhole⟩ := h
  refine ⟨hallowed.symm, hcount.symm, ?_⟩
  have hceil : (⌈reset'⌉ : ℚ) = reset' := (Answer.window.inj hb).2.2
  rw [hceil] at hwhole
  rw [abs_le] at hreset hwhole ⊢
  constructor <;> linarith [hreset.1, hreset.2, hwhole.1, hwhole.2]

theorem forall₂_near {answers' : List Answer} (h : List.Forall₂ (Answer.Alike d ε) answers answers') :
    List.Forall₂ (Answer.Near (2 * ε + 1)) ((answers'.map Answer.wholeMs).map (Answer.told d))
      answers := by
  induction h with
  | nil => exact .nil
  | cons halike _ ih => exact .cons (near_of_alike halike) ih

theorem forall₂_near_whole {answers' : List Answer}
    (h : List.Forall₂ (Answer.Alike d ε) answers answers')
    (hwhole : answers'.map Answer.wholeMs = answers') :
    List.Forall₂ (Answer.Near (2 * ε)) (answers'.map (Answer.told d)) answers := by
  induction h with
  | nil => exact .nil
  | cons halike _ ih =>
    obtain ⟨hfirst, hrest⟩ := List.cons.inj hwhole
    exact .cons (near_of_whole halike hfirst) (ih hrest)

theorem memory_wholeMs (hwidth : ∀ key, width key = ⌈width key⌉)
    {m : Session InMemoryRateLimitStore Handle} :
    ((memoryStore exactly uuid).run width m calls).1.map Answer.wholeMs
      = ((memoryStore exactly uuid).run width m calls).1 := by
  induction calls generalizing m with
  | nil => rfl
  | cons call calls ih =>
    simp only [Store.run, map_cons]
    refine congrArg₂ List.cons ?_ ih
    obtain ⟨now, call⟩ := call
    cases call with
    | settle key entry cost => rfl
    | acquire key limit lease => rfl
    | release key slot => rfl
    | hit key limit cost =>
      have hreset : ∀ es, ((⌈resetIn exactly now (width key) es⌉ : ℤ) : ℚ)
          = resetIn exactly now (width key) es := by
        intro es
        rw [hwidth key]
        cases es with
        | nil => simp [resetIn]
        | cons e es =>
          simp only [resetIn, exactly_seconds]
          rw [Int.ceil_sub_intCast, Int.ceil_intCast_add, Int.ceil_intCast]
          push_cast
          rfl
      have hanswer : ∀ window : RateLimitWindow,
          (∃ es, window.resetAfter = resetIn exactly now (width key) es) →
          window.answer.1.wholeMs = window.answer.1 := by
        rintro ⟨allowed, count, reset, handle⟩ ⟨es, rfl⟩
        simp only [RateLimitWindow.answer, Answer.wholeMs, hreset]
      rw [step_hit]
      refine hanswer (m.store.hit exactly now key limit (width key) cost).1 ?_
      simp only [InMemoryRateLimitStore.hit, SlidingWindowLog.hit]
      split
      · split <;> exact ⟨_, rfl⟩
      · split <;> exact ⟨_, rfl⟩

/-- What a call on something handed out leaves alone: the store that did not issue it. -/
def OtherUntouched (issued : Option Issued) (before after : RedisRateLimitStore) : Prop :=
  match issued with
  | none => after = before
  | some (.redis _) => after.fallback = before.fallback
  | some (.memory _) => after.redis = before.redis

theorem noop_fallback {r : Reply} {call : Redis → Option Unit × Redis} :
    (store.redisOrFallback d now r call RedisRateLimitStore.noop).2.fallback = store.fallback := by
  simp only [RedisRateLimitStore.redisOrFallback]
  split
  · rfl
  · cases r with
    | unreachable => rfl
    | lost => rfl
    | answered =>
      simp only
      rcases call store.redis with ⟨_ | result, redis⟩ <;> rfl

theorem settle_untouched (h : Routed r s) (key : Key) (entry : ℕ) (cost : ℤ) :
    OtherUntouched (r.handles entry) s.store
      ((redisStore d uuid reply).step width s (now, .settle key entry cost)).2.store := by
  simp only [Store.step, h.handles entry]
  cases hissued : r.handles entry with
  | none => rfl
  | some issued =>
    simp only [Option.map_some]
    rw [settle_routed h hissued, h.store]
    cases issued with
    | redis handle => exact noop_fallback
    | memory handle => rfl

theorem release_untouched (h : Routed r s) (key : Key) (slot : ℕ) :
    OtherUntouched (r.leases slot) s.store
      ((redisStore d uuid reply).step width s (now, .release key slot)).2.store := by
  simp only [Store.step, h.leases slot]
  cases hissued : r.leases slot with
  | none => rfl
  | some issued =>
    simp only [Option.map_some]
    rw [release_routed h hissued, h.store]
    cases issued with
    | redis handle => exact noop_fallback
    | memory handle => rfl

theorem redis_answers (huuid : Uuids uuid) (hcalls : calls.Pairwise fun a b => a.1 ≤ b.1)
    (hrange : InRange width calls) (hasked : ∀ call ∈ calls, call.2.Asked d width) :
    ((upStore d uuid).run width (.start .empty) calls).1
      = (((memoryStore exactly uuid).run width (.start .empty) calls).1.map Answer.wholeMs).map
        (Answer.told d) := by
  obtain ⟨T, -, hT⟩ := exists_start hcalls 0
  rw [memory_run huuid.inj hcalls hT .start .start]
  exact redis_run huuid hcalls hT .start .start (.empty hrange.charges) hrange.small hasked

/-- **The Redis store refines the in-process one.**  In range, and where doubles tell the calls'
instants, the two answer alike, the time to wait within what doubles round and, for widths that are not
whole, within a millisecond; on neither are more slots in flight under a limit than the limit; and
whatever becomes of the calls to Redis, each handle and lease is settled or released only by the store
that issued it, and leaves the other one untouched. -/
theorem redis_refines_memory (huuid : Uuids uuid) (hcalls : calls.Pairwise fun a b => a.1 ≤ b.1) :
    (∀ ε, Told doubles ε width calls → InRange width calls → List.Forall₂ (Answer.Near (2 * ε + 1))
          ((upStore doubles uuid).run width (.start .empty) calls).1
          ((memoryStore doubles uuid).run width (.start .empty) calls).1
        ∧ ((∀ key, width key = ⌈width key⌉) → List.Forall₂ (Answer.Near (2 * ε))
            ((upStore doubles uuid).run width (.start .empty) calls).1
            ((memoryStore doubles uuid).run width (.start .empty) calls).1))
      ∧ (∀ ε, Told doubles ε width calls → ∀ key limit now, (∀ call ∈ calls, call.1 ≤ now) →
        (heldSlots calls ((memoryStore doubles uuid).run width (.start .empty) calls).1 key limit
            now).length ≤ limit.toNat ∧ (InRange width calls →
            (heldSlots calls ((upStore doubles uuid).run width (.start .empty) calls).1 key limit
                now).length ≤ limit.toNat)) ∧ ∀ reply,
        ((redisStore doubles uuid reply).run width (.start .empty) calls).1
            = ((routedStore doubles uuid reply).run width (.start .empty) calls).1
          ∧ Routed ((routedStore doubles uuid reply).run width (.start .empty) calls).2
            ((redisStore doubles uuid reply).run width (.start .empty) calls).2 ∧ ∀ now key i cost,
            OtherUntouched
                (((routedStore doubles uuid reply).run width (.start .empty) calls).2.handles i)
                ((redisStore doubles uuid reply).run width (.start .empty) calls).2.store
                ((redisStore doubles uuid reply).step width
                  ((redisStore doubles uuid reply).run width (.start .empty) calls).2
                  (now, .settle key i cost)).2.store ∧ OtherUntouched
                (((routedStore doubles uuid reply).run width (.start .empty) calls).2.leases i)
                ((redisStore doubles uuid reply).run width (.start .empty) calls).2.store
                ((redisStore doubles uuid reply).step width
                  ((redisStore doubles uuid reply).run width (.start .empty) calls).2
                  (now, .release key i)).2.store := by
  refine ⟨fun ε htold hrange => ?_, fun ε htold key limit now hnow => ?_, fun reply => ?_⟩
  · -- both stores are compared with the ledger: Redis answers it in whole milliseconds
    have hanswers := redis_answers huuid hcalls hrange htold.asked
    have halike := memory_alike uuid htold
    refine ⟨hanswers ▸ forall₂_near halike, fun hwidth => ?_⟩
    have hwhole : ((memoryStore exactly uuid).run width (.start .empty) calls).1.map Answer.wholeMs
        = ((memoryStore exactly uuid).run width (.start .empty) calls).1 := memory_wholeMs hwidth
    rw [hanswers, hwhole]
    exact forall₂_near_whole halike hwhole
  · -- the slots held depend on the answers alone, and the ledger never grants one too many
    obtain ⟨T, -, hT⟩ := exists_start hcalls now
    have halike := memory_alike uuid htold
    have hmemory : ((memoryStore exactly uuid).run width (.start .empty) calls).1.map Answer.wholeMs
        = (ledgerStore.run width (.start .empty) calls).1 :=
      memory_run huuid.inj hcalls hT .start .start
    have hheld : (heldSlots calls
        (((memoryStore exactly uuid).run width (.start .empty) calls).1.map Answer.wholeMs) key limit
          now).length ≤ limit.toNat := by
      rw [hmemory]
      exact heldSlots_le hcalls hnow
    refine ⟨?_, fun hrange => ?_⟩
    · rw [heldSlots_alike halike, ← heldSlots_map wholeMs_eq_slot]
      exact hheld
    · rw [redis_answers huuid hcalls hrange htold.asked, heldSlots_map told_eq_slot]
      exact hheld
  · obtain ⟨hanswers, hrouted⟩ := routed_run huuid Routed.start
    exact ⟨hanswers, hrouted, fun now key i cost =>
      ⟨settle_untouched hrouted key i cost, release_untouched hrouted key i⟩⟩

def paddedId (n : ℕ) : Handle :=
  List.replicate (32 - (Nat.toDigits 10 n).length) '0' ++ Nat.toDigits 10 n

theorem paddedId_uuids : Uuids paddedId where
  inj a b h := by
    have hdigits : ∀ n, Nat.ofDigitChars 10 (paddedId n) 0 = n := by
      intro n
      rw [paddedId, Nat.ofDigitChars_append, Nat.ofDigitChars_replicate_zero, Nat.mul_zero,
        Nat.ofDigitChars_ten_toDigits]
    rw [← hdigits a, h, hdigits]
  hex n := by
    refine ⟨fun h => Nat.toDigits_ne_nil (append_eq_nil_iff.mp h).2, fun c hc => ?_⟩
    rcases mem_append.mp hc with hc | hc
    · rw [eq_of_mem_replicate hc]
      decide
    · exact .inl (Nat.isDigit_of_mem_toDigits (by decide) (by decide) hc)

/-- What the witness's calls do: they fill a window, let it empty and take a slot twice. -/
def eighths : List (ℤ × Call) :=
  [(0, .hit "a" 10 6), (125, .settle "a" 0 9), (250, .hit "a" 10 3), (60250, .hit "a" 10 3),
    (60375, .acquire "b" 1 250), (60500, .acquire "b" 1 250), (60625, .acquire "b" 1 250)]

theorem at_eighths {t : ℤ} (h : At eighths t) :
    t ∈ ([0, 125, 250, 60250, 60375, 60500, 60625] : List ℤ) := by
  obtain ⟨call, hcall, rfl⟩ := h
  exact mem_map_of_mem hcall

theorem noted_minute {w : ℚ} (h : Noted (fun _ => 60000) w) : w ∈ ([0, 60000] : List ℚ) := by
  rcases h with rfl | ⟨key, rfl⟩ <;> simp

theorem told_eighths : Told doubles 0 (fun _ => 60000) eighths where
  window t now w ht hnow hw := by
    have hall : ∀ t ∈ ([0, 125, 250, 60250, 60375, 60500, 60625] : List ℤ),
        ∀ now ∈ ([0, 125, 250, 60250, 60375, 60500, 60625] : List ℤ), ∀ w ∈ ([0, 60000] : List ℚ),
        (doubles.seconds t ≤ doubles.seconds (doubles.seconds now - w) ↔ (t : ℚ) ≤ now - w) := by
      decide +kernel
    exact hall t (at_eighths ht) now (at_eighths hnow) w (noted_minute hw)
  lease t now length ht hnow hlength := by
    have hall : ∀ t ∈ ([0, 125, 250, 60250, 60375, 60500, 60625] : List ℤ),
        ∀ now ∈ ([0, 125, 250, 60250, 60375, 60500, 60625] : List ℤ),
        (doubles.seconds (doubles.seconds t + 250) ≤ doubles.seconds now ↔ (t : ℚ) + 250 ≤ now) := by
      decide +kernel
    obtain ⟨at', key, limit, hcall⟩ := hlength
    have hlength : length = 250 := by
      simp only [eighths, List.mem_cons, Prod.mk.injEq, reduceCtorEq, and_false, false_or,
        Call.acquire.injEq, not_mem_nil, or_false] at hcall
      rcases hcall with h | h | h <;> exact h.2.2.2
    rw [hlength]
    exact hall t (at_eighths ht) now (at_eighths hnow)
  waits t now key ht hnow := by
    have hall : ∀ t ∈ ([0, 125, 250, 60250, 60375, 60500, 60625] : List ℤ),
        ∀ now ∈ ([0, 125, 250, 60250, 60375, 60500, 60625] : List ℤ),
        |doubles.seconds (doubles.seconds (doubles.seconds t + 60000) - doubles.seconds now)
          - (t + 60000 - now)| ≤ 0 := by
      decide +kernel
    exact hall t (at_eighths ht) now (at_eighths hnow)
  whole t now key ht hnow := by
    have hall : ∀ t ∈ ([0, 125, 250, 60250, 60375, 60500, 60625] : List ℤ),
        ∀ now ∈ ([0, 125, 250, 60250, 60375, 60500, 60625] : List ℤ),
        |doubles.seconds ((t + ⌈(60000 : ℚ)⌉ - now : ℤ) : ℚ) - (t + ⌈(60000 : ℚ)⌉ - now : ℤ)| ≤ 0 ∧
          |doubles.seconds ⌈(60000 : ℚ)⌉ - ⌈(60000 : ℚ)⌉| ≤ 0 := by
      decide +kernel
    exact hall t (at_eighths ht) now (at_eighths hnow)
  asked call hcall := by
    simp only [eighths, List.mem_cons, not_mem_nil, or_false] at hcall
    rcases hcall with rfl | rfl | rfl | rfl | rfl | rfl | rfl <;> unfold Call.Asked <;> decide +kernel

/-- The refinement at a run that fills a window, lets it empty and takes a slot twice. -/
theorem redis_refines_memory_run :
    ((upStore doubles paddedId).run (fun _ => 60000) (.start .empty) eighths).1
      = ((memoryStore doubles paddedId).run (fun _ => 60000) (.start .empty) eighths).1 := by
  have hnear := ((redis_refines_memory paddedId_uuids (by simp [eighths])).1 0 told_eighths
    ⟨?_, ?_⟩).2 ?_
  · rw [mul_zero] at hnear
    exact List.forall₂_eq_eq_eq ▸ hnear.imp fun _ _ => Answer.eq_of_near
  · simp only [eighths, List.forall_mem_cons, Call.Small]
    norm_num
  · intro key
    simp only [eighths, charged, List.map_cons, List.map_nil, List.sum_cons, List.sum_nil, Call.charge]
    split_ifs <;> norm_num
  · intro key
    norm_num

/-- In this process 60001 ms less a minute is told as before 1 ms; a double rounds a cost just over the
limit down to it, and Redis counts in whole milliseconds: there the two stores answer differently. -/
theorem stores_differ : ((upStore doubles paddedId).run (fun _ => 60000) (.start .empty)
          [(1, .hit "k" 1 1), (60001, .hit "k" 1 1)]).1
        ≠ ((memoryStore doubles paddedId).run (fun _ => 60000) (.start .empty)
          [(1, .hit "k" 1 1), (60001, .hit "k" 1 1)]).1
      ∧ ((upStore doubles paddedId).run (fun _ => 60000) (.start .empty)
          [(0, .hit "k" (2 ^ 53) (2 ^ 53 + 1))]).1
        ≠ ((memoryStore doubles paddedId).run (fun _ => 60000) (.start .empty)
          [(0, .hit "k" (2 ^ 53) (2 ^ 53 + 1))]).1
      ∧ ((upStore doubles paddedId).run (fun _ => 1 / 2) (.start .empty) [(0, .hit "k" 1 1)]).1
        ≠ ((memoryStore doubles paddedId).run (fun _ => 1 / 2) (.start .empty) [(0, .hit "k" 1 1)]).1 := by
  decide +kernel

end Otari.RateLimit
