import Otari.Network.PinnedTransport

/-!
# Network — PinnedLeases — leases are conserved

The leases held are those of the requests in flight and of the streams not yet closed
(`Traffic.held`).  The pools are balanced against them (`Balanced`): each is as active as it has
holders, and each lease taken is held once or was released once.  A pool is acquired and released
against one more and one fewer holder, and a step moves a lease from its task to its stream, so every
state of a transport is balanced (`leases_conserved`).
-/

namespace Otari.Network
open List

/-! ### Who holds a lease -/

def Phase.lease : Phase → Option Lease
  | .evicting lease _ _ => some lease
  | .dialing lease _ _ => some lease
  | .returned _ => none
  | .raised _ => none

def PinnedTask.lease (task : PinnedTask) : Option Lease := task.phase.lease

def LeasedStream.held (stream : LeasedStream) : Option Lease :=
  if stream.phase = .closed then none else some stream.lease

def Traffic.held (s : Traffic) : List Lease :=
  s.tasks.filterMap PinnedTask.lease ++ s.streams.filterMap LeasedStream.held

/-- The pools against the leases held. -/
structure Balanced (maxPools : ℕ) (t : PinnedTransport) (held : List Lease) : Prop where
  active : ∀ (entry : ℕ) n, t.entries[entry]? = some n → n = held.countP (·.entry = entry)
  known : ∀ lease ∈ held, lease.entry < t.entries.length
  once : (held.map (·.id) ++ t.released).Perm (List.range t.leased)
  bounded : t.pools.length ≤ maxPools
  keys : (t.pools.map Prod.fst).Nodup
  entries : (t.pools.map Prod.snd).Nodup
  pooled : ∀ pool ∈ t.pools, pool.2 < t.entries.length
  evicted : ∀ entry ∈ t.evicted, t.entries[entry]? = some 0 ∧ entry ∉ t.pools.map Prod.snd

/-! ### The pools of a transport -/

theorem perm_cons_filter {pools : List (PoolKey × ℕ)} (h : (pools.map Prod.fst).Nodup)
    {pool : PoolKey × ℕ} (hmem : pool ∈ pools) :
    (pool :: pools.filter (·.1 ≠ pool.1)).Perm pools := by
  induction pools with
  | nil => cases hmem
  | cons other pools ih =>
    rw [map_cons, nodup_cons] at h
    rcases mem_cons.mp hmem with rfl | hmem
    · have hothers : pools.filter (·.1 ≠ pool.1) = pools := by
        refine filter_eq_self.mpr fun p hp => decide_eq_true fun he => h.1 ?_
        exact mem_map.mpr ⟨p, hp, he⟩
      rw [filter_cons_of_neg (by simp), hothers]
    · have hne : other.1 ≠ pool.1 := by
        intro he
        exact h.1 (mem_map.mpr ⟨pool, hmem, he.symm⟩)
      rw [filter_cons_of_pos (by simpa using hne)]
      exact (List.Perm.swap other pool _).trans ((ih h.2 hmem).cons other)

theorem mem_of_lookup {pools : List (PoolKey × ℕ)} {key : PoolKey} {entry : ℕ}
    (h : pools.lookup key = some entry) : (key, entry) ∈ pools := by
  obtain ⟨before, after, rfl, -⟩ := lookup_eq_some_iff.mp h
  exact mem_append_right _ mem_cons_self

theorem moveToEnd_perm {t : PinnedTransport} (h : (t.pools.map Prod.fst).Nodup) {key : PoolKey}
    {entry : ℕ} (hkey : t.pools.lookup key = some entry) :
    (t.moveToEnd key entry).pools.Perm t.pools := by
  refine List.Perm.trans ?_ (perm_cons_filter h (mem_of_lookup hkey))
  exact perm_append_singleton _ _

namespace Balanced
variable {maxPools : ℕ} {t : PinnedTransport} {held held' : List Lease}

theorem perm (h : Balanced maxPools t held) (hp : held.Perm held') : Balanced maxPools t held' where
  active entry n hn := by rw [h.active entry n hn, hp.countP_eq]
  known lease hl := h.known lease (hp.symm.mem_iff.mp hl)
  once := ((hp.map _).append_right _).symm.trans h.once
  bounded := h.bounded
  keys := h.keys
  entries := h.entries
  pooled := h.pooled
  evicted := h.evicted

theorem reorder (h : Balanced maxPools t held) {pools : List (PoolKey × ℕ)}
    (hp : pools.Perm t.pools) : Balanced maxPools { t with pools := pools } held where
  active := h.active
  known := h.known
  once := h.once
  bounded := hp.length_eq.trans_le h.bounded
  keys := ((hp.map _).nodup_iff).mpr h.keys
  entries := ((hp.map _).nodup_iff).mpr h.entries
  pooled pool hpool := h.pooled pool (hp.mem_iff.mp hpool)
  evicted entry he := ⟨(h.evicted entry he).1, fun hmem => (h.evicted entry he).2
    ((hp.map Prod.snd).mem_iff.mp hmem)⟩

theorem lease (h : Balanced maxPools t held) {key : PoolKey} {entry : ℕ}
    (hmem : entry ∈ t.pools.map Prod.snd) :
    Balanced maxPools (t.lease key entry).2 ((t.lease key entry).1 :: held) where
  active other n hn := by
    simp only [PinnedTransport.lease, List.getElem?_modify] at hn
    simp only [PinnedTransport.lease, countP_cons]
    obtain ⟨m, hm, rfl⟩ := Option.map_eq_some_iff.mp hn
    rw [h.active other m hm]
    by_cases he : entry = other
    · simp [he]
    · simp [he]
  known lease hl := by
    simp only [PinnedTransport.lease, length_modify]
    rcases mem_cons.mp hl with rfl | hl
    · obtain ⟨pool, hpool, rfl⟩ := mem_map.mp hmem
      exact h.pooled pool hpool
    · exact h.known lease hl
  once := by
    simp only [PinnedTransport.lease, map_cons, range_succ]
    exact (h.once.cons _).trans (perm_append_singleton _ _).symm
  bounded := h.bounded
  keys := h.keys
  entries := h.entries
  pooled pool hpool := by
    simp only [PinnedTransport.lease, length_modify]
    exact h.pooled pool hpool
  evicted other hother := by
    obtain ⟨hzero, hnot⟩ := h.evicted other hother
    refine ⟨?_, hnot⟩
    have hne : entry ≠ other := fun he => hnot (he ▸ hmem)
    simp only [PinnedTransport.lease]
    rw [List.getElem?_modify_ne _ _ hne]
    exact hzero

theorem addPool (h : Balanced maxPools t held) (hroom : t.pools.length < maxPools) {key : PoolKey}
    (hkey : key ∉ t.pools.map Prod.fst) : Balanced maxPools { t with
      pools := t.pools ++ [(key, t.entries.length)]
      entries := t.entries ++ [0] } held where
  active entry n hn := by
    rcases lt_trichotomy entry t.entries.length with hlt | rfl | hlt
    · rw [List.getElem?_append_left hlt] at hn
      exact h.active entry n hn
    · obtain rfl : 0 = n := by simpa using hn
      have hnone : held.countP (·.entry = t.entries.length) = 0 := by
        refine countP_eq_zero.mpr fun lease hl => ?_
        have hknown := h.known lease hl
        simp only [decide_eq_true_eq]
        omega
      simp [hnone]
    · rw [List.getElem?_eq_none (by simpa using hlt)] at hn
      cases hn
  known lease hl := by
    rw [length_append]
    exact (h.known lease hl).trans_le (Nat.le_add_right _ _)
  once := h.once
  bounded := by
    rw [length_append]
    exact hroom
  keys := by
    rw [map_append, nodup_append]
    refine ⟨h.keys, by simp, ?_⟩
    rintro k hk _ hk' rfl
    obtain rfl := mem_singleton.mp hk'
    exact hkey hk
  entries := by
    rw [map_append, nodup_append]
    refine ⟨h.entries, by simp, ?_⟩
    rintro entry he _ he' rfl
    obtain ⟨pool, hpool, rfl⟩ := mem_map.mp he
    rw [map_singleton, mem_singleton] at he'
    exact absurd (h.pooled pool hpool) (by simp [he'])
  pooled pool hpool := by
    rw [length_append, length_singleton]
    rcases mem_append.mp hpool with hpool | hpool
    · exact (h.pooled pool hpool).trans (Nat.lt_succ_self _)
    · rw [mem_singleton.mp hpool]
      exact Nat.lt_succ_self _
  evicted entry he := by
    obtain ⟨hzero, hnot⟩ := h.evicted entry he
    have hlt : entry < t.entries.length := (List.getElem?_eq_some_iff.mp hzero).1
    refine ⟨?_, fun hmem => ?_⟩
    · rw [List.getElem?_append_left hlt]
      exact hzero
    · rw [map_append, mem_append, map_singleton, mem_singleton] at hmem
      exact hmem.elim hnot fun heq => absurd hlt (by simp [heq])

theorem evict (h : Balanced maxPools t held) {candidate : PoolKey × ℕ} (hmem : candidate ∈ t.pools)
    (hidle : t.entries[candidate.2]? = some 0) : Balanced maxPools (t.evict candidate) held ∧
      (t.evict candidate).pools.length < t.pools.length := by
  have hperm := perm_cons_filter h.keys hmem
  have hsub : (t.evict candidate).pools.Sublist t.pools := filter_sublist
  have hlength : (t.evict candidate).pools.length < t.pools.length := by
    rw [← hperm.length_eq, length_cons]
    exact Nat.lt_succ_self _
  refine ⟨⟨h.active, h.known, h.once, hlength.le.trans h.bounded, h.keys.sublist (hsub.map _),
    h.entries.sublist (hsub.map _), fun pool hpool => h.pooled pool (hsub.mem hpool), ?_⟩, hlength⟩
  intro entry he
  rcases mem_append.mp he with he | he
  · obtain ⟨hzero, hnot⟩ := h.evicted entry he
    exact ⟨hzero, fun hmem => hnot ((hsub.map _).mem hmem)⟩
  · rw [mem_singleton.mp he]
    refine ⟨hidle, ?_⟩
    have hnodup := (hperm.map Prod.snd).nodup_iff.mpr h.entries
    rw [map_cons, nodup_cons] at hnodup
    exact hnodup.1

/-- **Acquiring takes one lease**, or none where it raises. -/
theorem acquirePool (h : Balanced maxPools t held) (key : PoolKey) (factoryRaises : Bool) :
    (∀ lease evicted t', t.acquirePool maxPools key factoryRaises = (.ok (lease, evicted), t') →
      Balanced maxPools t' (lease :: held)) ∧
    ∀ e t', t.acquirePool maxPools key factoryRaises = (.error e, t') →
      Balanced maxPools t' held := by
  have hadd : ∀ {t : PinnedTransport}, Balanced maxPools t held → t.pools.length < maxPools →
      key ∉ t.pools.map Prod.fst → ∀ evicted,
      (∀ lease evicted' t', t.addPool key factoryRaises evicted = (.ok (lease, evicted'), t') →
        Balanced maxPools t' (lease :: held)) ∧
      ∀ e t', t.addPool key factoryRaises evicted = (.error e, t') → Balanced maxPools t' held := by
    intro t h hroom hkey evicted
    unfold PinnedTransport.addPool
    cases factoryRaises with
    | true =>
      refine ⟨fun _ _ _ he => (by cases he), fun e t' he => ?_⟩
      cases he
      exact h
    | false =>
      refine ⟨fun lease evicted' t' he => ?_, fun _ _ he => (by cases he)⟩
      cases he
      exact (h.addPool hroom hkey).lease (by simp)
  unfold PinnedTransport.acquirePool
  by_cases hclosed : t.closed = true
  · rw [if_pos hclosed]
    refine ⟨fun _ _ _ he => (by cases he), fun e t' he => ?_⟩
    cases he
    exact h
  · rw [if_neg hclosed]
    cases hkey : t.pools.lookup key with
    | some entry =>
      refine ⟨fun lease evicted t' he => ?_, fun _ _ he => (by cases he)⟩
      cases he
      have hperm := moveToEnd_perm h.keys hkey
      refine (h.reorder hperm).lease ((hperm.map Prod.snd).mem_iff.mpr ?_)
      exact mem_map.mpr ⟨_, mem_of_lookup hkey, rfl⟩
    | none =>
      have hnot : key ∉ t.pools.map Prod.fst := by
        intro hmem
        obtain ⟨pool, hpool, rfl⟩ := mem_map.mp hmem
        have hne := lookup_eq_none_iff.mp hkey pool hpool
        simp at hne
      dsimp only
      by_cases hfull : maxPools ≤ t.pools.length
      · rw [if_pos hfull]
        cases hfind : t.pools.find? fun pool => t.entries[pool.2]? = some 0 with
        | none =>
          refine ⟨fun _ _ _ he => (by cases he), fun e t' he => ?_⟩
          cases he
          exact h
        | some candidate =>
          have hmem := mem_of_find?_eq_some hfind
          have hidle : t.entries[candidate.2]? = some 0 := by
            simpa using List.find?_some hfind
          obtain ⟨hevicted, hlength⟩ := h.evict hmem hidle
          refine hadd hevicted (hlength.trans_le h.bounded) (fun hkeys => hnot ?_) _
          exact (filter_sublist.map _).mem hkeys
      · rw [if_neg hfull]
        exact hadd h (not_le.mp hfull) hnot _

/-- **Releasing ends one lease.** -/
theorem releasePool {lease : Lease} (h : Balanced maxPools t (lease :: held)) :
    Balanced maxPools (t.releasePool lease) held := by
  have hreleased : Balanced maxPools { t with
      entries := t.entries.modify lease.entry (· - 1)
      released := t.released ++ [lease.id] } held := by
    refine ⟨fun entry n hn => ?_, fun other hl => ?_, ?_, h.bounded, h.keys, h.entries,
      fun pool hpool => ?_, fun entry he => ?_⟩
    · rw [List.getElem?_modify] at hn
      obtain ⟨m, hm, rfl⟩ := Option.map_eq_some_iff.mp hn
      have hactive := h.active entry m hm
      rw [countP_cons] at hactive
      by_cases heq : lease.entry = entry
      · simp [heq, hactive]
      · simp [heq, hactive]
    · rw [length_modify]
      exact h.known other (mem_cons_of_mem _ hl)
    · rw [← append_assoc]
      refine (perm_append_singleton _ _).trans ?_
      simpa using h.once
    · rw [length_modify]
      exact h.pooled pool hpool
    · obtain ⟨hzero, hnot⟩ := h.evicted entry he
      refine ⟨?_, hnot⟩
      have hne : lease.entry ≠ entry := by
        intro heq
        have hactive := h.active entry 0 hzero
        rw [countP_cons, if_pos (by simpa using heq)] at hactive
        omega
      rw [List.getElem?_modify_ne _ _ hne]
      exact hzero
  unfold PinnedTransport.releasePool
  dsimp only
  split
  · rename_i hkey
    exact hreleased.reorder (moveToEnd_perm h.keys hkey)
  · exact hreleased

end Balanced

/-! ### One step -/

theorem perm_filterMap_set {α β : Type*} (f : α → Option β) {l : List α} {i : ℕ} {a : α}
    (h : l[i]? = some a) (b : α) : ∃ rest, (l.filterMap f).Perm ((f a).toList ++ rest) ∧
      ((l.set i b).filterMap f).Perm ((f b).toList ++ rest) := by
  obtain ⟨hi, rfl⟩ := List.getElem?_eq_some_iff.mp h
  obtain ⟨before, after, hl, -, hset⟩ := @exists_of_set _ i b l hi
  have hsplit : ∀ c, ((before ++ c :: after).filterMap f).Perm
      ((f c).toList ++ (before.filterMap f ++ after.filterMap f)) := by
    intro c
    have hcons : (c :: after).filterMap f = (f c).toList ++ after.filterMap f := by
      cases hc : f c <;> simp [hc]
    rw [filterMap_append, hcons, ← append_assoc, ← append_assoc]
    exact perm_append_comm.append_right _
  refine ⟨before.filterMap f ++ after.filterMap f, ?_, ?_⟩
  · conv_lhs => rw [hl]
    exact hsplit _
  · rw [hset]
    exact hsplit b

section
variable {settings : TransportSettings}

/-- `URL.copy_with` does not raise where the host is an address. -/
def TransportSettings.CopiesAddresses (settings : TransportSettings) : Prop :=
  ∀ url address, (settings.withHost url (settings.text address)).isSome = true

variable {t t' : PinnedTransport} {held : List Lease}

theorem delegate_lease (hcopies : settings.CopiesAddresses) (request : Request)
    (target : ValidatedTarget) (lease : Lease) (address : IPAddress) (rest : List IPAddress) :
    (delegate settings request target lease address rest).lease = some lease := by
  obtain ⟨url, hurl⟩ := Option.isSome_iff_exists.mp (hcopies request.url address)
  simp [delegate, hurl, Phase.lease]

theorem tryAddresses_balanced (hcopies : settings.CopiesAddresses)
    (h : Balanced settings.maxPools t held) (request : Request) (target : ValidatedTarget)
    (lastConnectError factoryRaises : Bool) (addresses : List IPAddress) :
    let r := tryAddresses settings request target lastConnectError factoryRaises t addresses
    Balanced settings.maxPools r.2 (r.1.lease.toList ++ held) := by
  intro r
  cases addresses with
  | nil =>
    cases lastConnectError <;> exact h
  | cons address rest =>
    obtain ⟨hok, herror⟩ := h.acquirePool (poolKey settings target address) factoryRaises
    simp only [r, tryAddresses]
    cases hacquired : t.acquirePool settings.maxPools (poolKey settings target address)
      factoryRaises with
    | mk result t₁ =>
      cases result with
      | error e => exact herror e t₁ hacquired
      | ok acquired =>
        obtain ⟨lease, evicted⟩ := acquired
        have hleased := hok lease evicted t₁ hacquired
        cases evicted with
        | some entry => exact hleased
        | none =>
          simp only [delegate_lease hcopies]
          exact hleased

variable {task : PinnedTask}

theorem handleAsyncRequest_balanced (hcopies : settings.CopiesAddresses)
    (h : Balanced settings.maxPools t held) {request : Request} {factoryRaises : Bool}
    (hs : handleAsyncRequest settings request factoryRaises t = .ok (task, t')) :
    Balanced settings.maxPools t' (task.lease.toList ++ held) := by
  unfold handleAsyncRequest at hs
  split at hs
  · cases hs
  · cases htarget : targetFromRequest settings.allowedMethods request with
    | error e =>
      rw [htarget] at hs
      cases hs
    | ok target =>
      rw [htarget] at hs
      cases hs
      exact tryAddresses_balanced hcopies h request target false factoryRaises target.addresses

theorem evictionEnds_balanced (hcopies : settings.CopiesAddresses) {phase : Phase} {raises : Bool}
    (h : Balanced settings.maxPools t (task.lease.toList ++ held))
    (hs : evictionEnds settings task raises t = some (phase, t')) :
    Balanced settings.maxPools t' (phase.lease.toList ++ held) := by
  unfold evictionEnds at hs
  unfold PinnedTask.lease at h
  split at hs
  · rename_i lease address rest hphase
    rw [hphase] at h
    cases raises with
    | true =>
      cases hs
      exact h.releasePool
    | false =>
      cases hs
      rw [delegate_lease hcopies]
      exact h
  · cases hs

theorem answered_balanced (hcopies : settings.CopiesAddresses) {phase : Phase}
    {answer : Answer} {factoryRaises : Bool} {next : ℕ} {stream : Option LeasedStream}
    (h : Balanced settings.maxPools t (task.lease.toList ++ held))
    (hs : answered settings task answer factoryRaises next t = some (phase, t', stream)) :
    Balanced settings.maxPools t'
      (phase.lease.toList ++ (stream.toList.filterMap LeasedStream.held ++ held)) := by
  unfold answered at hs
  unfold PinnedTask.lease at h
  split at hs
  · rename_i lease delegated rest hphase
    rw [hphase] at h
    have hreleased : Balanced settings.maxPools (t.releasePool lease) held := h.releasePool
    cases answer with
    | connectError =>
      cases hs
      exact tryAddresses_balanced hcopies hreleased task.request task.target true factoryRaises rest
    | raises =>
      cases hs
      exact hreleased
    | response asyncStream =>
      cases asyncStream with
      | false =>
        cases hs
        exact hreleased
      | true =>
        cases hs
        exact h
  · cases hs

namespace Traffic
variable {s s' : Traffic}

theorem held_task {i : ℕ} {task : PinnedTask} (h : s.tasks[i]? = some task) (phase : Phase) :
    ∃ rest, s.held.Perm (task.lease.toList ++ (rest ++ s.streams.filterMap LeasedStream.held)) ∧
      ∀ t streams, (⟨t, s.tasks.set i { task with phase := phase }, streams⟩ : Traffic).held.Perm
        (phase.lease.toList ++ (rest ++ streams.filterMap LeasedStream.held)) := by
  obtain ⟨rest, hbefore, hafter⟩ := perm_filterMap_set PinnedTask.lease h { task with phase := phase }
  refine ⟨rest, ?_, fun t streams => ?_⟩
  · rw [← append_assoc]
    exact hbefore.append_right _
  · rw [← append_assoc]
    exact hafter.append_right _

theorem held_stream {j : ℕ} {stream : LeasedStream} (h : s.streams[j]? = some stream)
    (phase : StreamPhase) : ∃ rest, s.held.Perm (stream.held.toList ++ rest) ∧
      ∀ t, (⟨t, s.tasks, s.streams.set j { stream with phase := phase }⟩ : Traffic).held.Perm
        ((LeasedStream.held { stream with phase := phase }).toList ++ rest) := by
  obtain ⟨rest, hbefore, hafter⟩ :=
    perm_filterMap_set LeasedStream.held h { stream with phase := phase }
  have hswap : ∀ l : List Lease, (s.tasks.filterMap PinnedTask.lease ++ (l ++ rest)).Perm
      (l ++ (s.tasks.filterMap PinnedTask.lease ++ rest)) := by
    intro l
    rw [← append_assoc, ← append_assoc]
    exact perm_append_comm.append_right _
  exact ⟨s.tasks.filterMap PinnedTask.lease ++ rest, (hbefore.append_left _).trans (hswap _),
    fun t => (hafter.append_left _).trans (hswap _)⟩

/-- **A step keeps the balance.** -/
theorem step_balanced (hcopies : settings.CopiesAddresses)
    (h : Balanced settings.maxPools s.transport s.held) {event : Event}
    (hs : s.step settings event = some s') : Balanced settings.maxPools s'.transport s'.held := by
  cases event with
  | request request factoryRaises =>
    simp only [step] at hs
    cases hhandled : handleAsyncRequest settings request factoryRaises s.transport with
    | error e =>
      rw [hhandled] at hs
      cases hs
      exact h
    | ok result =>
      obtain ⟨task, t⟩ := result
      rw [hhandled] at hs
      cases hs
      refine (handleAsyncRequest_balanced hcopies h hhandled).perm ?_
      have hlast : [task].filterMap PinnedTask.lease = task.lease.toList := by
        cases htask : task.lease <;> simp [htask]
      simp only [held, filterMap_append, hlast]
      rw [← append_assoc]
      exact perm_append_comm.append_right _
  | evictionEnds i raises =>
    simp only [step, bind, Option.bind_eq_some_iff] at hs
    obtain ⟨task, htask, ⟨phase, t⟩, hphase, hs⟩ := hs
    cases hs
    obtain ⟨rest, hbefore, hafter⟩ := held_task htask phase
    exact (evictionEnds_balanced hcopies (h.perm hbefore) hphase).perm (hafter _ _).symm
  | answered i answer factoryRaises =>
    simp only [step, bind, Option.bind_eq_some_iff] at hs
    obtain ⟨task, htask, ⟨phase, t, stream⟩, hphase, hs⟩ := hs
    cases hs
    obtain ⟨rest, hbefore, hafter⟩ := held_task htask phase
    refine (answered_balanced hcopies (h.perm hbefore) hphase).perm ?_
    refine List.Perm.trans ?_ (hafter _ _).symm
    rw [filterMap_append]
    refine List.Perm.append_left _ ?_
    exact perm_append_comm.trans (append_assoc .. ▸ .refl _)
  | closeStream j =>
    simp only [step, bind, Option.bind_eq_some_iff] at hs
    obtain ⟨stream, hstream, hs⟩ := hs
    split at hs
    · rename_i hreading
      -- a stream keeps its lease while it is closing
      cases hs
      obtain ⟨rest, hbefore, hafter⟩ := held_stream hstream .closing
      have hsame : stream.held = LeasedStream.held { stream with phase := .closing } := by
        simp [LeasedStream.held, hreading]
      exact (h.perm (hsame ▸ hbefore)).perm (hafter _).symm
    · cases hs
      exact h
  | streamClosed j =>
    simp only [step, bind, Option.bind_eq_some_iff] at hs
    obtain ⟨stream, hstream, hs⟩ := hs
    split at hs
    · rename_i hclosing
      cases hs
      obtain ⟨rest, hbefore, hafter⟩ := held_stream hstream .closed
      have hheld : stream.held = some stream.lease := by simp [LeasedStream.held, hclosing]
      rw [hheld] at hbefore
      exact (h.perm hbefore).releasePool.perm (hafter _).symm
    · cases hs
  | closeTransport =>
    cases hs
    exact ⟨h.active, h.known, h.once, Nat.zero_le _, nodup_nil, nodup_nil, by simp,
      fun entry he => ⟨(h.evicted entry he).1, by simp⟩⟩

theorem Reachable.of_run (h : Reachable settings s) {events : List Event}
    (hs : s.run settings events = some s') : Reachable settings s' := by
  induction events generalizing s with
  | nil =>
    cases hs
    exact h
  | cons event events ih =>
    obtain ⟨s₁, h₁, hs⟩ := Option.bind_eq_some_iff.mp hs
    exact ih (h.step h₁) hs

theorem Reachable.balanced (hcopies : settings.CopiesAddresses) (h : Reachable settings s) :
    Balanced settings.maxPools s.transport s.held := by
  induction h with
  | start => exact ⟨by simp, by simp [held], .refl _, Nat.zero_le _, nodup_nil, nodup_nil,
      by simp, by simp⟩
  | step _ hs ih => exact step_balanced hcopies ih hs

/-! ### Every state -/

def inFlight (s : Traffic) (entry : ℕ) : ℕ :=
  s.tasks.countP fun task => task.lease.any (·.entry = entry)

def openStreams (s : Traffic) (entry : ℕ) : ℕ :=
  s.streams.countP fun stream => stream.held.any (·.entry = entry)

/-- The requests and streams that hold a lease. -/
def holders (s : Traffic) (lease : ℕ) : ℕ :=
  (s.tasks.countP fun task => task.lease.any (·.id = lease)) +
    s.streams.countP fun stream => stream.held.any (·.id = lease)

theorem countP_held (s : Traffic) (p : Lease → Bool) :
    s.held.countP p = (s.tasks.countP fun task => task.lease.any p) +
      s.streams.countP fun stream => stream.held.any p := by
  have hany : ∀ o : Option Lease, (o.map p).getD false = o.any p := by
    intro o
    cases o <;> rfl
  simp only [held, countP_append, countP_filterMap, hany]

/-- Each pool's active count is that of the requests in flight and the streams open on it; there are
no more pools than allowed; an evicted pool is not active; and each lease taken is held, by one
request or stream, or has been released, once. -/
structure Conserved (maxPools : ℕ) (s : Traffic) : Prop where
  active : ∀ (entry : ℕ) n, s.transport.entries[entry]? = some n →
    n = s.inFlight entry + s.openStreams entry
  bounded : s.transport.pools.length ≤ maxPools
  evicted : ∀ entry ∈ s.transport.evicted, s.transport.entries[entry]? = some 0
  once : ∀ lease, s.transport.released.count lease + s.holders lease =
    if lease < s.transport.leased then 1 else 0

end Traffic

/-- **Leases are conserved**, in every state the requests, answers and closes lead to, in any
order. -/
theorem leases_conserved (hcopies : settings.CopiesAddresses) {s : Traffic}
    (h : s.Reachable settings) : s.Conserved settings.maxPools := by
  have hbalanced := h.balanced hcopies
  refine ⟨fun entry n hn => ?_, hbalanced.bounded, fun entry he => (hbalanced.evicted entry he).1,
    fun lease => ?_⟩
  · rw [hbalanced.active entry n hn, s.countP_held]
    push_cast
    rfl
  · have hcount := hbalanced.once.count_eq lease
    have hranged : (List.range s.transport.leased).count lease =
        if lease < s.transport.leased then 1 else 0 := by
      rw [List.nodup_range.count]
      simp
    have hheld : (s.held.map (·.id)).count lease = s.holders lease := by
      rw [List.count_eq_countP, List.countP_map]
      exact s.countP_held _
    rw [List.count_append, hheld, hranged] at hcount
    rw [Nat.add_comm]
    exact hcount

end

/-- IPv4 addresses in their dotted form, and copies with the host replaced. -/
def dottedSettings : TransportSettings where
  text
    | .v4 address => ".".intercalate
        ([24, 16, 8, 0].map fun shift => toString (address.toNat >>> shift % 256))
    | .v6 _ => "::"
  withHost url host := some { url with host := host }

/-- `https://example.com/`, validated against two addresses. -/
def exampleRequest : Request :=
  let url : HttpxURL := ⟨"https", "example.com", "", true, some none, "/"⟩
  { method := "GET"
    url := url
    host := some "example.com"
    target := some ⟨⟨url, "https", ⟨"example.com", none⟩, 443⟩,
      [.v4 (ipv4 93 184 215 14), .v4 (ipv4 93 184 215 15)]⟩
    asyncStream := true }

/-- A request fails to connect to one address and is answered on the other; its stream is closed
twice. -/
def retriedRun : List Traffic.Event :=
  [.request exampleRequest false, .answered 0 .connectError false, .answered 0 (.response true) false,
    .closeStream 0, .closeStream 0, .streamClosed 0]

/-- Both leases are released, once. -/
theorem leases_conserved_retried : ∃ s : Traffic,
    Traffic.run dottedSettings {} retriedRun = some s ∧ s.transport.released = [0, 1] ∧
      s.Conserved 100 := by
  obtain ⟨s, hs⟩ : ∃ s, Traffic.run dottedSettings {} retriedRun = some s := ⟨_, rfl⟩
  have hconserved := leases_conserved (fun _ _ => rfl) (Traffic.Reachable.start.of_run hs)
  refine ⟨s, hs, ?_, hconserved⟩
  cases hs
  rfl

end Otari.Network
