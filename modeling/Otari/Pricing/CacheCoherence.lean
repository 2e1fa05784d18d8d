import Otari.Pricing.PriceCache

/-!
# Pricing — CacheCoherence — every lookup answers from committed prices that are recent enough

Sessions that write, commit, roll back and look prices up, act by act in any order.  A reader knows
the generation it started at and the versions it has read (`Reading`); while that generation is the
current one no commit of this process has returned, so what it read is as new as any lookup that
starts now may expect, and may be kept.  `lookup_coherent` is what that gives for every lookup.
-/

namespace Otari.Pricing
open Threads List

/-! ### What a lookup may answer -/

/-- The stored half of the ladder when the override was read from one state of the tables and each
key form from another, under the session's own writes. -/
def storedPricingFrom (own : List Write) (overrides : Prices) (rows : Key → Prices)
    (key : CacheKey) (asOf : Instant) : Option ResolvedPricing :=
  let override := key.1.bind fun organization =>
    findOrganizationOverride (writtenOver own overrides).overrides organization
      (pricingKeyForms key.2.1) asOf key.2.2
  (override.map ofOverride).or ((pricingKeyForms key.2.1).findSome? fun form =>
    (findByModelKey (writtenOver own (rows form)).modelPricing form asOf).map ofDeployment)

/-- `stored` is what the key resolves to, at the time, in committed versions from `lo` to `hi`. -/
def ResolvedBetween (versions : ℕ → Prices) (own : List Write) (lo hi : ℕ) (key : CacheKey)
    (asOf : Instant) (stored : Option ResolvedPricing) : Prop :=
  ∃ (override : ℕ) (row : Key → ℕ), (lo ≤ override ∧ override ≤ hi) ∧
    (∀ form, lo ≤ row form ∧ row form ≤ hi) ∧
    stored = storedPricingFrom own (versions override) (fun form => versions (row form)) key asOf

/-- **Coherence of a lookup.**  Under its own session's writes it resolved in versions committed by
the time it returned, none older than the newest whose commit had returned as it began, and as of an
instant no earlier than that return. -/
def Lookup.Coherent (a : Lookup) (defaults : Defaults) (versions : ℕ → Prices) : Prop :=
  (∃ asOf, a.completedAt ≤ asOf ∧ asOf ≤ a.lookupTime ∧
    ResolvedBetween versions a.own a.began a.returned a.request.cacheKey asOf a.stored) ∧
  a.result = orDefault defaults a.request a.lookupTime a.stored

variable {own : List Write} {key : CacheKey} {stored : Option ResolvedPricing}

theorem ResolvedBetween.congr {versions versions' : ℕ → Prices} {lo lo' hi hi' : ℕ} {asOf : Instant}
    (h : ResolvedBetween versions own lo hi key asOf stored) (hlo : lo' ≤ lo) (hhi : hi ≤ hi')
    (heq : ∀ v ≤ hi, versions' v = versions v) :
    ResolvedBetween versions' own lo' hi' key asOf stored := by
  obtain ⟨override, row, ho, hr, rfl⟩ := h
  refine ⟨override, row, ⟨hlo.trans ho.1, ho.2.trans hhi⟩,
    fun form => ⟨hlo.trans (hr form).1, (hr form).2.trans hhi⟩, ?_⟩
  rw [heq override ho.2]
  congr 1
  funext form
  rw [heq _ (hr form).2]

theorem Lookup.Coherent.congr {a : Lookup} {defaults : Defaults} {versions versions' : ℕ → Prices}
    (h : a.Coherent defaults versions) (heq : ∀ v ≤ a.returned, versions' v = versions v) :
    a.Coherent defaults versions' := by
  obtain ⟨⟨asOf, hsince, htime, hres⟩, hresult⟩ := h
  exact ⟨⟨asOf, hsince, htime, hres.congr le_rfl le_rfl heq⟩, hresult⟩

/-! ### The invariant -/

/-- A lookup under way: how it started, and the versions it has read with what they held. -/
structure Reading where
  start : LookupStart
  reads : List (ℕ × Prices)

/-- What a thread holds: its lookup under way, and the version its commit landed. -/
structure CacheGhost where
  reading : Option Reading := none
  landed : Option ℕ := none

/-- What holds of a lookup under way. -/
structure Reading.Sound (r : Reading) (s : PriceStore) : Prop where
  completed : r.start.completed ≤ s.completed
  generation : r.start.generation ≤ s.generation
  /-- No commit has returned while the generation stands. -/
  settled : r.start.generation = s.generation →
    s.completed = r.start.completed ∧ s.completedAt = r.start.completedAt
  since : r.start.completedAt ≤ r.start.lookupTime
  time : r.start.lookupTime ≤ s.clock
  reads : ∀ read ∈ r.reads,
    r.start.completed ≤ read.1 ∧ read.1 ≤ s.latest ∧ s.versions read.1 = read.2

/-- What a thread holds is so. -/
structure CacheGhost.Sound (g : CacheGhost) (s : PriceStore) : Prop where
  reading : ∀ r, g.reading = some r → r.Sound s
  landed : ∀ v, g.landed = some v → v ≤ s.latest

/-- What holds of the store alone. -/
structure CacheShared (defaults : Defaults) (s : PriceStore) : Prop where
  completed : s.completed ≤ s.latest
  completedAt : s.completedAt ≤ s.clock
  cacheGeneration : s.cacheGeneration ≤ s.generation
  /-- An entry that may be served is as new as the last commit that returned. -/
  entries : s.cacheGeneration = s.generation → ∀ entry ∈ s.cache,
    ∃ asOf, s.completedAt ≤ asOf ∧ asOf ≤ s.clock ∧
      ResolvedBetween s.versions [] s.completed s.latest entry.1 asOf entry.2.2
  lookups : ∀ a ∈ s.lookups, a.returned ≤ s.latest ∧ a.Coherent defaults s.versions

/-- **The invariant of every interleaving.** -/
structure CacheInv (defaults : Defaults) (n : ℕ) (s : PriceStore) (γ : ℕ → CacheGhost) : Prop where
  shared : CacheShared defaults s
  thread : ∀ t, (γ t).Sound s

/-- How the store moves: versions are only added, and a commit returns only with a new
generation. -/
structure Evolves (s s' : PriceStore) : Prop where
  latest : s.latest ≤ s'.latest
  versions : ∀ v ≤ s.latest, s'.versions v = s.versions v
  completed : s.completed ≤ s'.completed
  generation : s.generation ≤ s'.generation
  settled : s'.generation = s.generation →
    s'.completed = s.completed ∧ s'.completedAt = s.completedAt
  clock : s.clock ≤ s'.clock

variable {defaults : Defaults} {n t : ℕ} {s s' : PriceStore} {γ : ℕ → CacheGhost}
  {g g' : CacheGhost} {session : Session}

/-- Safety of a program of the machine. -/
abbrev Kept {α : Type} (defaults : Defaults) (t : ℕ) (Q : α → CacheGhost → Prop) (p : PriceRun α)
    (g : CacheGhost) : Prop :=
  Safe (CacheInv defaults) (fun _ _ => True) t Q p g

variable {r : Reading}

theorem Reading.Sound.evolves (h : r.Sound s) (he : Evolves s s') : r.Sound s' where
  completed := h.completed.trans he.completed
  generation := h.generation.trans he.generation
  settled hg := by
    -- the generation stood still, so it stood still at every step between
    have hsame : s'.generation = s.generation :=
      le_antisymm (hg ▸ h.generation) he.generation
    rw [(he.settled hsame).1, (he.settled hsame).2]
    exact h.settled (hg.trans hsame)
  since := h.since
  time := h.time.trans he.clock
  reads read hmem := by
    obtain ⟨hlo, hhi, heq⟩ := h.reads read hmem
    exact ⟨hlo, hhi.trans he.latest, (he.versions _ hhi).trans heq⟩

theorem CacheGhost.Sound.evolves (h : g.Sound s) (he : Evolves s s') : g.Sound s' where
  reading r hr := (h.reading r hr).evolves he
  landed v hv := (h.landed v hv).trans he.latest

theorem CacheGhost.Sound.idle : CacheGhost.Sound {} s where
  reading r hr := by cases hr
  landed v hv := by cases hv

theorem CacheInv.update (h : CacheInv defaults n s γ) (hshared : CacheShared defaults s')
    (he : Evolves s s') (hself : g'.Sound s') :
    CacheInv defaults n s' (Function.update γ t g') := by
  refine ⟨hshared, fun u => ?_⟩
  by_cases hut : u = t
  · subst hut
    rw [Function.update_self]
    exact hself
  · rw [Function.update_of_ne hut]
    exact (h.thread u).evolves he

theorem CacheInv.evolve (h : CacheInv defaults n s γ) (hshared : CacheShared defaults s')
    (he : Evolves s s') : CacheInv defaults n s' γ :=
  ⟨hshared, fun t => (h.thread t).evolves he⟩

theorem Evolves.refl (s : PriceStore) : Evolves s s :=
  ⟨le_rfl, fun _ _ => rfl, le_rfl, le_rfl, fun _ => ⟨rfl, rfl⟩, le_rfl⟩

theorem CacheShared.lookups_evolves (h : CacheShared defaults s) (he : Evolves s s') :
    ∀ a ∈ s.lookups, a.returned ≤ s'.latest ∧ a.Coherent defaults s'.versions := by
  intro a ha
  obtain ⟨hret, hco⟩ := h.lookups a ha
  exact ⟨hret.trans he.latest, hco.congr fun v hv => he.versions v (hv.trans hret)⟩

/-! ### How the store moves -/

/-- A commit lands: a new version, and nothing else. -/
def PriceStore.land (s : PriceStore) (prices : Prices) : PriceStore :=
  { s with versions := Function.update s.versions (s.latest + 1) prices, latest := s.latest + 1 }

theorem evolves_land (s : PriceStore) (prices : Prices) : Evolves s (s.land prices) where
  latest := Nat.le_succ _
  versions v hv := Function.update_of_ne (by omega) _ _
  completed := le_rfl
  generation := le_rfl
  settled _ := ⟨rfl, rfl⟩
  clock := le_rfl

theorem CacheShared.land (h : CacheShared defaults s) (prices : Prices) :
    CacheShared defaults (s.land prices) where
  completed := h.completed.trans (Nat.le_succ _)
  completedAt := h.completedAt
  cacheGeneration := h.cacheGeneration
  entries hg entry hmem := by
    obtain ⟨asOf, hsince, htime, hres⟩ := h.entries hg entry hmem
    exact ⟨asOf, hsince, htime,
      hres.congr le_rfl (Nat.le_succ _) (evolves_land s prices).versions⟩
  lookups := h.lookups_evolves (evolves_land s prices)

/-- A price write is counted, with the commits that have returned by then. -/
def PriceStore.count (s : PriceStore) (completed : ℕ) (completedAt : Instant) : PriceStore :=
  { s with generation := s.generation + 1, completed := completed, completedAt := completedAt }

theorem evolves_count {completed : ℕ} {completedAt : Instant} (h : s.completed ≤ completed) :
    Evolves s (s.count completed completedAt) where
  latest := le_rfl
  versions _ _ := rfl
  completed := h
  generation := Nat.le_succ _
  settled hg := absurd hg (Nat.succ_ne_self _)
  clock := le_rfl

theorem CacheShared.count (h : CacheShared defaults s) {completed : ℕ} {completedAt : Instant}
    (hle : s.completed ≤ completed) (hlatest : completed ≤ s.latest)
    (hclock : completedAt ≤ s.clock) : CacheShared defaults (s.count completed completedAt) where
  completed := hlatest
  completedAt := hclock
  cacheGeneration := h.cacheGeneration.trans (Nat.le_succ _)
  entries hg := absurd hg (Nat.ne_of_lt (Nat.lt_succ_of_le h.cacheGeneration))
  lookups := h.lookups_evolves (evolves_count hle)

/-! ### Writes -/

/-- What a session has flushed it has marked. -/
def Session.Marked (session : Session) : Prop :=
  session.flushed ≠ [] → session.pricesWritten = true

theorem countPriceWrite_kept : Kept defaults t (fun _ g' => g' = g) countPriceWrite g := by
  intro n s γ b s' _ h hg _ hf
  cases hf
  subst hg
  exact ⟨γ t, h.update (h.shared.count le_rfl h.shared.completed h.shared.completedAt)
    (evolves_count le_rfl) ((h.thread t).evolves (evolves_count le_rfl)), rfl⟩

theorem flush_kept (hm : session.Marked) : Kept defaults t (fun after g' => g' = g ∧ after.Marked ∧
      (pendingPriceWrites session = false → after = session)) (flush session) g := by
  rw [flush]
  split
  · rename_i hholds
    refine Safe.bind countPriceWrite_kept fun _ g' hg' => ⟨hg', fun _ => rfl, fun hp => ?_⟩
    rw [pendingPriceWrites, hholds, Bool.or_true] at hp
    cases hp
  · exact ⟨rfl, hm, fun _ => rfl⟩

theorem execute_kept (hm : session.Marked) {write : Write} :
    Kept defaults t (fun after g' => g' = g ∧ after.Marked) (execute session write) g := by
  rw [execute]
  refine Safe.bind (flush_kept hm) fun after g₁ h₁ => ?_
  obtain ⟨rfl, hafter, -⟩ := h₁
  exact Safe.bind countPriceWrite_kept fun _ g₂ h₂ => ⟨h₂, fun _ => rfl⟩

theorem landCommit_kept : Kept defaults t (fun version g' => g' = { landed := version } ∧
      (version.isSome = true → session.flushed ≠ [])) (landCommit session) g := by
  intro n s γ b s' _ h hg _ hf
  beta_reduce at hf
  split at hf
  · cases hf
    exact ⟨{}, h.update h.shared (Evolves.refl s) .idle, rfl, fun hb => by cases hb⟩
  · rename_i hflushed
    cases hf
    refine ⟨{ landed := some (s.latest + 1) }, h.update (h.shared.land _) (evolves_land s _) ?_, rfl,
      fun _ hnil => hflushed (by rw [hnil]; rfl)⟩
    refine ⟨fun r hr => ?_, fun v hv => ?_⟩
    · cases hr
    · cases hv
      exact le_rfl

theorem returnCommit_kept {version : Option ℕ}
    (hm : version.isSome = true → session.pricesWritten = true) :
    Kept defaults t (fun _ g' => g' = {}) (returnCommit session version) { landed := version } := by
  intro n s γ b s' _ h hg _ hf
  cases hf
  have hself := h.thread t
  rw [hg] at hself
  have hlatest : max s.completed (version.getD 0) ≤ s.latest := by
    refine max_le h.shared.completed ?_
    cases version with
    | none => exact Nat.zero_le _
    | some v => exact hself.landed v rfl
  have hclock : (if version.isSome then s.clock else s.completedAt) ≤ s.clock := by
    split
    · exact le_rfl
    · exact h.shared.completedAt
  refine ⟨{}, ?_, rfl⟩
  cases hw : session.pricesWritten with
  | true =>
    simp only [if_true]
    exact h.update (h.shared.count (le_max_left _ _) hlatest hclock)
      (evolves_count (le_max_left _ _)) .idle
  | false =>
    have hnone : version = none := by
      cases version with
      | none => rfl
      | some v => exact absurd (hm rfl) (by simp [hw])
    subst hnone
    simpa using h.update (t := t) h.shared (Evolves.refl s) .idle

theorem rollback_kept : Kept defaults t (fun after _ => after.Marked) (rollback session) g := by
  rw [rollback]
  split
  · exact Safe.bind countPriceWrite_kept fun _ _ _ h => absurd rfl h
  · exact fun h => absurd rfl h

theorem commit_kept (hm : session.Marked) :
    Kept defaults t (fun after _ => after.Marked) (commit session) g := by
  rw [commit]
  refine Safe.bind (flush_kept hm) fun after g₁ h₁ => ?_
  obtain ⟨-, hafter, -⟩ := h₁
  refine Safe.bind landCommit_kept fun version g₂ h₂ => ?_
  obtain ⟨rfl, hversion⟩ := h₂
  refine Safe.bind (returnCommit_kept fun hsome => hafter (hversion hsome)) fun _ _ _ h => ?_
  exact absurd rfl h

theorem failCommit_kept (hm : session.Marked) {landed : Bool} :
    Kept defaults t (fun after _ => after.Marked) (failCommit session landed) g := by
  rw [failCommit]
  refine Safe.bind (flush_kept hm) fun after g₁ _ => ?_
  split
  · exact Safe.bind landCommit_kept fun _ _ _ => rollback_kept
  · exact rollback_kept

/-! ### Lookups -/

def Reading.read (r : Reading) (read : ℕ × Prices) : Reading :=
  { r with reads := read :: r.reads }

/-- `r'` is the lookup `r`, some reads later. -/
structure Reading.Later (r r' : Reading) : Prop where
  start : r'.start = r.start
  reads : r.reads ⊆ r'.reads

theorem Reading.Later.refl (r : Reading) : r.Later r :=
  ⟨rfl, fun _ h => h⟩

theorem Reading.Later.trans {r₁ r₂ r₃ : Reading} (h : r₁.Later r₂) (h' : r₂.Later r₃) :
    r₁.Later r₃ :=
  ⟨h'.start.trans h.start, fun _ hmem => h'.reads (h.reads hmem)⟩

theorem Reading.later_read (r : Reading) (read : ℕ × Prices) : r.Later (r.read read) :=
  ⟨rfl, fun _ h => mem_cons_of_mem _ h⟩

theorem select_kept {β : Type} (f : Prices → β) :
    Kept defaults t (fun b g' => ∃ read, b = f (session.view read.2) ∧
      g' = { reading := some (r.read read) })
      (.read () fun _ s => f (session.view s.committed)) { reading := some r } := by
  intro n s γ b s' _ h hg _ hf
  cases hf
  have hr : r.Sound s := by
    have hself := h.thread t
    rw [hg] at hself
    exact hself.reading r rfl
  have hread : (r.read (s.latest, s.committed)).Sound s := by
    refine { hr with reads := fun read hmem => ?_ }
    rcases mem_cons.mp hmem with rfl | hmem
    · exact ⟨hr.completed.trans h.shared.completed, le_rfl, rfl⟩
    · exact hr.reads read hmem
  refine ⟨_, h.update h.shared (Evolves.refl s) ⟨fun r' hr' => ?_, fun v hv => ?_⟩,
    (s.latest, s.committed), rfl, rfl⟩
  · cases hr'
    exact hread
  · cases hv

variable {request : LookupRequest}

theorem selectOverride_kept (hne : r.reads ≠ []) :
    Kept defaults t (fun override g' => ∃ r', g' = { reading := some r' } ∧ r.Later r' ∧
      ∃ read ∈ r'.reads, override = (request.organizationId.bind fun organization =>
        findOrganizationOverride (session.view read.2).overrides organization
          (pricingKeyForms request.modelKey) r.start.lookupTime request.deploymentPaid).map ofOverride)
      (selectOverride session request r.start.lookupTime) { reading := some r } := by
  rw [selectOverride]
  cases request.organizationId with
  | none =>
    obtain ⟨read, hread⟩ := exists_mem_of_ne_nil _ hne
    exact ⟨r, rfl, .refl r, read, hread, rfl⟩
  | some organization =>
    refine Safe.mono (fun override g' h' => ?_) (select_kept fun prices =>
      (findOrganizationOverride prices.overrides organization (pricingKeyForms request.modelKey)
        r.start.lookupTime request.deploymentPaid).map ofOverride)
    obtain ⟨read, rfl, rfl⟩ := h'
    exact ⟨_, rfl, r.later_read read, read, mem_cons_self, rfl⟩

theorem selectStored_kept {forms : List Key} (hnd : forms.Nodup) (hne : r.reads ≠ []) :
    Kept defaults t (fun found g' => ∃ r', g' = { reading := some r' } ∧ r.Later r' ∧
      ∃ row : Key → ℕ × Prices, (∀ form, row form ∈ r'.reads) ∧
        found = stored.or (forms.findSome? fun form =>
          (findByModelKey (session.view (row form).2).modelPricing form r.start.lookupTime).map
            ofDeployment))
      (selectStored session r.start.lookupTime forms stored) { reading := some r } := by
  induction forms generalizing stored r with
  | nil =>
    obtain ⟨read, hread⟩ := exists_mem_of_ne_nil _ hne
    exact ⟨r, rfl, .refl r, fun _ => read, fun _ => hread, by simp⟩
  | cons form forms ih =>
    obtain ⟨hform, hforms⟩ := nodup_cons.mp hnd
    rw [selectStored]
    split
    · rename_i hsome
      obtain ⟨read, hread⟩ := exists_mem_of_ne_nil _ hne
      obtain ⟨found, rfl⟩ := Option.isSome_iff_exists.mp hsome
      exact ⟨r, rfl, .refl r, fun _ => read, fun _ => hread, rfl⟩
    · rename_i hnone
      rw [Option.not_isSome_iff_eq_none] at hnone
      subst hnone
      refine Safe.bind (select_kept fun prices =>
        (findByModelKey prices.modelPricing form r.start.lookupTime).map ofDeployment) fun row g₁ h₁ => ?_
      obtain ⟨read, rfl, rfl⟩ := h₁
      refine Safe.mono (fun found g' h' => ?_)
        (ih hforms (r := r.read read) (cons_ne_nil _ _))
      obtain ⟨r', rfl, hlater, row, hrow, rfl⟩ := h'
      have hread : read ∈ r'.reads := hlater.reads mem_cons_self
      refine ⟨r', rfl, (r.later_read read).trans hlater, Function.update row form read,
        fun form' => ?_, ?_⟩
      · by_cases heq : form' = form
        · subst heq
          rwa [Function.update_self]
        · rw [Function.update_of_ne heq]
          exact hrow form'
      · -- the forms still to come are other ones, and keep the version they were read in
        have hrest : forms.findSome? (fun form' => (findByModelKey
              (session.view (Function.update row form read form').2).modelPricing form'
              r.start.lookupTime).map ofDeployment) =
            forms.findSome? fun form' => (findByModelKey
              (session.view (row form').2).modelPricing form' r.start.lookupTime).map ofDeployment := by
          refine Select.findSome?_congr fun form' hmem => ?_
          have hother : form' ≠ form := fun heq => hform (heq ▸ hmem)
          rw [Function.update_of_ne hother]
        rw [Option.none_or, List.findSome?_cons, Function.update_self, hrest]
        cases (findByModelKey (session.view read.2).modelPricing form r.start.lookupTime).map
          ofDeployment <;> rfl

/-- The cache as a lookup at this time finds it. -/
def PriceStore.refreshed (s : PriceStore) : PriceStore :=
  if s.generation = s.cacheGeneration then s
  else { s with cache := [], cacheGeneration := s.generation }

theorem evolves_refreshed (s : PriceStore) : Evolves s s.refreshed := by
  rw [PriceStore.refreshed]
  split
  · exact Evolves.refl s
  · exact ⟨le_rfl, fun _ _ => rfl, le_rfl, le_rfl, fun _ => ⟨rfl, rfl⟩, le_rfl⟩

theorem CacheShared.refreshed (h : CacheShared defaults s) : CacheShared defaults s.refreshed := by
  rw [PriceStore.refreshed]
  split
  · exact h
  · exact ⟨h.completed, h.completedAt, le_rfl, fun _ _ hmem => absurd hmem not_mem_nil, h.lookups⟩

theorem cachedStoredPricing_eq (s : PriceStore) (key : CacheKey) : cachedStoredPricing s key =
      (((s.refreshed.cache.lookup key).filter fun entry => s.refreshed.clock < entry.1).map
        Prod.snd, s.refreshed) := rfl

/-- **A hit is as good as a read.**  What the cache serves was resolved in committed versions none
older than the newest whose commit has returned. -/
theorem hit_resolved (h : CacheShared defaults s)
    (hhit : (cachedStoredPricing s key).1 = some stored) :
    ∃ asOf, s.refreshed.completedAt ≤ asOf ∧ asOf ≤ s.refreshed.clock ∧
      ResolvedBetween s.refreshed.versions [] s.refreshed.completed s.refreshed.latest key asOf
        stored := by
  rw [cachedStoredPricing_eq] at hhit
  obtain ⟨entry, hentry, rfl⟩ := Option.map_eq_some_iff.mp hhit
  obtain ⟨before, rest, hcache, -⟩ :=
    lookup_eq_some_iff.mp (Option.filter_eq_some_iff.mp hentry).1
  have hmem : (key, entry) ∈ s.refreshed.cache := by simp [hcache]
  have hcurrent : s.refreshed.cacheGeneration = s.refreshed.generation := by
    rw [PriceStore.refreshed]
    split
    · rename_i heq
      exact heq.symm
    · rfl
  exact h.refreshed.entries hcurrent _ hmem

theorem CacheShared.answer (h : CacheShared defaults s) {start : LookupStart}
    (hres : ∃ asOf, start.completedAt ≤ asOf ∧ asOf ≤ start.lookupTime ∧
      ResolvedBetween s.versions own start.completed s.latest request.cacheKey asOf stored) :
    CacheShared defaults (s.answer defaults request start own stored) where
  completed := h.completed
  completedAt := h.completedAt
  cacheGeneration := h.cacheGeneration
  entries := h.entries
  lookups a hmem := by
    rcases mem_cons.mp hmem with rfl | hmem
    · exact ⟨le_rfl, hres, rfl⟩
    · exact h.lookups a hmem

theorem evolves_answer (s : PriceStore) (request : LookupRequest) (start : LookupStart)
    (own : List Write) (stored : Option ResolvedPricing) :
    Evolves s (s.answer defaults request start own stored) :=
  ⟨le_rfl, fun _ _ => rfl, le_rfl, le_rfl, fun _ => ⟨rfl, rfl⟩, le_rfl⟩

def Reading.starting (s : PriceStore) : Reading where
  start := ⟨s.generation, s.clock, s.completed, s.completedAt⟩
  reads := [(s.completed, s.versions s.completed)]

theorem CacheInv.starting (h : CacheInv defaults n s γ) :
    CacheInv defaults n s (Function.update γ t { reading := some (.starting s) }) := by
  refine h.update h.shared (Evolves.refl s) ⟨fun r hr => ?_, fun v hv => ?_⟩
  · cases hr
    refine ⟨le_rfl, le_rfl, fun _ => ⟨rfl, rfl⟩, h.shared.completedAt, le_rfl,
      fun read hmem => ?_⟩
    rw [mem_singleton.mp hmem]
    exact ⟨le_rfl, h.shared.completed, rfl⟩
  · cases hv

theorem startLookup_kept {useCache : Bool} :
    Kept defaults t (fun start? g' => ∀ start, start? = some start →
        ∃ r : Reading, g' = { reading := some r } ∧ r.start = start ∧ r.reads ≠ [])
      (startLookup defaults request useCache) g := by
  have hreads : ∀ s, ∀ start, some (Reading.starting s).start = some start →
      ∃ r : Reading, CacheGhost.mk (some (.starting s)) none = { reading := some r } ∧
        r.start = start ∧ r.reads ≠ [] := by
    intro s start hs
    cases hs
    exact ⟨.starting s, rfl, rfl, cons_ne_nil _ _⟩
  intro n s γ b s' _ h hg _ hf
  beta_reduce at hf
  cases useCache with
  | false =>
    cases hf
    exact ⟨_, h.starting, hreads s⟩
  | true =>
    have hfresh := h.evolve h.shared.refreshed (evolves_refreshed s)
    cases hhit : (cachedStoredPricing s request.cacheKey).1 with
    | none =>
      simp only [if_true, hhit, Option.some.injEq, Prod.mk.injEq] at hf
      obtain ⟨rfl, rfl⟩ := hf
      exact ⟨_, hfresh.starting, hreads s.refreshed⟩
    | some stored =>
      simp only [if_true, hhit, Option.some.injEq, Prod.mk.injEq] at hf
      obtain ⟨rfl, rfl⟩ := hf
      refine ⟨{}, hfresh.update (hfresh.shared.answer (hit_resolved h.shared hhit))
        (evolves_answer _ _ _ _ _) .idle, fun start hs => ?_⟩
      cases hs

theorem CacheShared.fill (h : CacheShared defaults s) (hr : r.Sound s)
    (hres : ResolvedBetween s.versions [] r.start.completed
      s.latest key r.start.lookupTime stored) :
    CacheShared defaults (cacheStoredPricing s key stored r.start.generation) ∧
      Evolves s (cacheStoredPricing s key stored r.start.generation) := by
  rw [cacheStoredPricing]
  split
  · rename_i hcurrent
    obtain ⟨hcompleted, hcompletedAt⟩ := hr.settled hcurrent
    refine ⟨⟨h.completed, h.completedAt, h.cacheGeneration, fun hg entry hmem => ?_, h.lookups⟩,
      le_rfl, fun _ _ => rfl, le_rfl, le_rfl, fun _ => ⟨rfl, rfl⟩, le_rfl⟩
    rcases mem_cons.mp hmem with rfl | hmem
    · refine ⟨r.start.lookupTime, hcompletedAt.trans_le hr.since, hr.time, ?_⟩
      rw [show s.completed = r.start.completed from hcompleted]
      exact hres
    · have hold := (mem_filter.mp hmem).1
      split at hold
      · cases hold
      · exact h.entries hg entry hold
  · exact ⟨h, Evolves.refl s⟩

theorem Reading.Sound.resolved (hr : r.Sound s) (own : List Write) (key : CacheKey)
    {override : ℕ × Prices} (ho : override ∈ r.reads) {row : Key → ℕ × Prices}
    (hrow : ∀ form, row form ∈ r.reads) :
    ResolvedBetween s.versions own r.start.completed s.latest key r.start.lookupTime
      (storedPricingFrom own override.2 (fun form => (row form).2) key r.start.lookupTime) := by
  refine ⟨override.1, fun form => (row form).1, ⟨(hr.reads _ ho).1, (hr.reads _ ho).2.1⟩,
    fun form => ⟨(hr.reads _ (hrow form)).1, (hr.reads _ (hrow form)).2.1⟩, ?_⟩
  rw [(hr.reads _ ho).2.2]
  congr 1
  funext form
  exact (hr.reads _ (hrow form)).2.2.symm

theorem returnRead_kept {useCache : Bool} (hown : useCache = true → own = [])
    {override : ℕ × Prices} (ho : override ∈ r.reads) {row : Key → ℕ × Prices}
    (hrow : ∀ form, row form ∈ r.reads)
    (hstored : stored = storedPricingFrom own override.2 (fun form => (row form).2)
      request.cacheKey r.start.lookupTime) :
    Kept defaults t (fun _ _ => True) (returnRead defaults request r.start useCache own stored)
      { reading := some r } := by
  intro n s γ b s' _ h hg _ hf
  cases hf
  have hr : r.Sound s := by
    have hself := h.thread t
    rw [hg] at hself
    exact hself.reading r rfl
  have hres := hr.resolved own request.cacheKey ho hrow
  rw [← hstored] at hres
  refine ⟨{}, ?_, trivial⟩
  cases useCache with
  | false =>
    exact h.update (h.shared.answer ⟨_, hr.since, le_rfl, hres⟩) (evolves_answer _ _ _ _ _) .idle
  | true =>
    rw [hown rfl] at hres ⊢
    obtain ⟨hshared, hevolves⟩ := h.shared.fill hr hres
    have hlater := hres.congr le_rfl hevolves.latest hevolves.versions
    exact (h.evolve hshared hevolves).update (hshared.answer ⟨_, hr.since, le_rfl, hlater⟩)
      (evolves_answer _ _ _ _ _) .idle

theorem Session.Marked.flushed_eq_nil (hm : session.Marked)
    (hp : pendingPriceWrites session = false) : session.flushed = [] := by
  by_contra hne
  rw [pendingPriceWrites, hm hne, Bool.true_or] at hp
  cases hp

theorem resolveStoredPricing_kept (hm : session.Marked) :
    Kept defaults t (fun after _ => after.Marked) (resolveStoredPricing defaults session request)
      g := by
  rw [resolveStoredPricing]
  refine Safe.bind startLookup_kept fun start? g₁ h₁ => ?_
  cases start? with
  | none => exact hm
  | some start =>
    obtain ⟨r, rfl, rfl, hne⟩ := h₁ start rfl
    refine Safe.bind (flush_kept hm) fun after g₂ h₂ => ?_
    obtain ⟨rfl, hafter, hsame⟩ := h₂
    refine Safe.bind (selectOverride_kept hne) fun override g₃ h₃ => ?_
    obtain ⟨r₃, rfl, hlater, read, hread, hoverride⟩ := h₃
    have hne₃ : r₃.reads ≠ [] := ne_nil_of_mem hread
    rw [← hlater.start]
    refine Safe.bind (selectStored_kept (pricingKeyForms_nodup _) hne₃) fun stored g₄ h₄ => ?_
    obtain ⟨r₄, rfl, hlater', row, hrow, hstored⟩ := h₄
    rw [← hlater'.start]
    have hown : (!pendingPriceWrites session) = true → after.flushed = [] := by
      intro hp
      rw [Bool.not_eq_true'] at hp
      rw [hsame hp]
      exact hm.flushed_eq_nil hp
    refine Safe.bind (returnRead_kept hown (hlater'.reads hread) hrow ?_) fun _ _ _ => hafter
    rw [hstored, hoverride, hlater'.start, hlater.start]
    rfl

theorem runSession_kept (ops : List SessionOp) (hm : session.Marked) :
    Kept defaults t (fun _ _ => True) (runSession defaults session ops) g := by
  induction ops generalizing session g with
  | nil => exact trivial
  | cons op ops ih =>
    cases op with
    | write write => exact ih hm
    | flush => exact Safe.bind (flush_kept hm) fun _ _ h => ih h.2.1
    | execute write => exact Safe.bind (execute_kept hm) fun _ _ h => ih h.2
    | commit => exact Safe.bind (commit_kept hm) fun _ _ h => ih h
    | failCommit landed => exact Safe.bind (failCommit_kept hm) fun _ _ h => ih h
    | rollback => exact Safe.bind rollback_kept fun _ _ h => ih h
    | close => exact ih fun h => absurd rfl h
    | lookup request => exact Safe.bind (resolveStoredPricing_kept hm) fun _ _ h => ih h

/-! ### Every lookup -/

theorem CacheInv.env (h : CacheInv defaults n s γ) {e : Elsewhere}
    (he : (cacheSystem defaults).env e s = some s') : CacheInv defaults n s' γ := by
  cases e with
  | tick seconds =>
    cases he
    have hlater : s.clock ≤ s.clock + seconds :=
      le_add_of_nonneg_right (Int.natCast_nonneg seconds)
    refine h.evolve ⟨h.shared.completed, h.shared.completedAt.trans hlater,
      h.shared.cacheGeneration, fun hg entry hmem => ?_, h.shared.lookups⟩
      ⟨le_rfl, fun _ _ => rfl, le_rfl, le_rfl, fun _ => ⟨rfl, rfl⟩, hlater⟩
    obtain ⟨asOf, hsince, htime, hres⟩ := h.shared.entries hg entry hmem
    exact ⟨asOf, hsince, htime.trans hlater, hres⟩
  | foreignCommit write =>
    cases he
    exact h.evolve (h.shared.land _) (evolves_land s _)
  | resetPricingCache =>
    cases he
    exact h.evolve ⟨h.shared.completed, h.shared.completedAt, h.shared.cacheGeneration,
      fun _ _ hmem => absurd hmem not_mem_nil, h.shared.lookups⟩
      ⟨le_rfl, fun _ _ => rfl, le_rfl, le_rfl, fun _ => ⟨rfl, rfl⟩, le_rfl⟩

/-- **Price cache coherence.**  However sessions that write, flush, commit and roll back are
interleaved with lookups, every lookup that has returned resolved, under its own session's writes,
in versions that were committed by then, none older than the newest whose commit had returned in
this process as the lookup began, and as of an instant no earlier than that commit's return. -/
theorem lookup_coherent {defaults : Defaults} {m : Machine (List SessionOp) Unit PriceStore Unit}
    (h : Reach (cacheSystem defaults) (fun _ _ => True) m) :
    ∀ a ∈ m.store.lookups, a.returned ≤ m.store.latest ∧ a.Coherent defaults m.store.versions := by
  have hsafe := h.safe (I := CacheInv defaults) (Q := fun _ _ _ => True) {}
    (fun s hs => ?_) (fun n s γ hinv _ => ⟨hinv.shared, hinv.thread⟩)
    (fun n s γ e s' hinv he => hinv.env he) fun ops t => runSession_kept ops fun h => absurd rfl h
  · obtain ⟨γ, hinv, -⟩ := hsafe
    exact hinv.shared.lookups
  · obtain ⟨hcompleted, hcompletedAt, hcache, hgeneration, hlookups⟩ := hs
    refine ⟨⟨hcompleted.le, hcompletedAt, hgeneration.le, fun _ entry hmem => ?_, fun a hmem => ?_⟩,
      fun _ => .idle⟩
    · rw [hcache] at hmem
      cases hmem
    · rw [hlookups] at hmem
      cases hmem

/-! ### A rate repriced between two lookups -/

def repricedRow : ModelPricing :=
  { modelKey := ['a', ':', 'b'], effectiveAt := 0,
    columns := { inputPricePerMillion := 3, outputPricePerMillion := 15 } }

def repricedLookup : LookupRequest :=
  { provider := some ['a'], model := ['b'], organizationId := none, deploymentPaid := false,
    useDefaults := false }

def unpricedStore : PriceStore :=
  { versions := fun _ => ⟨[], []⟩, latest := 0, completed := 0, completedAt := 0, generation := 0, cache := [],
    cacheGeneration := 0, clock := 1 }

/-- A reader starts while a writer's flush is open, fills once it has committed, and reads again. -/
def repricedRun : List (Choice (List SessionOp) Elsewhere) :=
  List.flatten [[.spawn [.execute fun prices => { prices with modelPricing := [repricedRow] },
      .commit], .spawn [.lookup repricedLookup, .lookup repricedLookup]],
    List.replicate 1 (.run 0), List.replicate 4 (.run 1), List.replicate 2 (.run 0),
    List.replicate 3 (.run 1)]

theorem repricedRun_lookups :
    ((Machine.mk unpricedStore []).exec (cacheSystem fun _ _ _ => none) (fun _ _ => True)
      repricedRun).map (fun m => m.store.lookups.map (·.stored)) =
        some [some (ofDeployment repricedRow), none] := by
  rfl

theorem lookup_coherent_repriced : ∃ m : Machine (List SessionOp) Unit PriceStore Unit,
    m.store.lookups.map (·.stored) = [some (ofDeployment repricedRow), none] ∧
      ∀ a ∈ m.store.lookups, a.returned ≤ m.store.latest ∧
        a.Coherent (fun _ _ _ => none) m.store.versions := by
  obtain ⟨m, hm, hlookups⟩ := Option.map_eq_some_iff.mp repricedRun_lookups
  exact ⟨m, hlookups, lookup_coherent (.of_exec (.start ⟨rfl, by decide, rfl, rfl, rfl⟩) hm)⟩

end Otari.Pricing
