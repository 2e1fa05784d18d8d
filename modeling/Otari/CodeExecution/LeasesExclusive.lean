import Otari.CodeExecution.ContainerLeases

/-!
# CodeExecution — LeasesExclusive — a container has one holder

What each request knows is its ghost value (`Task`), and a claim not given back is the task of the
request that took it (`Inv`).  A live claim is the one set on its row, or the row is gone
(`Shared.set`), which is what makes its holder the only one.  `leases_safe` is what that gives in
every run whose steps meet `Condition`.
-/

namespace Otari.Containers
open Threads List
open Function (update_eq_self update_eq_self_iff update_of_ne update_self)

/-! ### The condition -/

def ContainerStore.unlapsed (s : ContainerStore) (claim : ℕ) : Bool :=
  s.claims[claim]?.any fun c => decide (s.clock < c.lapses)

/-- **The condition of each step.**  A completion that claimed a container is not refused after it,
and its sandbox opens or is gone; a sandbox is opened, and a claim given back, only under that
claim; and a sandbox is used before the claim's hour is over. -/
def Condition : Label → ContainerStore → Prop
  | .refuse claim, _ => claim = none
  | .openFails claim gone, _ => gone = true ∨ claim = none
  | .opens claim, s => ∀ k ∈ claim, s.live k = true
  | .use claim, s => ∀ k ∈ claim, s.unlapsed k = true
  | .give claim, s => ∀ k ∈ claim, s.live k = true
  | _, _ => True

/-! ### The invariant -/

/-- What a request is doing: it has read the time, or also a row of its caller's; it holds a claim,
or one whose row its record found missing, or has given one back; or its session is new. -/
inductive Task where
  | idle
  | since (now : Instant)
  | found (now : Instant) (c : ℕ) (row : SandboxContainerRow)
  | holding (k c : ℕ) (owner : Owner) (hard : Instant)
  | missing (k c : ℕ) (owner : Owner) (hard : Instant)
  | done (k : ℕ)
  | fresh (c : ℕ)

def Task.claim : Task → Option ℕ
  | holding k _ _ _ => some k
  | missing k _ _ _ => some k
  | _ => none

/-- The request `t` took claim `k` on `c` and has not given it back. -/
def ContainerStore.Has (s : ContainerStore) (t k c : ℕ) (owner : Owner) (hard : Instant) : Prop :=
  (∃ lapses, s.claims[k]? = some ⟨t, c, lapses, false⟩) ∧ ⟨c, owner, hard⟩ ∈ s.takings

def ContainerStore.Untaken (s : ContainerStore) (c : ℕ) : Prop :=
  s.rows c = none ∧ ∀ taking ∈ s.takings, taking.container ≠ c

def Task.Sound (s : ContainerStore) (t : ℕ) : Task → Prop
  | idle => True
  | since now => now ≤ s.clock
  | found now c row => now ≤ s.clock ∧ ⟨c, row.owner, row.hardExpiresAt⟩ ∈ s.takings
  | holding k c owner hard => s.Has t k c owner hard
  | missing k c owner hard =>
    s.Has t k c owner hard ∧ (s.live k = true → s.rows c = none)
  | done k => ∃ claim, s.claims[k]? = some claim ∧ claim.givenBack = true
  | fresh c => s.minted[c]? = some t ∧ s.Untaken c

/-- What holds of the store alone. -/
structure Shared (s : ContainerStore) : Prop where
  taken : ∀ c row, s.rows c = some row → ⟨c, row.owner, row.hardExpiresAt⟩ ∈ s.takings
  once : ∀ a ∈ s.takings, ∀ b ∈ s.takings, a.container = b.container → a = b
  minted : ∀ taking ∈ s.takings, taking.container < s.minted.length
  leased : ∀ (k : ℕ) claim, s.claims[k]? = some claim →
    ∃ taking ∈ s.takings, taking.container = claim.container
  inUse : ∀ c row, s.rows c = some row → ∀ use ∈ row.inUse,
    ∃ request, s.claims[use.2]? = some ⟨request, c, use.1, false⟩
  /-- A live claim is the one set on its row. -/
  set : ∀ k claim, s.claims[k]? = some claim → s.live k = true → ∀ row,
    s.rows claim.container = some row → row.inUse = some (claim.lapses, k)
  exclusive : ∀ k k' claim claim', s.claims[k]? = some claim → s.claims[k']? = some claim' →
    claim.container = claim'.container → s.live k = true → s.live k' = true → k = k'
  used : ∀ use ∈ s.uses, use.held = true
  resumed : ∀ r ∈ s.resumes, ⟨r.container, r.owner, r.row.hardExpiresAt⟩ ∈ s.takings ∧
    r.now < r.row.expiresAt ∧ r.now < r.row.hardExpiresAt
  own : ∀ ending ∈ s.endings, ending.endedBy = some ending.claim

/-- **The invariant of every interleaving.** -/
structure Inv (n : ℕ) (s : ContainerStore) (γ : ℕ → Task) : Prop where
  shared : Shared s
  sound : ∀ t, (γ t).Sound s t
  owned : ∀ k claim, s.claims[k]? = some claim → claim.givenBack = false →
    (γ claim.request).claim = some k

variable {n t u k c : ℕ} {s s' : ContainerStore} {γ : ℕ → Task} {g g' : Task}

theorem live_iff : s.live k = true ↔
    ∃ claim, s.claims[k]? = some claim ∧ claim.givenBack = false ∧ s.clock < claim.lapses := by
  rw [ContainerStore.live, Option.any_eq_true]
  simp

theorem unlapsed_iff : s.unlapsed k = true ↔
    ∃ claim, s.claims[k]? = some claim ∧ s.clock < claim.lapses := by
  rw [ContainerStore.unlapsed, Option.any_eq_true]
  simp

/-! ### What an act leaves of the other tasks -/

/-- What the acts of `t` leave as it was for the others. -/
structure Evolves (t : ℕ) (s s' : ContainerStore) : Prop where
  clock : s.clock ≤ s'.clock
  takings : s.takings ⊆ s'.takings
  minted : ∀ c v : ℕ, s.minted[c]? = some v → s'.minted[c]? = some v
  claims : ∀ (k : ℕ) claim, s.claims[k]? = some claim →
    claim.request ≠ t ∨ claim.givenBack = true → s'.claims[k]? = some claim
  fresh : ∀ c v : ℕ, v ≠ t → s.minted[c]? = some v → s.Untaken c → s'.Untaken c
  missing : ∀ (k : ℕ) claim, s.claims[k]? = some claim → claim.request ≠ t → s.live k = true →
    s.rows claim.container = none → s'.rows claim.container = none

theorem Evolves.live (he : Evolves t s s') {claim : Claim} (hk : s.claims[k]? = some claim)
    (hne : claim.request ≠ t) (hlive : s'.live k = true) : s.live k = true := by
  obtain ⟨claim', hk', hback, hclock⟩ := live_iff.mp hlive
  have hsame := he.claims k claim hk (.inl hne)
  rw [hsame] at hk'
  cases hk'
  exact live_iff.mpr ⟨claim, hk, hback, he.clock.trans_lt hclock⟩

variable {owner : Owner}

theorem ContainerStore.Has.evolve {hard : Instant} (h : s.Has u k c owner hard)
    (he : Evolves t s s') (hu : u ≠ t) : s'.Has u k c owner hard := by
  obtain ⟨⟨lapses, hk⟩, ht⟩ := h
  exact ⟨⟨lapses, he.claims k _ hk (.inl hu)⟩, he.takings ht⟩

theorem Task.Sound.evolve (h : g.Sound s u) (he : Evolves t s s') (hu : u ≠ t) : g.Sound s' u := by
  cases g with
  | idle => trivial
  | since now => exact le_trans h he.clock
  | found now c row => exact ⟨h.1.trans he.clock, he.takings h.2⟩
  | holding k c owner hard => exact h.evolve he hu
  | missing k c owner hard =>
    obtain ⟨hhas, hrow⟩ := h
    refine ⟨hhas.evolve he hu, fun hlive => ?_⟩
    obtain ⟨⟨lapses, hk⟩, -⟩ := hhas
    have hlive := he.live hk hu hlive
    exact he.missing k _ hk hu hlive (hrow hlive)
  | done k =>
    obtain ⟨claim, hk, hback⟩ := h
    exact ⟨claim, he.claims k claim hk (.inr hback), hback⟩
  | fresh c => exact ⟨he.minted c u h.1, he.fresh c u hu h.1 h.2⟩

theorem Inv.update (h : Inv n s γ) (hg : γ t = g) (hshared : Shared s') (he : Evolves t s s')
    (hself : g'.Sound s' t)
    (howned : ∀ (k : ℕ) claim, s'.claims[k]? = some claim → claim.givenBack = false →
      claim.request = t ∧ g'.claim = some k ∨ claim.request ≠ t ∧ s.claims[k]? = some claim) :
    Inv n s' (Function.update γ t g') := by
  refine ⟨hshared, fun u => ?_, fun k claim hk hback => ?_⟩
  · by_cases hu : u = t
    · subst hu
      rwa [update_self]
    · rw [update_of_ne hu]
      exact (h.sound u).evolve he hu
  · rcases howned k claim hk hback with ⟨hown, hclaim⟩ | ⟨hother, hk⟩
    · rw [hown, update_self]
      exact hclaim
    · rw [update_of_ne hother]
      exact h.owned k claim hk hback

theorem Inv.know (h : Inv n s γ) (hg : γ t = g) (hself : g'.Sound s t)
    (hclaim : g'.claim = g.claim) : Inv n s (Function.update γ t g') := by
  refine h.update hg h.shared ⟨le_rfl, List.Subset.refl _, fun _ _ h => h, fun _ _ h _ => h,
    fun _ _ _ _ h => h, fun _ _ _ _ _ h => h⟩ hself fun k claim hk hback => ?_
  by_cases hrequest : claim.request = t
  · refine .inl ⟨hrequest, ?_⟩
    rw [hclaim, ← hg, ← hrequest]
    exact h.owned k claim hk hback
  · exact .inr ⟨hrequest, hk⟩

/-- Safety of a program of the machine. -/
abbrev Kept {α : Type} (t : ℕ) (Q : α → Task → Prop) (p : Act α) (g : Task) : Prop :=
  Safe Inv Condition t Q p g

/-! ### Reading -/

theorem readNow_kept (hg : g.claim = none) : Kept t (fun now g' => g' = .since now) readNow g := by
  intro n s γ b s' _ h hγ _ hf
  cases hf
  exact ⟨.since s.clock, h.know hγ le_rfl hg.symm, rfl⟩

theorem getContainerRow_kept (now : Instant) (c : ℕ) :
    Kept t (fun row g' => match row with
      | none => g'.claim = none
      | some row => g' = .found now c row) (getContainerRow c) (.since now) := by
  intro n s γ b s' _ h hγ _ hf
  obtain ⟨rfl, rfl⟩ : s.rows c = b ∧ s = s' := by simpa using hf
  have hself := h.sound t
  rw [hγ] at hself
  cases hrow : s.rows c with
  | none => exact ⟨.since now, h.know hγ hself rfl, rfl⟩
  | some row =>
    exact ⟨.found now c row, h.know hγ ⟨hself, h.shared.taken c row hrow⟩ rfl, rfl⟩

/-! ### Dropping rows -/

theorem deleteContainerRows_kept (cs : List ℕ) (hg : g.claim = none) :
    Kept t (fun _ g' => g' = .idle) (deleteContainerRows cs) g := by
  intro n s γ b s' _ h hγ _ hf
  cases hf
  have hrows : ∀ c row, (if c ∈ cs then none else s.rows c) = some row → s.rows c = some row := by
    intro c row hrow
    split_ifs at hrow
    exact hrow
  have hnone : ∀ c, s.rows c = none → (if c ∈ cs then none else s.rows c) = none := by
    intro c hc
    rw [hc, ite_self]
  refine ⟨.idle, h.update hγ ?_ ⟨le_rfl, List.Subset.refl _, fun _ _ h => h, fun _ _ h _ => h,
    fun c _ _ _ hu => ⟨hnone c hu.1, hu.2⟩, fun _ _ _ _ _ hr => hnone _ hr⟩ trivial ?_, rfl⟩
  · have hs := h.shared
    exact ⟨fun c row hr => hs.taken c row (hrows c row hr), hs.once, hs.minted, hs.leased,
      fun c row hr => hs.inUse c row (hrows c row hr),
      fun k claim hk hl row hr => hs.set k claim hk hl row (hrows _ row hr), hs.exclusive, hs.used,
      hs.resumed, hs.own⟩
  · intro k claim hk hback
    refine .inr ⟨fun hrequest => ?_, hk⟩
    have howned := h.owned k claim hk hback
    rw [hrequest, hγ, hg] at howned
    cases howned

/-! ### Taking a claim -/

theorem claims_concat {claims : List Claim} {new claim : Claim} :
    (claims ++ [new])[k]? = some claim ↔
      claims[k]? = some claim ∨ k = claims.length ∧ claim = new := by
  rw [List.getElem?_append]
  split_ifs with hlt
  · refine ⟨.inl, fun h => h.elim id fun h => ?_⟩
    exact absurd h.1 hlt.ne
  · rw [List.getElem?_eq_none (not_lt.mp hlt), List.getElem?_singleton]
    by_cases hk : k - claims.length = 0
    · rw [if_pos hk]
      have heq : k = claims.length := by omega
      simp [heq, eq_comm]
    · rw [if_neg hk]
      have hne : k ≠ claims.length := by omega
      simp [hne]

/-- The store after `t` has claimed the row of `c`. -/
def ContainerStore.claimed (s : ContainerStore) (t c : ℕ) (current : SandboxContainerRow)
    (lapses : Instant) (resume : Resume) : ContainerStore :=
  { s with
    rows := Function.update s.rows c (some { current with inUse := some (lapses, s.claims.length) })
    claims := s.claims ++ [{ request := t, container := c, lapses }]
    resumes := resume :: s.resumes }

section
variable {current : SandboxContainerRow} {lapses : Instant} {resume : Resume}

theorem rows_claimed : (s.claimed t c current lapses resume).rows = Function.update s.rows c
    (some { current with inUse := some (lapses, s.claims.length) }) := rfl

theorem live_of_claimed {claim : Claim} (hk : s.claims[k]? = some claim)
    (hlive : (s.claimed t c current lapses resume).live k = true) : s.live k = true := by
  obtain ⟨claim', hk', hback⟩ := live_iff.mp hlive
  rw [show (s.claimed t c current lapses resume).claims[k]? = some claim from
    claims_concat.mpr (.inl hk)] at hk'
  cases hk'
  exact live_iff.mpr ⟨claim, hk, hback⟩

theorem Shared.claimed (hs : Shared s) (hrow : s.rows c = some current)
    (hfree : ∀ k claim, s.claims[k]? = some claim → claim.container = c → ¬ s.live k = true)
    (hresume : ⟨resume.container, resume.owner, resume.row.hardExpiresAt⟩ ∈ s.takings ∧
      resume.now < resume.row.expiresAt ∧ resume.now < resume.row.hardExpiresAt) :
    Shared (s.claimed t c current lapses resume) where
  taken c' row hr := by
    by_cases hc : c' = c
    · subst hc
      rw [rows_claimed, update_self] at hr
      cases hr
      exact hs.taken c' current hrow
    · rw [rows_claimed, update_of_ne hc] at hr
      exact hs.taken c' row hr
  once := hs.once
  minted := hs.minted
  leased k claim hk := by
    rcases claims_concat.mp hk with hk | ⟨rfl, rfl⟩
    · exact hs.leased k claim hk
    · exact ⟨_, hs.taken c current hrow, rfl⟩
  inUse c' row hr use huse := by
    by_cases hc : c' = c
    · subst hc
      rw [rows_claimed, update_self] at hr
      cases hr
      cases huse
      exact ⟨t, claims_concat.mpr (.inr ⟨rfl, rfl⟩)⟩
    · rw [rows_claimed, update_of_ne hc] at hr
      obtain ⟨request, hk⟩ := hs.inUse c' row hr use huse
      exact ⟨request, claims_concat.mpr (.inl hk)⟩
  set k claim hk hlive row hr := by
    rcases claims_concat.mp hk with hk | ⟨rfl, rfl⟩
    · have hlive := live_of_claimed hk hlive
      have hc : claim.container ≠ c := fun hc => hfree k claim hk hc hlive
      rw [rows_claimed, update_of_ne hc] at hr
      exact hs.set k claim hk hlive row hr
    · rw [rows_claimed, update_self] at hr
      cases hr
      rfl
  exclusive k k' claim claim' hk hk' hsame hlive hlive' := by
    rcases claims_concat.mp hk with hk | ⟨rfl, rfl⟩
    · have hlive := live_of_claimed hk hlive
      rcases claims_concat.mp hk' with hk' | ⟨rfl, rfl⟩
      · exact hs.exclusive k k' claim claim' hk hk' hsame hlive (live_of_claimed hk' hlive')
      · exact absurd hlive (hfree k claim hk hsame)
    · rcases claims_concat.mp hk' with hk' | ⟨rfl, rfl⟩
      · exact absurd (live_of_claimed hk' hlive') (hfree k' claim' hk' hsame.symm)
      · rfl
  used := hs.used
  resumed r hr := by
    rcases mem_cons.mp hr with rfl | hr
    · exact hresume
    · exact hs.resumed r hr
  own := hs.own

theorem evolves_claimed (hrow : s.rows c = some current) :
    Evolves t s (s.claimed t c current lapses resume) where
  clock := le_rfl
  takings := List.Subset.refl _
  minted _ _ h := h
  claims k claim hk _ := claims_concat.mpr (.inl hk)
  fresh c' v _ _ hu := by
    have hc : c' ≠ c := by
      rintro rfl
      have hnone := hu.1
      rw [hrow] at hnone
      cases hnone
    refine ⟨?_, hu.2⟩
    rw [rows_claimed, update_of_ne hc]
    exact hu.1
  missing k claim _ _ _ hnone := by
    have hc : claim.container ≠ c := by
      rintro rfl
      rw [hrow] at hnone
      cases hnone
    rw [rows_claimed, update_of_ne hc]
    exact hnone

end

variable {row : SandboxContainerRow}

theorem claimContainerRow_kept {now : Instant}
    (hexpired : ¬ row.expired now = true) (howner : row.owner = owner) :
    Kept t (fun claim g' => match claim with
      | none => g'.claim = none
      | some k => g' = .holding k c owner row.hardExpiresAt)
      (claimContainerRow owner c now row) (.found now c row) := by
  intro n s γ b s' _ h hγ _ hf
  have hself := h.sound t
  rw [hγ] at hself
  obtain ⟨hnow, htaken⟩ := hself
  have hs := h.shared
  dsimp only at hf
  cases hrow : s.rows c with
  | none =>
    rw [hrow] at hf
    cases hf
    exact ⟨.found now c row, h.know hγ ⟨hnow, htaken⟩ rfl, rfl⟩
  | some current =>
    rw [hrow] at hf
    dsimp only at hf
    split at hf
    · rename_i hclaimable
      -- no live claim stands on the row
      have hfree : ∀ k claim, s.claims[k]? = some claim → claim.container = c →
          ¬ s.live k = true := by
        intro k claim hk hc hlive
        have hset := hs.set k claim hk hlive current (by rw [hc]; exact hrow)
        rw [SandboxContainerRow.claimable, hset] at hclaimable
        obtain ⟨claim', hk', -, hclock⟩ := live_iff.mp hlive
        rw [hk] at hk'
        cases hk'
        exact absurd ((of_decide_eq_true hclaimable).trans hnow) (not_le.mpr hclock)
      have hclocks : now < row.expiresAt ∧ now < row.hardExpiresAt := by
        rw [SandboxContainerRow.expired, decide_eq_true_eq, not_or, not_le, not_le] at hexpired
        exact hexpired
      obtain rfl := howner
      cases hf
      refine ⟨.holding s.claims.length c row.owner row.hardExpiresAt, h.update hγ
        (hs.claimed hrow hfree ⟨htaken, hclocks⟩) (evolves_claimed hrow) ?_ ?_, rfl⟩
      · exact ⟨⟨_, claims_concat.mpr (.inr ⟨rfl, rfl⟩)⟩, htaken⟩
      · intro k claim hk hback
        rcases claims_concat.mp hk with hk | ⟨rfl, rfl⟩
        · refine .inr ⟨fun hrequest => ?_, hk⟩
          have howned := h.owned k claim hk hback
          rw [hrequest, hγ] at howned
          cases howned
        · exact .inl ⟨rfl, rfl⟩
    · cases hf
      exact ⟨.found now c row, h.know hγ ⟨hnow, htaken⟩ rfl, rfl⟩

/-! ### Giving a claim back -/

/-- The store once claim `k` on `c` is given back and its row is `x`. -/
structure GivesBack (s s' : ContainerStore) (k c : ℕ) (x : Option SandboxContainerRow) : Prop where
  rows : s'.rows = Function.update s.rows c x
  row : ∀ row ∈ x, row.inUse = none ∧ ⟨c, row.owner, row.hardExpiresAt⟩ ∈ s.takings
  clock : s'.clock = s.clock
  minted : s'.minted = s.minted
  claims : s'.claims = s.claims.modify k fun claim => { claim with givenBack := true }
  takings : ∀ taking, taking ∈ s'.takings ↔ taking ∈ s.takings
  uses : s'.uses = s.uses
  resumes : s'.resumes = s.resumes
  endings : ∀ ending ∈ s'.endings, ending ∈ s.endings ∨ ending = ⟨k, some k⟩

section
variable {x : Option SandboxContainerRow} {claim : Claim}

theorem givesBack_none (hrow : s.rows c = none) : GivesBack s (s.giveBack (some k)) k c none where
  rows := (update_eq_self_iff.mpr hrow.symm).symm
  row _ hr := by cases hr
  clock := rfl
  minted := rfl
  claims := rfl
  takings _ := .rfl
  uses := rfl
  resumes := rfl
  endings _ he := .inl he

theorem givesBack_ended {row released : SandboxContainerRow} {lapses : Instant}
    (huse : row.inUse = some (lapses, k)) (hfree : released.inUse = none)
    (htaken : ⟨c, released.owner, released.hardExpiresAt⟩ ∈ s.takings) :
    GivesBack s (((s.endClaim row (some k)).setRow c (some released)).giveBack (some k)) k c
      (some released) := by
  rw [ContainerStore.endClaim, huse]
  refine ⟨rfl, ?_, rfl, rfl, rfl, fun _ => .rfl, rfl, rfl, fun _ he => (mem_cons.mp he).symm⟩
  rintro row' ⟨⟩
  exact ⟨hfree, htaken⟩

theorem GivesBack.claim_ne (hb : GivesBack s s' k c x) {k' : ℕ}
    (hk' : s'.claims[k']? = some claim) (hback : claim.givenBack = false) :
    k' ≠ k ∧ s.claims[k']? = some claim := by
  rw [hb.claims] at hk'
  by_cases hkk : k = k'
  · subst hkk
    rw [List.getElem?_modify_eq] at hk'
    obtain ⟨old, -, rfl⟩ := Option.map_eq_some_iff.mp hk'
    cases hback
  · rw [List.getElem?_modify_ne _ _ hkk] at hk'
    exact ⟨Ne.symm hkk, hk'⟩

theorem GivesBack.live (hb : GivesBack s s' k c x) {k' : ℕ} (hlive : s'.live k' = true) :
    k' ≠ k ∧ s.live k' = true := by
  obtain ⟨claim, hk', hback, hclock⟩ := live_iff.mp hlive
  obtain ⟨hne, hk'⟩ := hb.claim_ne hk' hback
  rw [hb.clock] at hclock
  exact ⟨hne, live_iff.mpr ⟨claim, hk', hback, hclock⟩⟩

theorem GivesBack.of_live (hb : GivesBack s s' k c x) {k' : ℕ}
    (hk' : s'.claims[k']? = some claim) (hlive : s'.live k' = true) :
    k' ≠ k ∧ s.claims[k']? = some claim ∧ s.live k' = true := by
  obtain ⟨claim', hk'', hback, -⟩ := live_iff.mp hlive
  rw [hk'] at hk''
  cases hk''
  exact ⟨(hb.claim_ne hk' hback).1, (hb.claim_ne hk' hback).2, (hb.live hlive).2⟩

theorem Shared.giveBack (hs : Shared s) (hb : GivesBack s s' k c x)
    (hk : s.claims[k]? = some claim) (hc : claim.container = c) (hlive : s.live k = true) :
    Shared s' where
  taken c' row hr := by
    rw [hb.takings]
    by_cases hcc : c' = c
    · subst hcc
      rw [hb.rows, update_self] at hr
      exact (hb.row row hr).2
    · rw [hb.rows, update_of_ne hcc] at hr
      exact hs.taken c' row hr
  once a ha b hb' := hs.once a ((hb.takings a).mp ha) b ((hb.takings b).mp hb')
  minted taking ht := by
    rw [hb.minted]
    exact hs.minted taking ((hb.takings taking).mp ht)
  leased k' claim' hk' := by
    rw [hb.claims, List.getElem?_modify] at hk'
    obtain ⟨old, hold, rfl⟩ := Option.map_eq_some_iff.mp hk'
    obtain ⟨taking, ht, heq⟩ := hs.leased k' old hold
    refine ⟨taking, (hb.takings taking).mpr ht, heq.trans ?_⟩
    split_ifs <;> rfl
  inUse c' row hr use huse := by
    by_cases hcc : c' = c
    · subst hcc
      rw [hb.rows, update_self] at hr
      rw [(hb.row row hr).1] at huse
      cases huse
    · rw [hb.rows, update_of_ne hcc] at hr
      obtain ⟨request, hk'⟩ := hs.inUse c' row hr use huse
      have hne : k ≠ use.2 := by
        intro he
        rw [← he, hk] at hk'
        cases hk'
        exact hcc hc
      refine ⟨request, ?_⟩
      rw [hb.claims, List.getElem?_modify_ne _ _ hne]
      exact hk'
  set k' claim' hk' hlive' row hr := by
    obtain ⟨hne, hk', hlive'⟩ := hb.of_live hk' hlive'
    have hcc : claim'.container ≠ c := fun he =>
      hne (hs.exclusive k' k claim' claim hk' hk (he.trans hc.symm) hlive' hlive)
    rw [hb.rows, update_of_ne hcc] at hr
    exact hs.set k' claim' hk' hlive' row hr
  exclusive k₁ k₂ claim₁ claim₂ hk₁ hk₂ hsame hlive₁ hlive₂ := by
    obtain ⟨-, hk₁, hlive₁⟩ := hb.of_live hk₁ hlive₁
    obtain ⟨-, hk₂, hlive₂⟩ := hb.of_live hk₂ hlive₂
    exact hs.exclusive k₁ k₂ claim₁ claim₂ hk₁ hk₂ hsame hlive₁ hlive₂
  used := by
    rw [hb.uses]
    exact hs.used
  resumed := by
    rw [hb.resumes]
    intro r hr
    rw [hb.takings]
    exact hs.resumed r hr
  own ending he := by
    rcases hb.endings ending he with he | rfl
    · exact hs.own ending he
    · rfl

theorem Inv.giveBack {owner : Owner} {hard : Instant} (h : Inv n s γ) (hg : γ t = g)
    (hhas : s.Has t k c owner hard) (hlive : s.live k = true) (hb : GivesBack s s' k c x) :
    Inv n s' (Function.update γ t (.done k)) := by
  obtain ⟨⟨lapses, hk⟩, htaken⟩ := hhas
  have howned := h.owned k _ hk rfl
  refine h.update hg (h.shared.giveBack hb hk rfl hlive) ?_ ?_ ?_
  · refine ⟨hb.clock.ge, fun taking ht => (hb.takings taking).mpr ht, ?_, ?_, ?_, ?_⟩
    · rw [hb.minted]
      exact fun _ _ h => h
    · intro k' claim hk' hother
      have hne : k ≠ k' := by
        rintro rfl
        rw [hk] at hk'
        cases hk'
        rcases hother with hother | hother
        · exact hother rfl
        · cases hother
      rw [hb.claims, List.getElem?_modify_ne _ _ hne]
      exact hk'
    · intro c' v _ _ hu
      have hcc : c' ≠ c := by
        rintro rfl
        exact hu.2 _ htaken rfl
      refine ⟨?_, fun taking ht => hu.2 taking ((hb.takings taking).mp ht)⟩
      rw [hb.rows, update_of_ne hcc]
      exact hu.1
    · intro k' claim hk' hother hlive' hnone
      have hcc : claim.container ≠ c := by
        intro hcc
        obtain rfl := h.shared.exclusive k' k claim _ hk' hk hcc hlive' hlive
        rw [hk] at hk'
        cases hk'
        exact hother rfl
      rw [hb.rows, update_of_ne hcc]
      exact hnone
  · refine ⟨{ request := t, container := c, lapses, givenBack := true }, ?_, rfl⟩
    rw [hb.claims, List.getElem?_modify_eq, hk]
    rfl
  · intro k' claim hk' hback
    obtain ⟨hne, hk'⟩ := hb.claim_ne hk' hback
    refine .inr ⟨fun hrequest => hne ?_, hk'⟩
    have howned' := h.owned k' claim hk' hback
    rw [hrequest] at howned'
    exact Option.some.inj (howned'.symm.trans howned)

end

/-! ### Using a sandbox -/

/-- The request holds the claim it resumed its lease under. -/
def HeldBy (owner : Owner) (held : Held) (g : Task) : Prop :=
  g = .holding held.claim held.lease.containerId owner held.lease.hardExpiresAt

theorem Inv.noteUse (h : Inv n s γ) (hg : γ t = g) {claim : Option ℕ}
    (hlive : ∀ k ∈ claim, s.live k = true) : Inv n (s.noteUse claim) (Function.update γ t g) := by
  rw [← hg, update_eq_self]
  cases claim with
  | none => exact h
  | some k =>
    have hs := h.shared
    refine ⟨⟨hs.taken, hs.once, hs.minted, hs.leased, hs.inUse, hs.set, hs.exclusive, ?_,
      hs.resumed, hs.own⟩, fun u => ?_, h.owned⟩
    · intro use huse
      rcases mem_cons.mp huse with rfl | huse
      · exact hlive k rfl
      · exact hs.used use huse
    · have hu := h.sound u
      cases hγ : γ u <;> rw [hγ] at hu <;> exact hu

variable {held : Option Held}

theorem useSandbox_kept (uses : ℕ) (hheld : ∀ h ∈ held, HeldBy owner h g) :
    Kept t (fun _ g' => g' = g) (useSandbox held uses) g := by
  induction uses with
  | zero => exact rfl
  | succ uses ih =>
    refine Safe.bind (Q := fun _ g' => g' = g) ?_ fun _ g' hg' => hg' ▸ ih
    intro n s γ b s' _ h hγ hC hf
    cases hf
    refine ⟨g, h.noteUse hγ fun k hk => ?_, rfl⟩
    obtain ⟨held, rfl, rfl⟩ := Option.map_eq_some_iff.mp hk
    have hself := h.sound t
    rw [hγ, hheld held rfl] at hself
    obtain ⟨⟨lapses, hclaim⟩, -⟩ := hself
    obtain ⟨claim, hk', hclock⟩ := unlapsed_iff.mp (hC held.claim rfl)
    rw [hclaim] at hk'
    cases hk'
    exact live_iff.mpr ⟨_, hclaim, rfl, hclock⟩

/-- The request holds the claim it was admitted with, where it resumes a lease. -/
def Holds (owner : Owner) (held : Option Held) (g : Task) : Prop :=
  match held with
  | some held => HeldBy owner held g
  | none => g.claim = none

/-- The request's claim, where it had one, is given back. -/
def Left (held : Option Held) (g : Task) : Prop :=
  match held with
  | some held => g = .done held.claim
  | none => g.claim = none

theorem Left.claim (h : Left held g) : g.claim = none := by
  cases held with
  | none => exact h
  | some held =>
    rw [h]
    rfl

/-- What a request knows of the session it has opened, and of its lease. -/
def Opened (owner : Owner) (held : Option Held) (lease : Option ContainerLease) (g : Task) : Prop :=
  match held with
  | some held => HeldBy owner held g ∧ ∀ l ∈ lease,
      l.containerId = held.lease.containerId ∧ l.hardExpiresAt = held.lease.hardExpiresAt
  | none => g.claim = none ∧ ∀ l ∈ lease, g = .fresh l.containerId

theorem Inv.mint (h : Inv n s γ) (hg : γ t = g) (hclaim : g.claim = none) :
    Inv n { s with minted := s.minted ++ [t] }
      (Function.update γ t (.fresh s.minted.length)) := by
  have hs := h.shared
  have hminted : ∀ c v : ℕ, s.minted[c]? = some v → (s.minted ++ [t])[c]? = some v := by
    intro c v hc
    rw [List.getElem?_append_left (List.getElem?_eq_some_iff.mp hc).1]
    exact hc
  have huntaken : s.Untaken s.minted.length := by
    refine ⟨?_, fun taking ht => (hs.minted taking ht).ne⟩
    rw [Option.eq_none_iff_forall_not_mem]
    exact fun row hr => lt_irrefl _ (hs.minted _ (hs.taken _ row hr))
  refine h.update hg ?_ ⟨le_rfl, List.Subset.refl _, hminted, fun _ _ h _ => h,
    fun _ _ _ _ hu => hu, fun _ _ _ _ _ hr => hr⟩ ?_ ?_
  · refine ⟨hs.taken, hs.once, fun taking ht => ?_, hs.leased, hs.inUse, hs.set, hs.exclusive,
      hs.used, hs.resumed, hs.own⟩
    rw [length_append]
    exact Nat.lt_add_right _ (hs.minted taking ht)
  · refine ⟨?_, huntaken⟩
    rw [List.getElem?_append_right le_rfl, Nat.sub_self]
    rfl
  · intro k claim hk hback
    refine .inr ⟨fun hrequest => ?_, hk⟩
    have howned := h.owned k claim hk hback
    rw [hrequest, hg, hclaim] at howned
    cases howned

theorem Opened.discard {lease : Option ContainerLease}
    (h : Opened owner held lease g) : Opened owner held none g := by
  cases held with
  | none => exact ⟨h.1, fun _ hl => (by cases hl)⟩
  | some held => exact ⟨h.1, fun _ hl => (by cases hl)⟩

theorem not_live_of_done (h : (Task.done k).Sound s t) : ¬ s.live k = true := by
  obtain ⟨claim, hk, hback⟩ := h
  rintro hlive
  obtain ⟨claim', hk', hback', -⟩ := live_iff.mp hlive
  rw [hk] at hk'
  cases hk'
  rw [hback] at hback'
  cases hback'

variable {registry : Registry}

theorem openSession_kept {providerSessionId : ℕ}
    {holds : Bool} (hheld : Holds registry.owner held g ∨ Left held g) :
    Kept t (Opened registry.owner held) (openSession registry held providerSessionId holds) g := by
  intro n s γ b s' _ h hγ hC hf
  cases held with
  | some held =>
    cases hf
    rcases hheld with hheld | hleft
    · refine ⟨g, h.noteUse hγ fun k hk => hC k hk, hheld, fun l hl => ?_⟩
      split at hl
      · cases hl
        exact ⟨rfl, rfl⟩
      · cases hl
    · have hself := h.sound t
      rw [hγ, hleft] at hself
      exact absurd (hC held.claim rfl) (not_live_of_done hself)
  | none =>
    cases hf
    refine ⟨.fresh s.minted.length, h.mint hγ (hheld.elim id id), rfl, fun l hl => ?_⟩
    split at hl
    · cases hl
      rfl
    · cases hl

/-! ### Recording and releasing -/

/-- What a record of a held claim has selected: no row, or the row the claim is set on. -/
def Selected (owner : Owner) (held : Held) (existing : Option SandboxContainerRow) (g : Task) :
    Prop :=
  match existing with
  | none => g = .missing held.claim held.lease.containerId owner held.lease.hardExpiresAt
  | some row => HeldBy owner held g ∧ row.inUse.isSome = true

theorem selectHeld_kept {held : Held} {lease : ContainerLease}
    (hc : lease.containerId = held.lease.containerId) (hheld : HeldBy owner held g) :
    Kept t (Selected owner held)
      (.read (.give (some held.claim)) fun _ (s : ContainerStore) => s.rows lease.containerId)
      g := by
  intro n s γ b s' _ h hγ hC hf
  obtain ⟨rfl, rfl⟩ : s.rows lease.containerId = b ∧ s = s' := by simpa using hf
  have hlive : s.live held.claim = true := hC held.claim rfl
  have hself := h.sound t
  rw [hγ, hheld] at hself
  rw [hc]
  cases hrow : s.rows held.lease.containerId with
  | none =>
    refine ⟨.missing held.claim held.lease.containerId owner held.lease.hardExpiresAt,
      h.know hγ ⟨hself, fun _ => hrow⟩ ?_, rfl⟩
    rw [hheld]
    rfl
  | some row =>
    obtain ⟨⟨lapses, hk⟩, -⟩ := hself
    have hset := h.shared.set held.claim _ hk hlive row hrow
    refine ⟨g, ?_, hheld, ?_⟩
    · rw [← hγ, update_eq_self]
      exact h
    · rw [hset]
      rfl

theorem Inv.set_row {hard : Instant} (h : Inv n s γ) (hhas : s.Has t k c owner hard)
    (hlive : s.live k = true) (hrow : s.rows c = some row) :
    ∃ lapses, row.inUse = some (lapses, k) := by
  obtain ⟨⟨lapses, hk⟩, -⟩ := hhas
  exact ⟨lapses, h.shared.set k _ hk hlive row hrow⟩

theorem writeHeld_kept {held : Held} {lease : ContainerLease}
    {existing : Option SandboxContainerRow} (hc : lease.containerId = held.lease.containerId)
    (hhard : lease.hardExpiresAt = held.lease.hardExpiresAt) (hg : Selected owner held existing g) :
    Kept t (fun _ g' => g' = .done held.claim) (.one (.give (some held.claim)) fun _ s =>
        some ((), writeLease s owner (some held.claim) lease existing)) g := by
  intro n s γ b s' _ h hγ hC hf
  cases hf
  have hlive : s.live held.claim = true := hC held.claim rfl
  have hself := h.sound t
  rw [hγ] at hself
  refine ⟨.done held.claim, ?_, rfl⟩
  cases existing with
  | none =>
    rw [hg] at hself
    obtain ⟨hhas, hmissing⟩ := hself
    have hnone := hmissing hlive
    simp only [writeLease, hc, hnone, hhard]
    refine h.giveBack hγ hhas hlive
      { rows := rfl, row := ?_, clock := rfl, minted := rfl, claims := rfl, takings := ?_,
        uses := rfl, resumes := rfl, endings := fun _ he => .inl he }
    · intro row hr
      cases hr
      exact ⟨rfl, hhas.2⟩
    · intro taking
      exact ⟨fun ht => (mem_cons.mp ht).elim (fun he => he ▸ hhas.2) id,
        mem_cons_of_mem _⟩
  | some selected =>
    obtain ⟨hheld, hset⟩ := hg
    rw [hheld] at hself
    cases hrow : s.rows held.lease.containerId with
    | none =>
      simp only [writeLease, hc, hrow]
      exact h.giveBack hγ hself hlive (givesBack_none hrow)
    | some row =>
      obtain ⟨lapses, huse⟩ := h.set_row hself hlive hrow
      simp only [writeLease, hc, hrow, hset, if_true]
      exact h.giveBack hγ hself hlive (givesBack_ended huse rfl (h.shared.taken _ row hrow))

theorem release_kept {held : Held} (hheld : HeldBy owner held g) :
    Kept t (fun _ g' => g' = .done held.claim) (release held) g := by
  intro n s γ b s' _ h hγ hC hf
  cases hf
  have hlive : s.live held.claim = true := hC held.claim rfl
  have hself := h.sound t
  rw [hγ, hheld] at hself
  refine ⟨.done held.claim, ?_, rfl⟩
  cases hrow : s.rows held.lease.containerId with
  | none =>
    exact h.giveBack hγ hself hlive (givesBack_none hrow)
  | some row =>
    obtain ⟨lapses, huse⟩ := h.set_row hself hlive hrow
    exact h.giveBack hγ hself hlive (givesBack_ended huse rfl (h.shared.taken _ row hrow))

theorem forget_kept {held : Held} (hheld : HeldBy owner held g) :
    Kept t (fun _ g' => g' = .done held.claim) (forget held) g := by
  intro n s γ b s' _ h hγ hC hf
  cases hf
  have hlive : s.live held.claim = true := hC held.claim rfl
  have hself := h.sound t
  rw [hγ, hheld] at hself
  refine ⟨.done held.claim, h.giveBack (x := none) hγ hself hlive
    { rows := rfl, row := fun row hr => (by cases hr), clock := rfl, minted := rfl, claims := rfl
      takings := fun _ => .rfl, uses := rfl, resumes := rfl, endings := fun _ he => .inl he }, rfl⟩

variable {Q : Unit → Task → Prop}

theorem release_done_kept {held : Held} : Kept t Q (release held) (.done held.claim) := by
  intro n s γ b s' _ h hγ hC _
  have hself := h.sound t
  rw [hγ] at hself
  exact absurd (hC held.claim rfl) (not_live_of_done hself)

theorem forget_done_kept {held : Held} : Kept t Q (forget held) (.done held.claim) := by
  intro n s γ b s' _ h hγ hC _
  have hself := h.sound t
  rw [hγ] at hself
  exact absurd (hC held.claim rfl) (not_live_of_done hself)

/-! ### Taking a lease -/

/-- The store after `t` has taken a lease under a new id. -/
def ContainerStore.taken (s : ContainerStore) (c : ℕ) (row : SandboxContainerRow) :
    ContainerStore :=
  { s.setRow c (some row) with takings := ⟨c, row.owner, row.hardExpiresAt⟩ :: s.takings }

theorem rows_taken : (s.taken c row).rows = Function.update s.rows c (some row) := rfl

theorem Shared.ne_of_untaken (hs : Shared s) (hu : s.Untaken c) {claim : Claim}
    (hk : s.claims[k]? = some claim) : claim.container ≠ c := by
  obtain ⟨taking, ht, heq⟩ := hs.leased k claim hk
  rw [← heq]
  exact hu.2 taking ht

section
variable {row : SandboxContainerRow}

theorem Shared.taking (hs : Shared s) (hu : s.Untaken c) (hc : c < s.minted.length)
    (hrow : row.inUse = none) : Shared (s.taken c row) where
  taken c' row' hr := by
    by_cases hcc : c' = c
    · subst hcc
      rw [rows_taken, update_self] at hr
      cases hr
      exact mem_cons_self
    · rw [rows_taken, update_of_ne hcc] at hr
      exact mem_cons_of_mem _ (hs.taken c' row' hr)
  once a ha b hb hsame := by
    rcases mem_cons.mp ha with rfl | ha
    · rcases mem_cons.mp hb with rfl | hb
      · rfl
      · exact absurd hsame.symm (hu.2 b hb)
    · rcases mem_cons.mp hb with rfl | hb
      · exact absurd hsame (hu.2 a ha)
      · exact hs.once a ha b hb hsame
  minted taking ht := by
    rcases mem_cons.mp ht with rfl | ht
    · exact hc
    · exact hs.minted taking ht
  leased k claim hk := by
    obtain ⟨taking, ht, heq⟩ := hs.leased k claim hk
    exact ⟨taking, mem_cons_of_mem _ ht, heq⟩
  inUse c' row' hr use huse := by
    by_cases hcc : c' = c
    · subst hcc
      rw [rows_taken, update_self] at hr
      cases hr
      rw [hrow] at huse
      cases huse
    · rw [rows_taken, update_of_ne hcc] at hr
      exact hs.inUse c' row' hr use huse
  set k claim hk hlive row' hr := by
    rw [rows_taken, update_of_ne (hs.ne_of_untaken hu hk)] at hr
    exact hs.set k claim hk hlive row' hr
  exclusive := hs.exclusive
  used := hs.used
  resumed r hr := by
    obtain ⟨ht, hclocks⟩ := hs.resumed r hr
    exact ⟨mem_cons_of_mem _ ht, hclocks⟩
  own := hs.own

theorem evolves_taken (hs : Shared s) (hu : s.Untaken c) (hc : s.minted[c]? = some t) :
    Evolves t s (s.taken c row) where
  clock := le_rfl
  takings _ ht := mem_cons_of_mem _ ht
  minted _ _ h := h
  claims _ _ hk _ := hk
  fresh c' v hv hc' hu' := by
    have hcc : c' ≠ c := by
      rintro rfl
      rw [hc] at hc'
      exact hv (Option.some.inj hc').symm
    refine ⟨?_, fun taking ht => ?_⟩
    · rw [rows_taken, update_of_ne hcc]
      exact hu'.1
    · rcases mem_cons.mp ht with rfl | ht
      · exact hcc.symm
      · exact hu'.2 taking ht
  missing k claim hk _ _ hnone := by
    rw [rows_taken, update_of_ne (hs.ne_of_untaken hu hk)]
    exact hnone

end

theorem recordFresh_kept {lease : ContainerLease} :
    Kept t (fun _ g' => g' = .idle) (registry.record none lease) (.fresh lease.containerId) := by
  refine Safe.bind (Q := fun existing g' => existing = none ∧ g' = .fresh lease.containerId) ?_ ?_
  · intro n s γ b s' _ h hγ _ hf
    obtain ⟨rfl, rfl⟩ : s.rows lease.containerId = b ∧ s = s' := by simpa using hf
    have hself := h.sound t
    rw [hγ] at hself
    exact ⟨.fresh lease.containerId, h.know hγ hself rfl, hself.2.1, rfl⟩
  · rintro _ _ ⟨rfl, rfl⟩ n s γ b s' _ h hγ _ hf
    cases hf
    have hself := h.sound t
    rw [hγ] at hself
    obtain ⟨hminted, huntaken⟩ := hself
    have hs := h.shared
    have hlt := (List.getElem?_eq_some_iff.mp hminted).1
    refine ⟨.idle, ?_, rfl⟩
    simp only [writeLease, huntaken.1, ContainerStore.giveBack]
    refine h.update hγ (hs.taking huntaken hlt rfl) (evolves_taken hs huntaken hminted) trivial ?_
    intro k claim hk hback
    refine .inr ⟨fun hrequest => ?_, hk⟩
    have howned := h.owned k claim hk hback
    rw [hrequest, hγ] at howned
    cases howned

/-! ### A request, from its claim to its end -/

theorem resolve_kept (registry : Registry) (c : ℕ) :
    Kept t (fun outcome g' => match outcome with
      | .ok held => HeldBy registry.owner held g'
      | .error _ => g'.claim = none) (registry.resolve c) .idle := by
  refine Safe.bind (readNow_kept rfl) fun now g' hg' => ?_
  subst hg'
  refine Safe.bind (getContainerRow_kept now c) fun row g' hg' => ?_
  cases row with
  | none => exact hg'
  | some row =>
    obtain rfl : g' = .found now c row := hg'
    dsimp only
    split
    · refine Safe.bind (deleteContainerRows_kept [c] rfl) fun _ g' hg' => ?_
      subst hg'
      rfl
    · rename_i hexpired
      split
      · rfl
      · rename_i howner
        refine Safe.bind (claimContainerRow_kept hexpired (not_not.mp howner))
          fun claim g' hg' => ?_
        cases claim with
        | none => exact hg'
        | some claim => exact hg'

theorem leave_kept {lease : Option ContainerLease} (h : Opened registry.owner held lease g) :
    Kept t (fun _ g' => Left held g') (leave registry held lease) g := by
  cases held with
  | none =>
    cases lease with
    | none => exact h.1
    | some lease =>
      rw [h.2 lease rfl]
      refine recordFresh_kept.mono fun _ g' hg' => ?_
      rw [hg']
      rfl
  | some held =>
    cases lease with
    | none => exact release_kept h.1
    | some lease =>
      obtain ⟨hc, hhard⟩ := h.2 lease rfl
      exact Safe.bind (selectHeld_kept hc h.1) fun _ _ hg' => writeHeld_kept hc hhard hg'

theorem tell_kept {label : Label}
    (h : ∀ s : ContainerStore, g.Sound s t → Condition label s → Q () g) :
    Kept t Q (.one label fun _ (s : ContainerStore) => some ((), s)) g := by
  intro n s γ b s' _ hI hγ hC hf
  cases hf
  have hself := hI.sound t
  rw [hγ] at hself
  refine ⟨g, ?_, h s hself hC⟩
  rw [← hγ, update_eq_self]
  exact hI

theorem giveBackClaim_kept (owner : Owner) (h : Holds owner held g ∨ Left held g) :
    Kept t (fun _ g' => g'.claim = none) (giveBackClaim held) g := by
  cases held with
  | none => exact h.elim id id
  | some held =>
    rcases h with h | h
    · refine (release_kept h).mono fun _ g' hg' => ?_
      rw [hg']
      rfl
    · rw [h]
      exact release_done_kept

theorem forgetContainer_kept (h : Holds owner held g ∨ Left held g) :
    Kept t (fun _ g' => Left held g') (forgetContainer held) g := by
  cases held with
  | none => exact h.elim id id
  | some held =>
    rcases h with h | h
    · exact forget_kept h
    · rw [h]
      exact forget_done_kept

theorem session_kept {α : Type} {Q : α → Task → Prop}
    {candidate : Candidate} {providerSessionId : ℕ} {holds : Bool} {k : Act α}
    (h : Holds registry.owner held g ∨ Left held g) (hk : ∀ g', Left held g' → Kept t Q k g') :
    Kept t Q (do
      let lease ← openSession registry held providerSessionId holds
      useSandbox held candidate.uses
      leave registry held (if candidate.seeds then lease else none)
      k) g := by
  refine Safe.bind (openSession_kept h) fun lease g' hg' => ?_
  have hheld : ∀ h ∈ held, HeldBy registry.owner h g' := by
    rintro held' rfl
    exact hg'.1
  refine Safe.bind (useSandbox_kept candidate.uses hheld) fun _ g'' hg'' => ?_
  subst hg''
  refine Safe.bind (leave_kept ?_) fun _ g'' hg'' => hk g'' hg''
  split
  · exact hg'
  · exact hg'.discard

theorem runCandidate_kept {candidate : Candidate} (h : Holds registry.owner held g ∨ Left held g) :
    Kept t (fun _ g' => Left held g') (runCandidate registry held candidate) g := by
  rw [runCandidate]
  split
  · refine Safe.bind (Q := fun _ g' => Left held g') (tell_kept fun _ _ hC => ?_) fun _ _ hg' => hg'
    cases held with
    | none => exact h.elim id id
    | some held => exact absurd hC (by simp [Condition])
  · refine Safe.bind (Q := fun _ g' => g' = g) (tell_kept fun _ _ _ => rfl) fun _ g' hg' => ?_
    subst hg'
    exact Safe.bind (forgetContainer_kept h) fun _ _ hg' => hg'
  · exact session_kept h fun _ hg' => hg'

theorem walkCandidates_kept (candidates : List Candidate) (h : Left held g) :
    Kept t (fun _ g' => Left held g') (walkCandidates registry held candidates) g := by
  induction candidates generalizing g with
  | nil => exact h
  | cons candidate candidates ih =>
    refine Safe.bind (runCandidate_kept (.inr h)) fun again g' hg' => ?_
    split
    · exact ih hg'
    · exact hg'

theorem walkFrom_kept (first : Candidate)
    (others : List Candidate) (h : Holds registry.owner held g) :
    Kept t (fun _ g' => Left held g') (walkCandidates registry held (first :: others)) g := by
  refine Safe.bind (runCandidate_kept (.inl h)) fun again g' hg' => ?_
  split
  · exact walkCandidates_kept others hg'
  · exact hg'

theorem claimContainer_kept (request : Request) :
    Kept t (fun outcome g' => match outcome with
      | .ok held => Holds request.registry.owner held g'
      | .error _ => g'.claim = none) request.claimContainer .idle := by
  rw [Request.claimContainer]
  split
  · rfl
  · refine Safe.bind (resolve_kept _ _) fun outcome g' hg' => ?_
    cases outcome with
    | error e => exact hg'
    | ok held => exact hg'

theorem complete_kept (request : Request) (refused : Bool) (first : Candidate)
    (others : List Candidate) :
    Kept t (fun _ g' => g'.claim = none) (complete request refused first others) .idle := by
  refine Safe.bind (claimContainer_kept request) fun outcome g' hg' => ?_
  cases outcome with
  | error e => exact hg'
  | ok held =>
    dsimp only
    split
    · refine tell_kept fun _ _ hC => ?_
      cases held with
      | none => exact hg'
      | some held => cases hC
    · exact (walkFrom_kept first others hg').mono fun _ _ hleft => hleft.claim

theorem executeCode_kept (request : Request) (refused : Bool) (candidate : Candidate)
    (raises : Bool) :
    Kept t (fun _ g' => g'.claim = none) (executeCode request refused candidate raises) .idle := by
  refine Safe.bind (claimContainer_kept request) fun outcome g' hg' => ?_
  cases outcome with
  | error e => exact hg'
  | ok held =>
    dsimp only
    split
    · exact giveBackClaim_kept _ (.inl hg')
    · split
      · exact giveBackClaim_kept _ (.inl hg')
      · exact (forgetContainer_kept (.inl hg')).mono fun _ _ hleft => Left.claim hleft
      · refine session_kept (.inl hg') fun g' hg' => ?_
        split
        · exact giveBackClaim_kept request.registry.owner (.inr hg')
        · exact hg'.claim

theorem sweep_kept (batchSize : ℕ) :
    Kept t (fun _ g' => g'.claim = none) (sweepExpiredContainers batchSize) .idle := by
  refine Safe.bind (readNow_kept rfl) fun now g' hg' => ?_
  subst hg'
  refine Safe.bind (Q := fun _ g' => g'.claim = none) (Safe.read fun _ _ _ _ _ _ _ => rfl)
    fun ids g' hg' => ?_
  split
  · exact hg'
  · refine (deleteContainerRows_kept ids hg').mono fun _ g' hg' => ?_
    rw [hg']
    rfl


/-! ### Every run -/

theorem tick_kept (h : Inv n s γ) (seconds : ℕ) :
    Inv n { s with clock := s.clock + seconds } γ := by
  have hs := h.shared
  have hle : s.clock ≤ s.clock + seconds := le_add_of_nonneg_right seconds.cast_nonneg
  have hlive : ∀ k : ℕ, ContainerStore.live { s with clock := s.clock + seconds } k = true →
      s.live k = true := by
    intro k hlive
    obtain ⟨claim, hk, hback, hclock⟩ := live_iff.mp hlive
    exact live_iff.mpr ⟨claim, hk, hback, hle.trans_lt hclock⟩
  refine ⟨⟨hs.taken, hs.once, hs.minted, hs.leased, hs.inUse,
    fun k claim hk hl => hs.set k claim hk (hlive k hl),
    fun k k' claim claim' hk hk' hc hl hl' =>
      hs.exclusive k k' claim claim' hk hk' hc (hlive k hl) (hlive k' hl'),
    hs.used, hs.resumed, hs.own⟩, fun t => ?_, h.owned⟩
  have hself := h.sound t
  cases hγ : γ t <;> rw [hγ] at hself
  case since now => exact le_trans hself hle
  case found now c row => exact ⟨hself.1.trans hle, hself.2⟩
  case missing k c owner hard => exact ⟨hself.1, fun hl => hself.2 (hlive k hl)⟩
  all_goals exact hself

theorem inv_start : Inv 0 {} fun _ => .idle where
  shared :=
    { taken := fun _ _ h => (by cases h), once := fun _ h => (by cases h)
      minted := fun _ h => (by cases h), leased := fun _ _ h => (by cases h)
      inUse := fun _ _ h => (by cases h), set := fun _ _ h => (by cases h)
      exclusive := fun _ _ _ _ h => (by cases h), used := fun _ h => (by cases h)
      resumed := fun _ h => (by cases h), own := fun _ h => (by cases h) }
  sound _ := trivial
  owned _ _ h := by cases h

/-- **Leases are exclusive and always given back.** -/
theorem leases_safe {m : ContainerMachine} (h : Reach containerSystem Condition m) :
    LeasesSafe m := by
  have hstart : ∀ s, containerSystem.start s → Inv 0 s fun _ => .idle := by
    rintro s rfl
    exact inv_start
  have henv : ∀ n s γ e s', Inv n s γ → containerSystem.env e s = some s' → Inv n s' γ := by
    rintro n s γ ⟨seconds⟩ s' hI he
    cases he
    exact tick_kept hI seconds
  have hsafe : ∀ op t, Kept t (fun _ g' => g'.claim = none) (containerSystem.program op) .idle := by
    intro op t
    cases op with
    | complete request refused first others => exact complete_kept request refused first others
    | execute request refused candidate raises =>
      exact executeCode_kept request refused candidate raises
    | sweep batchSize => exact sweep_kept batchSize
  obtain ⟨γ, hI, -, hth⟩ := h.safe Task.idle hstart
    (fun _ _ _ hI _ => ⟨hI.shared, hI.sound, hI.owned⟩) henv hsafe
  have hs := hI.shared
  refine ⟨?_, hs.used, ?_, ?_, ?_, ?_, hs.own⟩
  · intro k k' claim claim' hk hk' hc hl hl' _ _
    obtain rfl := hs.exclusive k k' claim claim' hk hk' hc hl hl'
    rw [hk] at hk'
    cases hk'
    rfl
  · intro r hr
    obtain ⟨htaken, hclocks⟩ := hs.resumed r hr
    exact ⟨⟨_, htaken, rfl⟩, fun taking ht hc => congrArg Taking.owner (hs.once _ ht _ htaken hc),
      hclocks⟩
  · intro c row hrow taking ht hc
    exact congrArg Taking.hardExpiresAt (hs.once _ ht _ (hs.taken c row hrow) hc)
  · exact fun a ha b hb hc => congrArg Taking.hardExpiresAt (hs.once a ha b hb hc)
  · rintro k claim hk ⟨th, hi, hended⟩ c row hrow use huse rfl
    obtain ⟨request, hset⟩ := hs.inUse c row hrow use huse
    rw [hk] at hset
    cases hset
    have howned := hI.owned use.2 _ hk rfl
    have hnone := hth request th hi
    rw [hended] at hnone
    exact absurd (howned.symm.trans hnone) (Option.some_ne_none _)

/-! ### A container resumed -/

instance instDecidableCondition (l : Label) (s : ContainerStore) : Decidable (Condition l s) :=
  match l with
  | .refuse _ | .openFails _ _ | .opens _ | .use _ | .give _ => by unfold Condition; infer_instance
  | .now | .read | .drop | .claim => .isTrue trivial

def heldOnce : Candidate := ⟨.opens 5 true, 1, true⟩

/-- A request takes a container, and the next one of its caller resumes it, refused or not. -/
def thenResumed (refused : Bool) (steps : ℕ) : List (Choice ContainerOp Elsewhere) :=
  let registry : Registry := ⟨⟨1, 1, 0⟩, 600, 3600⟩
  List.flatten [[.spawn (.complete ⟨registry, none⟩ false heldOnce [])],
    List.replicate 4 (.run 0), [.env (.tick 30)],
    [.spawn (.complete ⟨registry, some 0⟩ refused heldOnce [])], List.replicate steps (.run 1)]

/-- How many requests have ended, how many resumed a lease and used its sandbox, and the claim set
on the row. -/
def leaseState (m : ContainerMachine) : ℕ × ℕ × ℕ × Option (Option ℕ) :=
  (m.calls.countP fun call => call.2.isSome, m.store.resumes.length, m.store.uses.length,
    (m.store.rows 0).map fun row => row.inUse.map Prod.snd)

theorem thenResumed_recorded :
    ((Machine.mk {} []).exec containerSystem Condition (thenResumed false 7)).map leaseState =
      some (2, 1, 2, some none) := by
  rfl

theorem leases_safe_resumed : ∃ m, leaseState m = (2, 1, 2, some none) ∧ LeasesSafe m := by
  obtain ⟨m, hm, hstate⟩ := Option.map_eq_some_iff.mp thenResumed_recorded
  exact ⟨m, hstate, leases_safe (.of_exec (.start rfl) hm)⟩

/-- The first claim taken, what the second request answered, and the claim set on the row. -/
def claimLeft (m : ContainerMachine) : Option Claim × Option Unit × Option (Instant × ℕ) :=
  (m.store.claims[0]?, m.threads[1]?.bind fun th => th.prog.result?,
    (m.store.rows 0).bind fun row => row.inUse)

theorem thenResumed_refused :
    ((Machine.mk {} []).exec containerSystem (fun _ _ => True) (thenResumed true 4)).map
      claimLeft = some (some ⟨1, 0, 3630, false⟩, some (), some (3630, 0)) := by
  rfl

/-- **A completion refused after it was admitted its container leaves its claim set.** -/
theorem refused_completion_keeps_claim :
    ¬ ∀ m, Reach containerSystem (fun _ _ => True) m → LeasesSafe m := by
  intro hall
  obtain ⟨m, hm, hleft⟩ := Option.map_eq_some_iff.mp thenResumed_refused
  obtain ⟨hclaim, hleft⟩ := Prod.mk.inj hleft
  obtain ⟨hended, hrow⟩ := Prod.mk.inj hleft
  obtain ⟨th, hth, hret⟩ := Option.bind_eq_some_iff.mp hended
  obtain ⟨row, hrow, huse⟩ := Option.bind_eq_some_iff.mp hrow
  have hsafe := hall m (.of_exec (.start rfl) hm)
  exact hsafe.givenBack 0 _ hclaim ⟨th, hth, Prog.result?_eq_some.mp hret⟩ 0 row hrow _ huse rfl

end Otari.Containers
