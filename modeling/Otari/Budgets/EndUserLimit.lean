import Otari.Budgets.EndUsers

/-!
# Budgets — EndUserLimit — a key's limit on its live end users

Every interleaving of the calls of one owner's keys.  A key that reads its limit holds the owner's
row until its block ends, so no other block adds an end user meanwhile; a block that adds none needs
no lock.  `within_limits` is the limit in every state reached where each write of a loaded row finds
the row as such a block may (`Fair`).  A put that finds, under the lock, a live end user that another
request created on other budgets writes it unread: `put_moves_unadmitted`.
-/

namespace Otari.Budgets
open Threads List
open Function (update_eq_self update_of_ne update_self)

/-! ### Limits -/

def APIKey.places (key : APIKey) : List (Option BudgetId) :=
  key.assignableEndUserBudgets.map some ++ if key.endUserBudgetId.isNone then [none] else []

/-- Two keys with one limit over one set of budgets. -/
def APIKey.SamePool (key κ : APIKey) : Prop :=
  key.counted = κ.counted ∧ key.maxEndUsers = κ.maxEndUsers

instance (key κ : APIKey) : Decidable (key.SamePool κ) :=
  inferInstanceAs (Decidable (_ ∧ _))

/-- The limits are given to budgets: a key that starts end users where another's limit counts them
has that limit.  A default is a budget there is. -/
structure LimitsAssigned (budgets : BudgetId → Option EndUserBudget) (keys : List APIKey) : Prop where
  pools : ∀ key ∈ keys, ∀ κ ∈ keys, κ.maxEndUsers.isSome →
    (∃ place ∈ key.places, countsOn κ.counted place) → key.SamePool κ
  default : ∀ key ∈ keys, ∀ b ∈ key.endUserBudgetId, (budgets b).isSome

/-- The committed live end users that are counted. -/
def liveCounted (counted : Option (List BudgetId) × Bool) (s : EndUserStore) : ℕ :=
  s.listed.countP fun externalId => countsRow counted (s.users externalId).committed

/-- **Every key's live end users are at most its limit.** -/
def WithinLimits (keys : List APIKey) (s : EndUserStore) : Prop :=
  ∀ κ ∈ keys, ∀ maxEndUsers ∈ κ.maxEndUsers, liveCounted κ.counted s ≤ maxEndUsers

/-- What a write of a loaded row finds: moved without the limit read, the end user is deleted or
already where the key counts; revived, it comes back on no budget another limit counts. -/
def Fair (keys : List APIKey) : EndUserLabel → EndUserStore → Prop
  | .step, _ => True
  | .flush key externalId loaded new checked, s => ∀ row ∈ (s.users externalId).latest,
    (new.budgetId ≠ loaded.budgetId → checked = false → key.maxEndUsers.isSome →
      row.deletedAt.isSome ∨ countsOn key.counted row.budgetId) ∧
    (loaded.deletedAt.isSome → new.deletedAt = none → ∀ κ ∈ keys, κ.maxEndUsers.isSome →
      countsOn κ.counted (User.merge loaded new row).budgetId → key.SamePool κ)

instance (keys : List APIKey) (label : EndUserLabel) (s : EndUserStore) :
    Decidable (Fair keys label s) :=
  match label with
  | .step => .isTrue trivial
  | .flush key externalId loaded new checked =>
    inferInstanceAs (Decidable (∀ row ∈ (s.users externalId).latest,
      (new.budgetId ≠ loaded.budgetId → checked = false → key.maxEndUsers.isSome →
        row.deletedAt.isSome ∨ countsOn key.counted row.budgetId) ∧
      (loaded.deletedAt.isSome → new.deletedAt = none → ∀ κ ∈ keys, κ.maxEndUsers.isSome →
        countsOn κ.counted (User.merge loaded new row).budgetId → key.SamePool κ)))

/-- The owner's keys, from any table within their limits. -/
def endUserSystem (budgets : BudgetId → Option EndUserBudget) (keys : List APIKey) :
    System (EndUserCall keys) EndUserElsewhere EndUserLabel EndUserStore
      (Except EndUserError EndUserAnswer) where
  program := EndUserCall.program budgets
  env
    | .clock now, s => if s.clock ≤ now then some { s with clock := now } else none
    | .owner owner, s => if s.owner.dirty.isNone then some { s with owner := ⟨owner, none⟩ } else none
  start s := s.listed.Nodup ∧ (∀ x, x ∉ s.listed → (s.users x).committed = none) ∧
    (∀ x, (s.users x).dirty = none) ∧ s.owner.dirty = none ∧ WithinLimits keys s

/-! ### Counting -/

theorem countP_le_succ {α : Type} {p q : α → Bool} (x₀ : α) {l : List α} (hl : l.Nodup)
    (h : ∀ x ∈ l, x ≠ x₀ → p x → q x) : l.countP p ≤ l.countP q + 1 := by
  induction l with
  | nil => exact Nat.zero_le _
  | cons a l ih =>
    obtain ⟨ha, hl⟩ := nodup_cons.mp hl
    rw [countP_cons, countP_cons]
    by_cases hx : a = x₀
    · have hrest : l.countP p ≤ l.countP q := countP_mono_left fun x hxl hp =>
        h x (mem_cons_of_mem _ hxl) (fun e => ha (by rw [hx, ← e]; exact hxl)) hp
      split <;> omega
    · have hrest := ih hl fun x hxl => h x (mem_cons_of_mem _ hxl)
      by_cases hp : p a
      · rw [if_pos hp, if_pos (h a mem_cons_self hx hp)]
        omega
      · rw [if_neg hp]
        omega

/-! ### The invariant -/

/-- What a thread's open block has done: locked the owner, read its key's limit, written rows, and
the row it may have given its key. -/
structure EndUserGhost where
  locked : Bool := false
  checked : Option APIKey := none
  wrote : Bool := false
  gained : Option String := none

variable {budgets : BudgetId → Option EndUserBudget} {keys : List APIKey}

structure EndUserShared (keys : List APIKey) (s : EndUserStore) : Prop where
  nodup : s.listed.Nodup
  listed : ∀ x, x ∉ s.listed → s.users x = ⟨none, none⟩
  within : WithinLimits keys s

/-- What a thread's block may rely on. -/
structure EndUserKnows (keys : List APIKey) (s : EndUserStore) (t : ℕ) (g : EndUserGhost) : Prop where
  locked : g.locked = true → s.owner.heldBy t = true
  /-- Its limit read, there is room for one more while it holds the owner's row. -/
  room : ∀ key, g.checked = some key → g.locked = true ∧
    ∀ κ ∈ keys, key.SamePool κ → ∀ maxEndUsers ∈ κ.maxEndUsers,
      liveCounted κ.counted s + 1 ≤ maxEndUsers
  wrote : ∀ x v, (s.users x).dirty = some (t, v) → g.wrote = true
  /-- A row it wrote is counted where it was, or is the one its limit admitted. -/
  gains : ∀ x v, (s.users x).dirty = some (t, v) → ∀ κ ∈ keys, κ.maxEndUsers.isSome →
    countsRow κ.counted v → countsRow κ.counted (s.users x).committed ∨
      g.gained = some x ∧ ∃ key, g.checked = some key ∧ key.SamePool κ

structure EndUserInv (keys : List APIKey) (_ : ℕ) (s : EndUserStore) (γ : ℕ → EndUserGhost) :
    Prop where
  shared : EndUserShared keys s
  thread : ∀ t, EndUserKnows keys s t (γ t)

/-- Safety of a program that may fail. -/
abbrev SoundE {α : Type} (keys : List APIKey) (t : ℕ) (Q : α → EndUserGhost → Prop)
    (p : Attempt α) (g : EndUserGhost) : Prop :=
  SafeE (EndUserInv keys) (Fair keys) t Q p g

abbrev SoundRun {α : Type} (keys : List APIKey) (t : ℕ) (Q : α → EndUserGhost → Prop) (p : Run α)
    (g : EndUserGhost) : Prop :=
  Safe (EndUserInv keys) (Fair keys) t Q p g

variable {n t : ℕ} {s s' : EndUserStore} {γ : ℕ → EndUserGhost} {g g' : EndUserGhost}

theorem EndUserInv.update (h : EndUserInv keys n s γ) (hshared : EndUserShared keys s')
    (hother : ∀ u, u ≠ t → EndUserKnows keys s u (γ u) → EndUserKnows keys s' u (γ u))
    (hself : EndUserKnows keys s' t g') : EndUserInv keys n s' (Function.update γ t g') := by
  refine ⟨hshared, fun u => ?_⟩
  by_cases hut : u = t
  · subst hut
    rw [update_self]
    exact hself
  · rw [update_of_ne hut]
    exact hother u hut (h.thread u)

theorem EndUserKnows.frame (h : EndUserKnows keys s t g)
    (howner : s.owner.heldBy t = true → s'.owner.heldBy t = true)
    (hcommitted : ∀ x, (s'.users x).committed = (s.users x).committed)
    (hdirty : ∀ x v, (s'.users x).dirty = some (t, v) → (s.users x).dirty = some (t, v))
    (hcount : ∀ κ ∈ keys, liveCounted κ.counted s' ≤ liveCounted κ.counted s) :
    EndUserKnows keys s' t g where
  locked hl := howner (h.locked hl)
  room key hk := by
    obtain ⟨hheld, hroom⟩ := h.room key hk
    exact ⟨hheld, fun κ hκ hpool m hm =>
      (Nat.succ_le_succ (hcount κ hκ)).trans (hroom κ hκ hpool m hm)⟩
  wrote x v hd := h.wrote x v (hdirty x v hd)
  gains x v hd := by
    rw [hcommitted x]
    exact h.gains x v (hdirty x v hd)

theorem EndUserKnows.idle (h : ∀ x v, (s.users x).dirty ≠ some (t, v)) :
    EndUserKnows keys s t {} where
  locked hl := nomatch hl
  room _ hc := nomatch hc
  wrote x v hd := absurd hd (h x v)
  gains x v hd := absurd hd (h x v)

theorem EndUserInv.visible (h : EndUserInv keys n s γ) (hw : (γ t).wrote = false) (x : String) :
    (s.users x).visible t = (s.users x).committed := by
  rcases hd : (s.users x).dirty with _ | ⟨u, v⟩
  · simp [Cell.visible, hd]
  · have hu : u ≠ t := by
      rintro rfl
      rw [(h.thread u).wrote x v hd] at hw
      cases hw
    simp [Cell.visible, hd, hu]

/-! ### One lemma an act -/

variable {x : String}

theorem find_sound : SoundRun keys t (fun _ g' => g' = g) (find x) g :=
  Safe.read fun _ _ _ _ _ _ _ => rfl

theorem utcNow_sound : SoundRun keys t (fun _ g' => g' = g) utcNow g :=
  Safe.read fun _ _ _ _ _ _ _ => rfl

theorem lockOwner_sound : SoundRun keys t (fun _ g' => g' = { g with locked := true }) lockOwner g := by
  intro n s γ b s' _ h hg _ hf
  obtain ⟨⟨owner, cell⟩, hlock, heq⟩ := Option.map_eq_some_iff.mp hf
  cases heq
  rw [Cell.lock] at hlock
  split at hlock
  · cases hlock
  · rename_i hfree
    cases hlock
    subst hg
    refine ⟨{ γ t with locked := true }, h.update ⟨h.shared.nodup, h.shared.listed, h.shared.within⟩
      (fun u hut hk => hk.frame (fun hheld => ?_) (fun _ => rfl) (fun _ _ hd => hd)
        fun _ _ => le_rfl) ?_, rfl⟩
    · -- the owner's row is held by no other thread
      rcases hd : s.owner.dirty with _ | ⟨w, o⟩
      · simp [Cell.heldBy, hd] at hheld
      · have hwu : w = u := by simpa [Cell.heldBy, hd] using hheld
        have hwt : w = t := by simpa [Cell.heldByOther, hd] using hfree
        exact absurd (hwu.symm.trans hwt) hut
    · have hk := h.thread t
      refine ⟨fun _ => by simp [Cell.heldBy, Cell.write], fun key hc => ?_, hk.wrote, hk.gains⟩
      exact ⟨rfl, (hk.room key hc).2⟩

variable {key : APIKey}

theorem refuseWhenFull_sound {maxEndUsers : ℕ} (hmax : key.maxEndUsers = some maxEndUsers)
    (hl : g.locked = true) (hw : g.wrote = false) :
    SoundE keys t (fun _ g' => g' = { g with checked := some key })
      (refuseWhenFull key maxEndUsers) g := by
  have hread : SoundRun keys t
      (fun live g' => live < maxEndUsers → g' = { g with checked := some key })
      (countLiveOnBudgets key.counted) g := by
    intro n s γ live s' _ h hg _ hf
    cases hf
    have hlive : (s.listed.countP fun x => countsRow key.counted ((s.users x).visible t)) =
        liveCounted key.counted s := by
      simp only [liveCounted, h.visible (hg ▸ hw)]
    beta_reduce
    rw [hlive]
    by_cases hroom : liveCounted key.counted s < maxEndUsers
    · refine ⟨{ g with checked := some key }, h.update h.shared (fun u _ hk => hk) ?_, fun _ => rfl⟩
      have hk := hg ▸ h.thread t
      refine ⟨hk.locked, fun key' hc => ?_, hk.wrote, fun x v hd => ?_⟩
      · cases hc
        refine ⟨hl, fun κ _ hpool m hm => ?_⟩
        rw [← hpool.2, hmax] at hm
        cases hm
        rw [← hpool.1]
        exact hroom
      · have hwrote := hk.wrote x v hd
        rw [hw] at hwrote
        cases hwrote
    · exact ⟨g, by rwa [← hg, update_eq_self], fun hlt => absurd hlt hroom⟩
  refine (SafeE.lift hread).bind fun live g' hQ => ?_
  split
  · exact SafeE.throw _
  · rename_i hlt
    exact SafeE.pure (hQ (not_le.mp hlt))

/-- **A row, written**: counted where it was, or admitted by the key's limit. -/
theorem EndUserInv.write (h : EndUserInv keys n s γ) (hg : γ t = g) {v : Option User}
    (gained : Option String) (hfree : (s.users x).heldByOther t = false) {listed : List String}
    (hlisted : (x ∈ s.listed ∧ listed = s.listed) ∨ (x ∉ s.listed ∧ listed = s.listed ++ [x]))
    (hw : gained = g.gained ∨ g.wrote = false)
    (hgain : ∀ κ ∈ keys, κ.maxEndUsers.isSome → countsRow κ.counted v →
      countsRow κ.counted (s.users x).committed ∨
        gained = some x ∧ ∃ key, g.checked = some key ∧ key.SamePool κ) : EndUserInv keys n { s with
        users := Function.update s.users x ((s.users x).write t v)
        listed := listed }
      (Function.update γ t { g with wrote := true, gained := gained }) := by
  subst hg
  have hk := h.thread t
  have hcommitted : ∀ y, (Function.update s.users x ((s.users x).write t v) y).committed =
      (s.users y).committed := by
    intro y
    by_cases hy : y = x
    · subst hy
      rw [update_self, Cell.committed_write]
    · rw [update_of_ne hy]
  have hcount : ∀ counted, liveCounted counted
      { s with
        users := Function.update s.users x ((s.users x).write t v)
        listed := listed } = liveCounted counted s := by
    intro counted
    simp only [liveCounted, hcommitted]
    rcases hlisted with ⟨-, rfl⟩ | ⟨hx, rfl⟩
    · rfl
    · rw [countP_append, countP_singleton, h.shared.listed x hx]
      rfl
  -- a write not yet committed changes no count, so only what the writer gained is new
  refine h.update ⟨?_, fun y hy => ?_, fun κ hκ m hm => ?_⟩ (fun u hu hku => hku.frame id hcommitted
    (fun y w hd => ?_) fun κ _ => (hcount κ.counted).le) ⟨hk.locked, fun key hc => ?_, fun _ _ _ => rfl,
      fun y w hd κ hκ hm hw' => ?_⟩
  · rcases hlisted with ⟨-, rfl⟩ | ⟨hx, rfl⟩
    · exact h.shared.nodup
    · exact h.shared.nodup.append (nodup_singleton x)
        (disjoint_singleton.mpr hx)
  · have hyx : y ≠ x := by
      rintro rfl
      rcases hlisted with ⟨hx, rfl⟩ | ⟨-, rfl⟩
      · exact hy hx
      · exact hy (mem_append_right _ (mem_singleton_self y))
    have hyl : y ∉ s.listed := by
      rcases hlisted with ⟨-, rfl⟩ | ⟨-, rfl⟩
      · exact hy
      · exact fun hmem => hy (mem_append_left _ hmem)
    simp only [update_of_ne hyx]
    exact h.shared.listed y hyl
  · rw [hcount]
    exact h.shared.within κ hκ m hm
  · by_cases hy : y = x
    · subst hy
      simp only [update_self, Cell.write, Option.some.injEq, Prod.mk.injEq] at hd
      exact absurd hd.1.symm hu
    · simpa only [update_of_ne hy] using hd
  · obtain ⟨hl, hroom⟩ := hk.room key hc
    refine ⟨hl, fun κ hκ hpool m hm => ?_⟩
    rw [hcount]
    exact hroom κ hκ hpool m hm
  · rw [hcommitted]
    by_cases hy : y = x
    · subst hy
      simp only [update_self, Cell.write, Option.some.injEq, Prod.mk.injEq, true_and] at hd
      subst hd
      exact hgain κ hκ hm hw'
    · simp only [update_of_ne hy] at hd
      rcases hw with rfl | hw
      · exact hk.gains y w hd κ hκ hm hw'
      · rw [hk.wrote y w hd] at hw
        cases hw

/-- Whether a key's block may give it an end user: its limit, if any, was read. -/
def MayAdd (key : APIKey) (g : EndUserGhost) : Prop :=
  key.maxEndUsers.isSome → g.checked = some key

variable {κ : APIKey}

theorem LimitsAssigned.gain (h : LimitsAssigned budgets keys) (hkey : key ∈ keys)
    (hκ : κ ∈ keys) (hm : κ.maxEndUsers.isSome) {place : Option BudgetId} (hp : place ∈ key.places)
    (hc : countsOn κ.counted place) (hmay : MayAdd key g) :
    ∃ key, g.checked = some key ∧ key.SamePool κ := by
  have hpool := h.pools key hkey κ hκ hm ⟨place, hp, hc⟩
  exact ⟨key, hmay (by rw [hpool.2]; exact hm), hpool⟩

variable {user : User}

theorem countsRow_some {counted : Option (List BudgetId) × Bool} :
    countsRow counted (some user) = true ↔
      user.deletedAt = none ∧ countsOn counted user.budgetId = true := by
  simp [countsRow]

theorem add_sound (ha : LimitsAssigned budgets keys) (hkey : key ∈ keys)
    (hp : user.budgetId ∈ key.places) (hw : g.wrote = false) (hmay : MayAdd key g) :
    SoundRun keys t (fun b g' => b = false → g' = g) (add x user) g := by
  intro n s γ b s' _ h hg _ hf
  beta_reduce at hf
  split at hf
  · cases hf
  · rename_i hfree
    rw [Bool.not_eq_true] at hfree
    split at hf
    · cases hf
      exact ⟨g, by rwa [← hg, update_eq_self], fun _ => rfl⟩
    · cases hf
      refine ⟨_, h.write hg (some x) hfree ?_ (.inr hw) fun κ hκ hm hc => ?_, fun hb => ?_⟩
      · rw [enlist]
        by_cases hx : x ∈ s.listed
        · exact .inl ⟨hx, if_pos hx⟩
        · exact .inr ⟨hx, if_neg hx⟩
      · exact .inr ⟨rfl, ha.gain hkey hκ hm hp (countsRow_some.mp hc).2 hmay⟩
      · cases hb

/-- What a block may write over a row it loaded. -/
structure Writes (key : APIKey) (loaded new : User) (checked : Bool) (g : EndUserGhost) : Prop where
  place : new.budgetId ≠ loaded.budgetId → new.budgetId ∈ key.places
  deleted : new.deletedAt = loaded.deletedAt ∨ new.deletedAt = none
  admitted : key.maxEndUsers.isSome → (checked = true ∨
    (loaded.deletedAt.isSome ∧ new.deletedAt = none)) → g.checked = some key

variable {checked : Bool}

theorem Writes.live {loaded new : User}
    (h : Writes key loaded new checked g) (hback : ¬ (loaded.deletedAt.isSome ∧ new.deletedAt = none))
    {row : User} (hlive : (User.merge loaded new row).deletedAt = none) : row.deletedAt = none := by
  have hsame : new.deletedAt = loaded.deletedAt := by
    rcases h.deleted with hd | hd
    · exact hd
    · cases hl : loaded.deletedAt with
      | none => exact hd
      | some d => exact absurd ⟨by rw [hl]; rfl, hd⟩ hback
  simpa [User.merge, hsame] using hlive

/-- **The write that ends a block** gives no limit an end user it did not admit. -/
theorem Writes.gain (ha : LimitsAssigned budgets keys) (hkey : key ∈ keys)
    (hκ : κ ∈ keys) (hm : κ.maxEndUsers.isSome) {loaded new row : User}
    (hwrites : Writes key loaded new checked g)
    (hlatest : (s.users x).latest = some row) (hfair : Fair keys (.flush key x loaded new checked) s)
    (hc : countsRow κ.counted (some (User.merge loaded new row))) :
    countsRow κ.counted (some row) ∨ ∃ key, g.checked = some key ∧ key.SamePool κ := by
  obtain ⟨hmoved, hrevived⟩ := hfair row hlatest
  obtain ⟨hlive, hon⟩ := countsRow_some.mp hc
  by_cases hback : loaded.deletedAt.isSome ∧ new.deletedAt = none
  · -- brought back: only its own limit counts it, and it was read
    have hpool := hrevived hback.1 hback.2 κ hκ hm hon
    exact .inr ⟨key, hwrites.admitted (by rw [hpool.2]; exact hm) (.inr hback), hpool⟩
  · have hrowLive := hwrites.live hback hlive
    by_cases hbudget : new.budgetId = loaded.budgetId
    · refine .inl (countsRow_some.mpr ⟨hrowLive, ?_⟩)
      simpa [User.merge, hbudget] using hon
    · have hon' : countsOn κ.counted new.budgetId := by simpa [User.merge, hbudget] using hon
      have hpool := ha.pools key hkey κ hκ hm ⟨_, hwrites.place hbudget, hon'⟩
      have hlimited : key.maxEndUsers.isSome := by rw [hpool.2]; exact hm
      cases checked with
      | true => exact .inr ⟨key, hwrites.admitted hlimited (.inl rfl), hpool⟩
      | false =>
        have hfound := hmoved hbudget rfl hlimited
        rw [hrowLive, hpool.1] at hfound
        exact .inl (countsRow_some.mpr ⟨hrowLive, hfound.resolve_left (by simp)⟩)

theorem EndUserInv.committed (h : EndUserInv keys n s γ) (hw : (γ t).wrote = false)
    (hfree : (s.users x).heldByOther t = false) : (s.users x).committed = (s.users x).latest := by
  rw [← h.visible hw, Cell.visible_eq_latest hfree]

theorem EndUserInv.mem_listed (h : EndUserInv keys n s γ) {row : User}
    (hrow : (s.users x).latest = some row) : x ∈ s.listed := by
  by_contra hx
  rw [h.shared.listed x hx] at hrow
  cases hrow

theorem flush_sound (ha : LimitsAssigned budgets keys) (hkey : key ∈ keys)
    {loaded new : User} (hw : g.wrote = false) (hwrites : Writes key loaded new checked g) :
    SoundRun keys t (fun _ _ => True) (flush key x loaded new checked) g := by
  rw [flush]
  split
  · trivial
  · intro n s γ b s' _ h hg hfair hf
    obtain ⟨⟨hit, cell⟩, hupdate, heq⟩ := Option.map_eq_some_iff.mp hf
    cases heq
    rcases Cell.updateWhere_cases hupdate with ⟨rfl, hfree, hrow, rfl⟩ | ⟨rfl, rfl, -⟩
    · obtain ⟨row, hlatest⟩ := Option.isSome_iff_exists.mp hrow
      have hcommitted := (h.committed (hg ▸ hw) hfree).trans hlatest
      rw [hlatest]
      refine ⟨_, h.write hg (some x) hfree (.inl ⟨h.mem_listed hlatest, rfl⟩) (.inr hw)
        fun κ hκ hm hc => ?_, trivial⟩
      rw [hcommitted]
      exact (hwrites.gain ha hkey hκ hm hlatest hfair hc).imp_right fun hk => ⟨rfl, hk⟩
    · refine ⟨g, ?_, trivial⟩
      rw [update_eq_self, ← hg, update_eq_self]
      exact h

variable {userIds : List ℕ}

theorem softDelete_sound {deletedAt : Instant} :
    SoundRun keys t (fun _ _ => True) (softDelete x userIds deletedAt) g := by
  intro n s γ b s' _ h hg _ hf
  obtain ⟨⟨hit, cell⟩, hupdate, heq⟩ := Option.map_eq_some_iff.mp hf
  cases heq
  rcases Cell.updateWhere_cases hupdate with ⟨rfl, hfree, hrow, rfl⟩ | ⟨rfl, rfl, -⟩
  · obtain ⟨row, hlatest, -⟩ := (Option.any_eq_true _ _).mp hrow
    rw [hlatest]
    refine ⟨_, h.write hg g.gained hfree (.inl ⟨h.mem_listed hlatest, rfl⟩) (.inl rfl)
      fun κ hκ hm hc => ?_, trivial⟩
    exact nomatch (countsRow_some.mp hc).1
  · refine ⟨g, ?_, trivial⟩
    rw [update_eq_self, ← hg, update_eq_self]
    exact h

theorem EndUserKnows.commit_counts (h : EndUserKnows keys s t g) (hκ : κ ∈ keys)
    (hm : κ.maxEndUsers.isSome) (hc : countsRow κ.counted ((s.users x).commit t).committed) :
    countsRow κ.counted (s.users x).committed ∨
      g.gained = some x ∧ ∃ key, g.checked = some key ∧ key.SamePool κ := by
  by_cases hheld : ∃ v, (s.users x).dirty = some (t, v)
  · obtain ⟨v, hv⟩ := hheld
    rw [Cell.commit_of_dirty hv] at hc
    exact h.gains x v hv κ hκ hm hc
  · rw [Cell.commit_of_free fun v hv => hheld ⟨v, hv⟩] at hc
    exact .inl hc

def committedBy (s : EndUserStore) (t : ℕ) : EndUserStore :=
  { s with
    owner := s.owner.commit t
    users := fun x => (s.users x).commit t }

/-- **A commit adds at most the one end user its limit admitted.** -/
theorem EndUserInv.count_commit (h : EndUserInv keys n s γ) (t : ℕ) (hκ : κ ∈ keys)
    (hm : κ.maxEndUsers.isSome) :
    liveCounted κ.counted (committedBy s t) ≤ liveCounted κ.counted s ∨
      (∃ key, (γ t).checked = some key ∧ key.SamePool κ) ∧
        liveCounted κ.counted (committedBy s t) ≤ liveCounted κ.counted s + 1 := by
  have hk := h.thread t
  by_cases hpool : ∃ key, (γ t).checked = some key ∧ key.SamePool κ
  · refine .inr ⟨hpool, ?_⟩
    cases hg : (γ t).gained with
    | none =>
      refine (countP_mono_left fun x _ hc => ?_).trans (Nat.le_succ _)
      refine (hk.commit_counts hκ hm hc).resolve_right ?_
      rintro ⟨hx, -⟩
      rw [hg] at hx
      cases hx
    | some x₀ =>
      refine countP_le_succ x₀ h.shared.nodup fun x _ hx hc => ?_
      refine (hk.commit_counts hκ hm hc).resolve_right ?_
      rintro ⟨hx', -⟩
      rw [hg] at hx'
      cases hx'
      exact hx rfl
  · refine .inl (countP_mono_left fun x _ hc => ?_)
    exact (hk.commit_counts hκ hm hc).resolve_right fun hk => hpool hk.2

theorem commit_sound : SoundRun keys t (fun _ _ => True) commit g := by
  intro n s γ b s' _ h hg _ hf
  cases hf
  refine ⟨{}, h.update ⟨h.shared.nodup, fun x hx => ?_, fun κ hκ m hm => ?_⟩
    (fun u hu hk => ⟨fun hl => ?_, fun key hc => ?_, fun x v hd => ?_, fun x v hd => ?_⟩)
    (.idle fun x v hd => (Cell.dirty_commit hd).1 rfl), trivial⟩
  · simp only [h.shared.listed x hx]
    rfl
  · rcases h.count_commit t hκ (by rw [hm]; rfl) with hle | ⟨⟨key, hc, hpool⟩, hle⟩
    · exact hle.trans (h.shared.within κ hκ m hm)
    · exact hle.trans (((h.thread t).room key hc).2 κ hκ hpool m hm)
  · have hheld := hk.locked hl
    simp only [Cell.heldBy_commit hu hheld]
    exact hheld
  · obtain ⟨hl, hroom⟩ := hk.room key hc
    refine ⟨hl, fun κ hκ hpool m hm => ?_⟩
    -- the owner's row is this thread's, so the other's block had no limit read
    rcases h.count_commit t hκ (by rw [hm]; rfl) with hle | ⟨⟨key', hc', -⟩, -⟩
    · exact (Nat.succ_le_succ hle).trans (hroom κ hκ hpool m hm)
    · have hheld := (h.thread t).locked ((h.thread t).room key' hc').1
      exact absurd (Cell.heldBy_unique (hk.locked hl) hheld) hu
  · obtain ⟨-, hsame⟩ := Cell.dirty_commit hd
    exact hk.wrote x v (hsame ▸ hd)
  · obtain ⟨-, hsame⟩ := Cell.dirty_commit hd
    simp only [hsame] at hd ⊢
    exact hk.gains x v hd

theorem rollback_sound : SoundRun keys t (fun _ _ => True) rollback g := by
  intro n s γ b s' _ h hg _ hf
  cases hf
  have hcount : ∀ counted, liveCounted counted { s with
      owner := s.owner.rollback t
      users := fun x => (s.users x).rollback t } = liveCounted counted s := by
    intro counted
    simp only [liveCounted, Cell.committed_rollback]
  refine ⟨{}, h.update ⟨h.shared.nodup, fun x hx => ?_, fun κ hκ m hm => ?_⟩
    (fun u hu hk => hk.frame (fun hheld => ?_) (fun x => Cell.committed_rollback _ _)
      (fun x v hd => ?_) fun κ _ => (hcount κ.counted).le)
    (.idle fun x v hd => (Cell.dirty_rollback hd).1 rfl), trivial⟩
  · simp only [h.shared.listed x hx]
    rfl
  · rw [hcount]
    exact h.shared.within κ hκ m hm
  · simp only [Cell.heldBy_rollback hu hheld]
    exact hheld
  · obtain ⟨-, hsame⟩ := Cell.dirty_rollback hd
    exact hsame ▸ hd

/-! ### The calls -/

theorem checkExternalId_sound : SoundE keys t (fun _ g' => g' = g) (checkExternalId x) g := by
  rw [checkExternalId]
  split
  · exact SafeE.throw _
  · exact SafeE.pure rfl

theorem requireServiceKey_sound : SoundE keys t (fun _ g' => g' = g) (requireServiceKey key) g := by
  rw [requireServiceKey]
  split
  · exact SafeE.pure rfl
  · exact SafeE.throw _

theorem listedBudget_sound {budgetId : BudgetId} :
    SoundE keys t (fun budget g' => g' = g ∧ budget.1 = budgetId ∧ some budgetId ∈ key.places)
      (listedBudget budgets key budgetId) g := by
  rw [listedBudget]
  split
  · rename_i hlisted
    split
    · split
      · refine SafeE.pure ⟨rfl, rfl, ?_⟩
        rw [APIKey.places, mem_append, mem_map]
        exact .inl ⟨budgetId, hlisted, rfl⟩
      · exact SafeE.throw _
    · exact SafeE.throw _
  · exact SafeE.throw _

theorem availableOwner_sound : SoundE keys t (fun _ g' => g' = g) availableOwner g := by
  refine (SafeE.lift (Q := fun _ g' => g' = g) (Safe.read fun _ _ _ _ _ _ _ => rfl)).bind ?_
  rintro owner _ rfl
  split
  · exact SafeE.throw _
  · exact SafeE.pure rfl

theorem newEndUser_sound {budget : Option (BudgetId × EndUserBudget)} :
    SoundRun keys t (fun user g' => g' = g ∧ user.budgetId = budget.map Prod.fst)
      (newEndUser budget) g := by
  have hid : SoundRun keys t (fun _ g' => g' = g) newUserId g := by
    intro n s γ b s' _ h hg _ hf
    cases hf
    subst hg
    refine ⟨γ t, h.update ⟨h.shared.nodup, h.shared.listed, h.shared.within⟩ (fun u _ hk => ?_) ?_,
      rfl⟩
    · exact hk.frame id (fun _ => rfl) (fun _ _ hd => hd) fun _ _ => le_rfl
    · exact (h.thread t).frame id (fun _ => rfl) (fun _ _ hd => hd) fun _ _ => le_rfl
  refine Safe.bind hid ?_
  rintro userId _ rfl
  refine Safe.bind utcNow_sound ?_
  rintro now _ rfl
  cases budget with
  | none => exact ⟨rfl, rfl⟩
  | some budget =>
    refine ⟨rfl, ?_⟩
    simp only [putOnBudget]
    split <;> rfl

/-- Where a block that looked up an end user stands: nothing written, and its limit read where it
says so and where there is no live end user to keep. -/
def Admission (key : APIKey) (r : Option User × Bool) (g : EndUserGhost) : Prop :=
  g.wrote = false ∧ (r.2 = true → MayAdd key g) ∧
    (r.1.any (·.deletedAt.isNone) = false → MayAdd key g)

theorem admitted_sound {found : Option User} (hw : g.wrote = false) :
    SoundE keys t (Admission key) (admitted key x found) g := by
  rw [admitted]
  cases hmax : key.maxEndUsers with
  | none =>
    have hmay : ∀ g, MayAdd key g := fun g hlim => by rw [hmax] at hlim; cases hlim
    exact SafeE.pure ⟨hw, fun _ => hmay g, fun _ => hmay g⟩
  | some maxEndUsers =>
    refine (SafeE.lift lockOwner_sound).bind ?_
    rintro _ _ rfl
    refine (SafeE.lift find_sound).bind ?_
    rintro found _ hg
    subst hg
    split
    · rename_i hlive
      refine SafeE.pure ⟨hw, (fun hb => nomatch hb), fun hnot => ?_⟩
      rw [hlive] at hnot
      cases hnot
    · refine (refuseWhenFull_sound (g := { g with locked := true }) hmax rfl hw).bind ?_
      rintro _ _ rfl
      exact SafeE.pure ⟨hw, fun _ _ => rfl, fun _ _ => rfl⟩

theorem admitMove_sound (hw : g.wrote = false) :
    SoundE keys t (fun checked g' => g'.wrote = false ∧ (checked = true → MayAdd key g'))
      (admitMove key user) g := by
  have hfalse : g.wrote = false ∧ (false = true → MayAdd key g) := ⟨hw, fun hb => nomatch hb⟩
  rw [admitMove]
  split
  · rename_i maxEndUsers counted hmax hcounted
    split
    · exact SafeE.pure hfalse
    · split
      · exact SafeE.pure hfalse
      · refine (SafeE.lift lockOwner_sound).bind ?_
        rintro _ _ rfl
        refine (refuseWhenFull_sound (g := { g with locked := true }) hmax rfl hw).bind ?_
        rintro _ _ rfl
        exact SafeE.pure ⟨hw, fun _ _ => rfl⟩
  · exact SafeE.pure hfalse

theorem startingBudget_place (ha : LimitsAssigned budgets keys) (hkey : key ∈ keys)
    {requested : Option (BudgetId × EndUserBudget)}
    (hreq : ∀ budget ∈ requested, some budget.1 ∈ key.places) :
    (startingBudget budgets key requested).map Prod.fst ∈ key.places := by
  cases requested with
  | some budget => exact hreq budget rfl
  | none =>
    cases hd : key.endUserBudgetId with
    | none =>
      simp only [startingBudget, hd, APIKey.places]
      exact mem_append_right _ (mem_singleton_self _)
    | some b =>
      obtain ⟨budget, hb⟩ := Option.isSome_iff_exists.mp (ha.default key hkey b hd)
      simp only [startingBudget, hd, hb, Option.map_some]
      rw [APIKey.places, mem_append, mem_map]
      refine .inl ⟨b, ?_, rfl⟩
      rw [APIKey.assignableEndUserBudgets]
      cases hids : key.endUserBudgetIds with
      | none => simp [hd]
      | some ids => exact key.default_listed ids hids b hd

variable {budgetId : Option BudgetId}

theorem requestedBudget_sound :
    SoundE keys t (fun requested g' => g' = g ∧ ∀ budget ∈ requested, some budget.1 ∈ key.places)
      (requestedBudget budgets key budgetId) g := by
  cases budgetId with
  | none => exact SafeE.pure ⟨rfl, fun _ hb => nomatch hb⟩
  | some budgetId =>
    refine listedBudget_sound.bind ?_
    rintro budget _ ⟨rfl, hb, hp⟩
    refine SafeE.pure ⟨rfl, fun budget' hb' => ?_⟩
    cases hb'
    rwa [hb]

theorem admission_of_live {found : Option User} (hw : g.wrote = false)
    (hlive : found.any (·.deletedAt.isNone) = true) : Admission key (found, false) g := by
  refine ⟨hw, (fun hb => nomatch hb), fun hnot => ?_⟩
  rw [hlive] at hnot
  cases hnot

theorem lookUpForRequest_sound (hw : g.wrote = false) :
    SoundE keys t (Admission key) (lookUpForRequest key x) g := by
  refine (SafeE.lift find_sound).bind ?_
  rintro found _ rfl
  split
  · rename_i hlive
    exact SafeE.pure (admission_of_live hw hlive)
  · exact admitted_sound hw

theorem lostInsert_sound : SoundE keys t (fun _ g' => g' = g) (lostInsert x) g := by
  refine (SafeE.lift find_sound).bind ?_
  rintro winner _ rfl
  cases winner with
  | some winner => exact SafeE.pure rfl
  | none => exact SafeE.throw _

theorem resolve_sound (ha : LimitsAssigned budgets keys) (hkey : key ∈ keys)
    (hw : g.wrote = false) :
    SoundE keys t (fun _ _ => True) (resolve budgets key x budgetId) g := by
  refine checkExternalId_sound.bind ?_
  rintro _ _ rfl
  refine requestedBudget_sound.bind ?_
  rintro requested _ ⟨rfl, hreq⟩
  refine availableOwner_sound.bind ?_
  rintro _ _ rfl
  refine (lookUpForRequest_sound hw).bind ?_
  rintro ⟨found, checked⟩ g ⟨hw, hchecked, hadd⟩
  cases found with
  | some user =>
    have hwrites : Writes key user { user with deletedAt := none } checked g := by
      refine ⟨fun hb => absurd rfl hb, .inr rfl, ?_⟩
      rintro hlim (hc | ⟨hd, -⟩)
      · exact hchecked hc hlim
      · refine hadd ?_ hlim
        simpa using hd
    exact (SafeE.lift (flush_sound ha hkey hw hwrites)).bind fun _ _ _ => SafeE.done
  | none =>
    refine (SafeE.lift newEndUser_sound).bind ?_
    rintro user _ ⟨rfl, hb⟩
    refine (SafeE.lift (add_sound ha hkey
      (hb ▸ startingBudget_place ha hkey hreq) hw (hadd rfl))).bind ?_
    intro b g' hQ
    split
    · exact SafeE.done
    · refine lostInsert_sound.bind ?_
      intro winner _ _
      exact SafeE.done

theorem lookUpForPut_sound {budgetId : BudgetId}
    (hw : g.wrote = false) : SoundE keys t (Admission key) (lookUpForPut key x budgetId) g := by
  refine (SafeE.lift find_sound).bind ?_
  rintro found _ rfl
  cases found with
  | none => exact admitted_sound hw
  | some user =>
    dsimp only
    split
    · exact admitted_sound hw
    · rename_i hlive
      have hany : (some user).any (·.deletedAt.isNone) = true := by simpa using hlive
      split
      · refine (admitMove_sound hw).bind ?_
        rintro checked g ⟨hw, hc⟩
        refine SafeE.pure ⟨hw, hc, fun hnot => ?_⟩
        rw [hany] at hnot
        cases hnot
      · exact SafeE.pure (admission_of_live hw hany)

theorem putOnBudget_budgetId (user : User) (budgetId : BudgetId) (budget : EndUserBudget)
    (now : Instant) : (putOnBudget user budgetId budget now).budgetId = some budgetId := by
  rw [putOnBudget]
  split <;> rfl

theorem putOnBudget_deletedAt (user : User) (budgetId : BudgetId) (budget : EndUserBudget)
    (now : Instant) : (putOnBudget user budgetId budget now).deletedAt = user.deletedAt := by
  rw [putOnBudget]
  split <;> rfl

theorem putFound_sound (ha : LimitsAssigned budgets keys) (hkey : key ∈ keys)
    {budget : BudgetId × EndUserBudget} (hp : some budget.1 ∈ key.places) (hw : g.wrote = false)
    (hadm : checked = true ∨ user.deletedAt.isSome → MayAdd key g) :
    SoundE keys t (fun _ _ => True) (putFound key x user budget checked) g := by
  refine (SafeE.lift utcNow_sound).bind ?_
  rintro now _ rfl
  refine (SafeE.lift (flush_sound ha hkey hw ⟨fun hb => ?_, .inr ?_, fun hlim hc => ?_⟩)).bind
    fun _ _ _ => SafeE.done
  · split at hb
    · exact absurd rfl hb
    · rename_i hne
      rwa [if_neg hne, putOnBudget_budgetId]
  · split
    · rfl
    · rw [putOnBudget_deletedAt]
  · exact hadm (hc.imp_right And.left) hlim

theorem put_sound (ha : LimitsAssigned budgets keys) (hkey : key ∈ keys)
    {budgetId : BudgetId} (hw : g.wrote = false) :
    SoundE keys t (fun _ _ => True) (put budgets key x budgetId) g := by
  refine requireServiceKey_sound.bind ?_
  rintro _ _ rfl
  refine checkExternalId_sound.bind ?_
  rintro _ _ rfl
  refine listedBudget_sound.bind ?_
  rintro budget _ ⟨rfl, hb, hp⟩
  rw [← hb] at hp
  refine availableOwner_sound.bind ?_
  rintro _ _ rfl
  refine (lookUpForPut_sound hw).bind ?_
  rintro ⟨found, checked⟩ g ⟨hw, hchecked, hadd⟩
  cases found with
  | some user =>
    refine putFound_sound ha hkey hp hw ?_
    rintro (hc | hd)
    · exact hchecked hc
    · refine hadd ?_
      simpa using hd
  | none =>
    refine (SafeE.lift newEndUser_sound).bind ?_
    rintro user _ ⟨rfl, hub⟩
    refine (SafeE.lift (add_sound ha hkey (by rw [hub]; exact hp) hw (hadd rfl))).bind ?_
    intro b g' hQ
    split
    · exact SafeE.done
    · rename_i hb'
      obtain rfl := hQ (by simpa using hb')
      refine lostInsert_sound.bind ?_
      rintro winner _ rfl
      exact putFound_sound ha hkey hp hw fun _ => hadd rfl

theorem existing_sound :
    SoundE keys t (fun user g' => g' = g ∧ user.deletedAt = none) (existing key x) g := by
  refine requireServiceKey_sound.bind ?_
  rintro _ _ rfl
  refine (SafeE.lift find_sound).bind ?_
  rintro found _ rfl
  cases found with
  | none => exact SafeE.throw _
  | some user =>
    dsimp only
    split
    · exact SafeE.throw _
    · rename_i hlive
      exact SafeE.pure ⟨rfl, by simpa using hlive⟩

theorem updateMove_sound (hw : g.wrote = false) :
    SoundE keys t (fun r g' => g'.wrote = false ∧ (r.2 = true → MayAdd key g') ∧
      r.1.deletedAt = user.deletedAt ∧ (r.1.budgetId ≠ user.budgetId → r.1.budgetId ∈ key.places))
      (updateMove budgets key user budgetId) g := by
  have hsame : g.wrote = false ∧ (false = true → MayAdd key g) ∧ user.deletedAt = user.deletedAt ∧
      (user.budgetId ≠ user.budgetId → user.budgetId ∈ key.places) :=
    ⟨hw, (fun hb => nomatch hb), rfl, fun hb => absurd rfl hb⟩
  cases budgetId with
  | none => exact SafeE.pure hsame
  | some budgetId =>
    refine listedBudget_sound.bind ?_
    rintro budget _ ⟨rfl, hb, hp⟩
    split
    · refine (admitMove_sound hw).bind ?_
      rintro checked g ⟨hw, hc⟩
      refine (SafeE.lift utcNow_sound).bind ?_
      rintro now _ rfl
      refine SafeE.pure ⟨hw, hc, putOnBudget_deletedAt _ _ _ _, fun _ => ?_⟩
      rwa [putOnBudget_budgetId]
    · exact SafeE.pure hsame

theorem update_sound (ha : LimitsAssigned budgets keys) (hkey : key ∈ keys)
    {blocked : Option Bool} (hw : g.wrote = false) :
    SoundE keys t (fun _ _ => True) (update budgets key x blocked budgetId) g := by
  refine existing_sound.bind ?_
  rintro user _ ⟨rfl, hlive⟩
  refine (updateMove_sound hw).bind ?_
  rintro ⟨moved, checked⟩ g ⟨hw, hchecked, hdeleted, hplace⟩
  have hwrites : Writes key user { moved with blocked := blocked.getD moved.blocked } checked g := by
    refine ⟨hplace, .inl hdeleted, ?_⟩
    rintro hlim (hc | ⟨hd, -⟩)
    · exact hchecked hc hlim
    · rw [hlive] at hd
      cases hd
  exact (SafeE.lift (flush_sound ha hkey hw hwrites)).bind fun _ _ _ => SafeE.done

theorem deleteScan_sound {deletedAt : Instant} (xs : List String)
    {g : EndUserGhost} : SoundRun keys t (fun _ _ => True) (deleteScan userIds deletedAt xs) g := by
  induction xs generalizing g with
  | nil => trivial
  | cons x xs ih =>
    refine softDelete_sound.bind fun hit g' _ => ?_
    exact ih.bind fun more _ _ => trivial

theorem delete_sound : SoundE keys t (fun _ _ => True) (delete key userIds) g := by
  refine requireServiceKey_sound.bind ?_
  rintro _ _ rfl
  refine (SafeE.lift utcNow_sound).bind ?_
  rintro now _ rfl
  refine SafeE.bind (Q := fun _ _ => True) (SafeE.lift (Safe.read fun _ _ _ _ _ _ _ => trivial))
    fun xs _ _ => ?_
  refine (SafeE.lift (deleteScan_sound xs)).bind ?_
  intro count _ _
  exact SafeE.done

theorem block_sound {body : Attempt EndUserAnswer} (h : SoundE keys t (fun _ _ => True) body g) :
    SoundRun keys t (fun _ _ => True) (block body) g := by
  refine Safe.bind h fun r g' _ => ?_
  cases r with
  | ok answer => exact commit_sound.bind fun _ _ _ => trivial
  | error e => exact rollback_sound.bind fun _ _ _ => trivial

theorem program_sound (ha : LimitsAssigned budgets keys) (call : EndUserCall keys) :
    SoundRun keys t (fun _ _ => True) (call.program budgets) {} := by
  cases call with
  | resolve key x budgetId => exact block_sound (resolve_sound ha key.property rfl)
  | put key x budgetId => exact block_sound (put_sound ha key.property rfl)
  | update key x blocked budgetId => exact block_sound (update_sound ha key.property rfl)
  | delete key userIds => exact block_sound delete_sound

/-! ### Every interleaving -/

theorem start_inv (h : (endUserSystem budgets keys).start s) : EndUserInv keys 0 s fun _ => {} := by
  obtain ⟨hnodup, hlisted, hdirty, -, hwithin⟩ := h
  refine ⟨⟨hnodup, fun x hx => ?_, hwithin⟩, fun t => .idle fun x v hd => ?_⟩
  · have hc := hlisted x hx
    have hd := hdirty x
    cases hcell : s.users x
    rw [hcell] at hc hd
    cases hc
    cases hd
    rfl
  · rw [hdirty] at hd
    cases hd

theorem env_inv {e : EndUserElsewhere} (h : EndUserInv keys n s γ)
    (he : (endUserSystem budgets keys).env e s = some s') : EndUserInv keys n s' γ := by
  cases e with
  | clock now =>
    simp only [endUserSystem] at he
    split at he
    · cases he
      exact ⟨⟨h.shared.nodup, h.shared.listed, h.shared.within⟩, fun t =>
        (h.thread t).frame id (fun _ => rfl) (fun _ _ hd => hd) fun _ _ => le_rfl⟩
    · cases he
  | owner owner =>
    simp only [endUserSystem] at he
    split at he
    · rename_i hfree
      cases he
      refine ⟨⟨h.shared.nodup, h.shared.listed, h.shared.within⟩, fun t =>
        (h.thread t).frame (fun hheld => ?_) (fun _ => rfl) (fun _ _ hd => hd) fun _ _ => le_rfl⟩
      obtain ⟨o, ho⟩ := Cell.heldBy_iff.mp hheld
      rw [ho] at hfree
      cases hfree
    · cases he

/-- **The limit, in every interleaving.**  From a table within the limits, every state that fair
writes reach is within them. -/
theorem within_limits (ha : LimitsAssigned budgets keys)
    {m : Machine (EndUserCall keys) EndUserLabel EndUserStore (Except EndUserError EndUserAnswer)}
    (h : Reach (endUserSystem budgets keys) (Fair keys) m) : WithinLimits keys m.store := by
  obtain ⟨γ, hinv, -, -⟩ := h.safe (I := EndUserInv keys) (Q := fun _ _ _ => True) {}
    (fun s hs => start_inv hs) (fun n s γ hI _ => ⟨hI.shared, hI.thread⟩)
    (fun n s γ e s' hI he => env_inv hI he) (fun call t => program_sound ha call)
  exact hinv.shared.within

/-! ### A put that moves an end user unadmitted -/

/-- A service key that starts end users on one budget. -/
def keyOn (budgetId : BudgetId) (maxEndUsers : ℕ) : APIKey where
  isServiceKey := true
  selfService := none
  endUserBudgetId := some budgetId
  endUserBudgetIds := none
  maxEndUsers := some maxEndUsers
  default_listed := fun _ h => nomatch h

def deploymentBudgets : BudgetId → Option EndUserBudget :=
  fun _ => some { organizationId := none, budgetWindow := fun _ => none }

def oneEndUser : EndUserStore where
  clock := 0
  owner := ⟨{ blocked := false, deleted := false }, none⟩
  users := fun x => if x = "v" then ⟨some
    { userId := 0
      budgetId := some 1
      budgetStartedAt := some 0
      nextBudgetResetAt := none
      blocked := false
      deletedAt := none }, none⟩ else ⟨none, none⟩
  listed := ["v"]
  nextUser := 1

def twoKeys (maxEndUsers : ℕ) : List APIKey := [keyOn 1 maxEndUsers, keyOn 2 5]

def putOn1 (maxEndUsers : ℕ) : EndUserCall (twoKeys maxEndUsers) :=
  .put ⟨keyOn 1 maxEndUsers, List.mem_cons_self⟩ "u" 1

def resolveOn2 (maxEndUsers : ℕ) : EndUserCall (twoKeys maxEndUsers) :=
  .resolve ⟨keyOn 2 5, List.mem_cons_of_mem _ List.mem_cons_self⟩ "u" none

theorem twoKeys_assigned (maxEndUsers : ℕ) :
    LimitsAssigned deploymentBudgets (twoKeys maxEndUsers) := by
  refine ⟨fun key hkey κ hκ _ ⟨place, hp, hc⟩ => ?_, fun _ _ _ _ => rfl⟩
  simp only [twoKeys, mem_cons, not_mem_nil, or_false] at hkey hκ
  rcases hkey with rfl | rfl <;> rcases hκ with rfl | rfl
  · exact ⟨rfl, rfl⟩
  · obtain rfl : place = some 1 := by simpa [APIKey.places, keyOn, APIKey.assignableEndUserBudgets] using hp
    exact nomatch hc
  · obtain rfl : place = some 2 := by simpa [APIKey.places, keyOn, APIKey.assignableEndUserBudgets] using hp
    exact nomatch hc
  · exact ⟨rfl, rfl⟩

theorem oneEndUser_start {maxEndUsers : ℕ} (h : 1 ≤ maxEndUsers) :
    (endUserSystem deploymentBudgets (twoKeys maxEndUsers)).start oneEndUser := by
  refine ⟨by decide, fun x hx => ?_, fun x => ?_, rfl, fun κ hκ m hm => ?_⟩
  · have hne : x ≠ "v" := fun e => hx (by rw [e]; exact mem_cons_self)
    simp [oneEndUser, hne]
  · by_cases hx : x = "v"
    · simp [oneEndUser, hx]
    · simp [oneEndUser, hx]
  · simp only [twoKeys, mem_cons, not_mem_nil, or_false] at hκ
    rcases hκ with rfl | rfl
    · cases hm
      exact h
    · cases hm
      exact Nat.zero_le _

/-- The put's first look-up finds no end user; the other key creates it on budget 2; the put, its
lock taken, finds it live and moves it to budget 1, which is full. -/
def unadmittedRun : List (Choice (EndUserCall (twoKeys 1)) EndUserElsewhere) :=
  List.flatten
    [[.spawn (putOn1 1)], List.replicate 2 (.run 0), [.spawn (resolveOn2 1)],
     List.replicate 9 (.run 1), List.replicate 5 (.run 0)]

theorem put_moves_unadmitted : ¬ ∀ budgets keys, LimitsAssigned budgets keys →
    ∀ m : Machine (EndUserCall keys) EndUserLabel EndUserStore (Except EndUserError EndUserAnswer),
      Reach (endUserSystem budgets keys) (fun _ _ => True) m → WithinLimits keys m.store := by
  intro h
  have hrun : ((Machine.exec (endUserSystem deploymentBudgets (twoKeys 1)) (fun _ _ => True)
      ⟨oneEndUser, []⟩ unadmittedRun).map fun m => liveCounted (keyOn 1 1).counted m.store) =
        some 2 := rfl
  obtain ⟨m, hm, hcount⟩ := Option.map_eq_some_iff.mp hrun
  have hreach : Reach (endUserSystem deploymentBudgets (twoKeys 1)) (fun _ _ => True) m :=
    .of_exec (.start (oneEndUser_start le_rfl)) hm
  have hle := h _ _ (twoKeys_assigned 1) m hreach _ List.mem_cons_self 1 rfl
  rw [hcount] at hle
  exact absurd hle (by decide)

/-- The same calls one after the other, with room for two. -/
def admittedRun : List (Choice (EndUserCall (twoKeys 2)) EndUserElsewhere) :=
  List.flatten
    [[.spawn (resolveOn2 2)], List.replicate 9 (.run 0), [.spawn (putOn1 2)],
     List.replicate 7 (.run 1)]

theorem within_limits_sample : ∃ m : Machine (EndUserCall (twoKeys 2)) EndUserLabel EndUserStore
        (Except EndUserError EndUserAnswer),
      liveCounted (keyOn 1 2).counted m.store = 2 ∧ WithinLimits (twoKeys 2) m.store := by
  have hrun : ((Machine.exec (endUserSystem deploymentBudgets (twoKeys 2)) (Fair (twoKeys 2))
      ⟨oneEndUser, []⟩ admittedRun).map fun m => liveCounted (keyOn 1 2).counted m.store) =
        some 2 := rfl
  obtain ⟨m, hm, hcount⟩ := Option.map_eq_some_iff.mp hrun
  exact ⟨m, hcount, within_limits (twoKeys_assigned 2)
    (.of_exec (.start (oneEndUser_start (by decide))) hm)⟩

end Otari.Budgets
