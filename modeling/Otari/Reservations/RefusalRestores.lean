import Otari.Reservations.GivesBack

/-!
# Reservations — RefusalRestores — a refused reservation changes nothing

Before it takes anything, `reserve_budget` may start windows that have ended, which moves no hold,
and reclaim the user's own expired reservations, which gives back what their rows record
(`Reclaimed`).
What it then takes it gives back where it is refused or the database fails it
(`takeHolds_restores`), so nothing else is changed: `refusal_restores`.

`refusal_changes` shows what each assumption is for: a refusal after a reclaim, a give-back that
failed, and a commit that landed and reported failure.
-/

namespace Otari.Reservations
open Transactions Raising Raising.Program Function List

/-! ### Reclaimed rows -/

def Store.releaseRow (s : Store) (r : Reservation) : Store :=
  (byAmounts ((s.reservation? r.id).map Reservation.lines |>.getD [])).foldl
    (fun s g => s.releaseHolds g.2 g.1.read)
    (if r.userReserved = true ∧ r.userHeld.read.Some then s.releaseUser r.userId r.userHeld.read
    else s)

/-- A leaked row expired, and its holds given back, if it is still active. -/
def Store.expire (s : Store) (r : Reservation) : Store :=
  let claimed := s.transition r.id .active .expired
  if claimed.1 then claimed.2.releaseRow r else claimed.2

/-- A store after some of a user's active rows were reclaimed, each expired by then. -/
inductive Reclaimed (userId : ℕ) (now : ℤ) (s : Store) : Store → Prop where
  | none : Reclaimed userId now s s
  | expire {t : Store} (h : Reclaimed userId now s t) {r : Reservation} (hr : r ∈ s.active)
      (huser : r.userId = userId) (hpast : r.expiresAt < now) : Reclaimed userId now s (t.expire r)

/-- Every counter and active row is the same, but for the holds of the user's own rows that were
reclaimed, all expired at one time the clock told. -/
def Unchanged (db : Db) (userId : ℕ) (s t : Store) : Prop :=
  ∃ n rolled reclaimed, SameHolds s rolled ∧ Reclaimed userId (db.clock n) rolled reclaimed ∧
    SameHolds reclaimed t

variable {userId : ℕ} {now : ℤ}

theorem Unchanged.of_sameHolds {db : Db} {s t : Store} (h : SameHolds s t) :
    Unchanged db userId s t :=
  ⟨0, t, t, h, .none, .refl t⟩

/-! ### Counters stay from negative -/

theorem NonNeg.of_users {s t : Store} (hs : s.NonNeg) {f : User → User}
    (hf : ∀ user, user.usage.NonNeg → (f user).usage.NonNeg) (ht : t = s.updateUser userId f) :
    t.NonNeg := by
  subst ht
  refine ⟨fun id user huser => ?_, hs.ceilings⟩
  by_cases hid : id = userId
  · subst hid
    dsimp only [Store.updateUser] at huser
    rw [update_self] at huser
    obtain ⟨old, hold, rfl⟩ := Option.map_eq_some_iff.mp huser
    exact hf old (hs.users _ _ hold)
  · dsimp only [Store.updateUser] at huser
    rw [update_of_ne hid] at huser
    exact hs.users _ _ huser

theorem NonNeg.updateCeilings {s : Store} (hs : s.NonNeg) (ids : List ℕ)
    {f : ScopedBudget → ScopedBudget} (hf : ∀ c, c.usage.NonNeg → (f c).usage.NonNeg) :
    (s.updateCeilings ids f).NonNeg := by
  refine ⟨hs.users, fun id c hc => ?_⟩
  rw [Store.updateCeilings] at hc
  dsimp only at hc
  split_ifs at hc
  · obtain ⟨old, hold, rfl⟩ := Option.map_eq_some_iff.mp hc
    exact hf old (hs.ceilings _ _ hold)
  · exact hs.ceilings _ _ hc

theorem NonNeg.releaseUser {s : Store} (hs : s.NonNeg) (userId : ℕ) (h : HeldAmounts) :
    (s.releaseUser userId h).NonNeg := by
  rw [Store.releaseUser]
  split
  · exact NonNeg.of_users hs (fun user huser => huser.release h) rfl
  · exact hs

theorem NonNeg.releaseHolds {s : Store} (hs : s.NonNeg) (ids : List ℕ) (h : HeldAmounts) :
    (s.releaseHolds ids h).NonNeg :=
  NonNeg.updateCeilings hs ids fun _ hc => hc.release h

theorem NonNeg.transition {s : Store} (hs : s.NonNeg) (id : ℕ) (current new : Status) :
    (s.transition id current new).2.NonNeg := by
  rw [Store.transition]
  split_ifs
  · exact ⟨hs.users, hs.ceilings⟩
  · exact hs

theorem NonNeg.releaseRow {s : Store} (hs : s.NonNeg) (r : Reservation) :
    (s.releaseRow r).NonNeg := by
  have hfold : ∀ (groups : List (Held × List ℕ)) (t : Store), t.NonNeg →
      (groups.foldl (fun s g => s.releaseHolds g.2 g.1.read) t).NonNeg := by
    intro groups
    induction groups with
    | nil => exact fun t ht => ht
    | cons g groups ih => exact fun t ht => ih _ (NonNeg.releaseHolds ht g.2 g.1.read)
  refine hfold _ _ ?_
  split_ifs
  · exact NonNeg.releaseUser hs r.userId r.userHeld.read
  · exact hs

theorem NonNeg.reclaimed {s t : Store} (hs : s.NonNeg) (h : Reclaimed userId now s t) :
    t.NonNeg := by
  induction h with
  | none => exact hs
  | @expire t _ r _ _ _ ih =>
    rw [Store.expire]
    split_ifs
    · exact NonNeg.releaseRow (NonNeg.transition ih r.id .active .expired) r
    · exact NonNeg.transition ih r.id .active .expired

theorem NonNeg.sameHolds {s t : Store} (hs : s.NonNeg) (h : SameHolds s t) : t.NonNeg := by
  have hheld : ∀ u v : Usage, u.held = v.held → u.NonNeg → v.NonNeg := by
    intro u v heq hu
    obtain ⟨h₁, h₂, h₃⟩ := Held.mk.inj heq
    rw [Usage.NonNeg, ← h₁, ← h₂, ← h₃]
    exact hu
  refine ⟨fun id user huser => ?_, fun id c hc => ?_⟩
  · have hmap := h.users id
    rw [huser] at hmap
    obtain ⟨old, hold, heq⟩ := Option.map_eq_some_iff.mp hmap
    exact hheld _ _ heq (hs.users id old hold)
  · have hmap := h.ceilings id
    rw [hc] at hmap
    obtain ⟨old, hold, heq⟩ := Option.map_eq_some_iff.mp hmap
    exact hheld _ _ heq (hs.ceilings id old hold)

/-! ### Windows -/

theorem SameHolds.updateCeilings (s : Store) (ids : List ℕ) {f : ScopedBudget → ScopedBudget}
    (hf : ∀ c, (f c).usage.held = c.usage.held) : SameHolds s (s.updateCeilings ids f) := by
  refine ⟨fun _ => rfl, fun id => ?_, rfl⟩
  dsimp only [Store.updateCeilings]
  split_ifs
  · cases s.ceilings id with
    | none => rfl
    | some c => simp [hf c]
  · rfl

theorem SameHolds.rollPeriod (s : Store) (id : ℕ) (now start : ℤ) (ends : Option ℤ) :
    SameHolds s (s.rollPeriod id now start ends) := by
  refine .updateCeilings s [id] fun c => ?_
  split_ifs <;> rfl

theorem SameHolds.resetUser (s : Store) (userId : ℕ) (now start : ℤ) (next : Option ℤ) :
    SameHolds s (s.resetUser userId now start next).2 := by
  rw [Store.resetUser]
  split
  · split_ifs
    · refine ⟨fun id => ?_, fun _ => rfl, rfl⟩
      dsimp only [Store.updateUser]
      by_cases hid : id = userId
      · subst hid
        rw [update_self]
        cases s.users id <;> rfl
      · rw [update_of_ne hid]
    · exact .refl s
  · exact .refl s

variable {db : Db} {s : Session Store} {base c : Store}

/-- A call that, before anything is held, leaves every hold as it is. -/
def KeepsHolds (base : Store) {α : Type} (x : Call α) (s : Session Store) : Prop :=
  x.Ends s (fun _ s' => ∃ c, s'.At c ∧ SameHolds base c) (FailsWith (SameHolds base))

def Refusal.ceiling : Refusal → Option ScopeType
  | .budgetExceeded scope _ _ _ => scope
  | .spendCeilingExceeded scope _ _ _ _ => some scope
  | .userNotFound | .userBlocked | .unknownAlignment => none

/-- How a call ends that raises: `P` is committed; an error of its own names no ceiling, with
nothing else written; and it is of its own where statements of these kinds do not fail. -/
structure Ended (db : Db) (kinds : List Kind) (P : Store → Prop)
    (e : Failure DatabaseError Refusal) (s : Session Store) : Prop where
  holds : P s.committed
  clean : ∀ refusal, e = .raised refusal → s.At s.committed ∧ refusal.ceiling = none
  calm : (∀ kind ∈ kinds, db.Calm kind) → ∀ d, e ≠ .database d

variable {kinds : List Kind} {P : Store → Prop}

theorem Ended.raised {refusal : Refusal} (hc : P c)
    (h : s.At c) (hrefusal : refusal.ceiling = none) : Ended db kinds P (.raised refusal) s := by
  refine ⟨h.1 ▸ hc, fun _ heq => ?_, fun _ d heq => ?_⟩
  · cases heq
    exact ⟨h.1.symm ▸ h, hrefusal⟩
  · cases heq

variable {kind : Kind}

theorem Ended.database {d : DatabaseError}
    (hs : P s.committed) (hkind : kind ∈ kinds) (hraises : db.Raises kind d) :
    Ended db kinds P (.database d) s := by
  refine ⟨hs, fun _ heq => ?_, fun hcalm _ _ => (hcalm kind hkind).not_raises d hraises⟩
  cases heq

theorem Ended.not_calm {d : DatabaseError}
    (hs : P s.committed) (hkind : kind ∈ kinds) (hcalm : ¬ db.Calm kind) :
    Ended db kinds P (.database d) s := by
  refine ⟨hs, fun _ heq => ?_, fun hall _ _ => hcalm (hall kind hkind)⟩
  cases heq

theorem Ended.mono {kinds' : List Kind} {P' : Store → Prop}
    {e : Failure DatabaseError Refusal} (h : Ended db kinds P e s) (hkinds : kinds ⊆ kinds')
    (hP : ∀ w, P w → P' w) : Ended db kinds' P' e s :=
  ⟨hP _ h.holds, h.clean, fun hall => h.calm fun kind hkind => hall kind (hkinds hkind)⟩

theorem ended_of_fails {e : Failure DatabaseError Refusal}
    (h : Fails (fun d s' => s'.committed = c ∧ db.Raises kind d) e s) (hkind : kind ∈ kinds)
    (hc : P c) : Ended db kinds P e s := by
  obtain ⟨d, rfl, hs, hraises⟩ := h
  exact .database (hs ▸ hc) hkind hraises

theorem listApplicable_sublist (s : Store) (ids : List ℕ) :
    ((s.listApplicable ids).map ApplicableCeiling.id).Sublist ids := by
  unfold Store.listApplicable
  induction ids with
  | nil => exact .slnil
  | cons id ids ih =>
    rw [filterMap_cons]
    cases hc : s.ceilings id with
    | none => exact ih.cons id
    | some c =>
      cases hb : s.budgets c.budgetId with
      | none => simpa [hb] using ih.cons id
      | some b => simpa [hb] using ih.cons_cons id

theorem getProviderCeilings_nodup {s : Store} {ids : List ℕ} (h : ids.Nodup)
    (provider : Option String) :
    ((getProviderCeilings (s.listApplicable ids) provider).map ApplicableCeiling.id).Nodup := by
  have hperm := (perm_insertionSort (fun a b : ApplicableCeiling => a.key ≤ b.key)
    ((s.listApplicable ids).filter
      fun c => c.providerKeyId.isNone || c.providerKeyId = provider)).map ApplicableCeiling.id
  refine hperm.nodup_iff.mpr (List.Nodup.sublist ?_ h)
  exact (filter_sublist.map _).trans (listApplicable_sublist s ids)

theorem ends_rollEndedWindows
    (hroll : ∀ w id now start ends, P w → P (w.rollPeriod id now start ends)) (now : ℤ)
    (ceilings : List ApplicableCeiling) {w : Store} (hw : P w) (h : s.Open c w) :
    (rollEndedWindows db now ceilings).Ends s (fun _ s' => ∃ w, s'.Open c w ∧ P w)
      (Fails fun _ s' => s'.committed = c) := by
  induction ceilings generalizing s w with
  | nil => exact ⟨w, h, hw⟩
  | cons ceiling rest ih =>
    have hone : (rollEnded db now ceiling).Ends s (fun _ s' => ∃ w, s'.Open c w ∧ P w)
        (Fails fun _ s' => s'.committed = c) := by
      rw [rollEnded, ends_ite]
      refine ⟨fun _ => ?_, fun _ => ⟨w, h, hw⟩⟩
      split
      · exact (ends_execute h _).mono (fun _ s₁ h₁ => ⟨_, h₁, hroll _ _ _ _ _ hw⟩)
          fun _ _ he => he.mono fun _ hd => hd.1
      · exact ⟨w, h, hw⟩
    rw [rollEndedWindows, ends_bind]
    refine hone.mono (fun _ s₁ h₁ => ?_) fun _ _ h => h
    obtain ⟨w₁, hopen, hw₁⟩ := h₁
    exact ih hw₁ hopen

section
variable (hserver : db.Honest)
include hserver

theorem ends_rollAndListApplicable (ceilings : List ApplicableCeiling) (hc : SameHolds base c)
    (h : s.At c) : (rollAndListApplicable db ceilings).Ends s
      (fun budgets s' => budgets = ceilings.map toApplicableBudget ∧
        ∃ c, s'.At c ∧ SameHolds base c) (FailsWith (SameHolds base)) := by
  rw [rollAndListApplicable, ends_bind, ends_now, ends_bind, ends_ite]
  refine ⟨fun _ => ?_, fun _ => ?_⟩
  · rw [ends_bind]
    refine (ends_rollEndedWindows (fun w id now start ends hw => hw.trans (.rollPeriod ..)) _
      ceilings hc h).mono (fun _ s₁ h₁ => ?_) fun _ _ he => ?_
    swap
    · refine failsWith_of_fails he fun _ hd => ?_
      rwa [hd]
    obtain ⟨w, hopen, hw⟩ := h₁
    refine (ends_commit hserver hopen).mono (fun _ s₂ h₂ => ?_) fun _ _ he => ?_
    · rw [ends_pure]
      exact ⟨rfl, w, h₂, hw⟩
    · refine failsWith_of_fails he fun _ hd => ?_
      rwa [hd.1.1]
  · rw [ends_pure, ends_pure]
    exact ⟨rfl, c, h, hc⟩

theorem ends_casReset {P : Store → Prop} {userId : ℕ}
    (hreset : ∀ w now start next, P w → P (w.resetUser userId now start next).2) (user : User)
    (budget : BudgetRow) (instant : ℤ) (hc : P c) (h : s.At c) :
    (casResetUserBudget db userId user budget instant).Ends s (fun _ s' => ∃ c, s'.At c ∧ P c)
      (Ended db [.roll, .lookup] P) := by
  have hroll : Kind.roll ∈ [Kind.roll, .lookup] := mem_cons_self
  have hlookup : Kind.lookup ∈ [Kind.roll, .lookup] := mem_cons_of_mem _ mem_cons_self
  rw [casResetUserBudget]
  split
  · rw [ends_raise]
    exact .raised hc h rfl
  · rename_i window hwindow
    rw [ends_bind]
    refine (ends_execute h id).mono (fun _ s₁ h₁ => ?_) fun _ _ he => ended_of_fails he hroll hc
    rw [ends_bind]
    refine (ends_statement h₁ _).mono (fun rolled s₂ h₂ => ?_)
      fun _ _ he => ended_of_fails he hroll hc
    have hw := hreset c instant (window.elim instant Prod.fst) (window.map Prod.snd) hc
    have hread : ∀ {s' : Session Store} {c' : Store} (read : Store → Option User), s'.At c' →
        P c' →
        (query db .lookup read >>= fun refreshed => pure (refreshed.getD user) : Call User).Ends s'
          (fun _ s' => ∃ c, s'.At c ∧ P c) (Ended db [.roll, .lookup] P) := by
      intro s' c' read hs' hc'
      rw [ends_bind]
      exact (ends_query hs' read).mono (fun _ s₃ h₃ => ⟨c', h₃.2, hc'⟩)
        fun _ _ he => ended_of_fails he hlookup hc'
    rw [ends_ite]
    refine ⟨fun _ => ?_, fun _ => ?_⟩
    · rw [ends_bind]
      refine ends_onSqlAlchemyError (P := fun d s' => s'.At c ∧ db.Raises .roll d)
        ((ends_commit hserver h₂.2).mono (fun _ s₃ h₃ => hread _ h₃ hw) fun _ _ he => he)
        (fun s₃ h₃ => ?_) fun s₃ h₃ => ?_
      · have hcommitted : P s₃.committed := h₃.1.1 ▸ hc
        rw [ends_bind]
        refine ends_rollback.mono (fun _ s₄ h₄ => ?_) fun _ _ he => ?_
        · rw [ends_raise]
          exact .database (h₄.1 ▸ hcommitted) hroll h₃.2
        · exact ended_of_fails (he.mono fun _ hd => ⟨hd.1.1, hd.2⟩) hroll hcommitted
      · exact .database (h₃.1.1 ▸ hc) hroll h₃.2
    · rw [ends_bind]
      exact (ends_commit hserver h₂.2).mono (fun _ s₃ h₃ => hread _ h₃ hw)
        fun _ _ he => ended_of_fails (he.mono fun _ hd => ⟨hd.1.1, hd.2⟩) hroll hc

theorem ends_resetDue {P : Store → Prop} {userId : ℕ}
    (hreset : ∀ w now start next, P w → P (w.resetUser userId now start next).2) (user : User)
    (budget : Option BudgetRow) (hc : P c) (h : s.At c) :
    (resetDue db userId user budget).Ends s (fun _ s' => ∃ c, s'.At c ∧ P c)
      (Ended db [.roll, .lookup] P) := by
  unfold resetDue
  split
  · exact ⟨c, h, hc⟩
  · rw [ends_bind, ends_now, ends_ite]
    exact ⟨fun _ => ends_casReset hserver hreset user _ _ hc h, fun _ => ⟨c, h, hc⟩⟩

theorem keepsHolds_resetDue (userId : ℕ) (user : User) (budget : Option BudgetRow)
    (hc : SameHolds base c) (h : s.At c) : KeepsHolds base (resetDue db userId user budget) s :=
  (ends_resetDue hserver (fun w now start next hw => hw.trans (.resetUser w userId now start next))
    user budget hc h).mono (fun _ _ h => h) fun _ _ he => he.holds

theorem ends_scopeCeilings (r : Request) (hc : SameHolds base c) (h : s.At c) :
    (scopeCeilings db r).Ends s (fun ceilings s' => (ceilings.2.map ApplicableBudget.id).Nodup ∧
        (r.scope = none → ceilings.2 = []) ∧ ∃ c, s'.At c ∧ SameHolds base c)
      (FailsWith (SameHolds base)) := by
  rw [scopeCeilings]
  split
  · exact ⟨nodup_nil, fun _ => rfl, c, h, hc⟩
  · rename_i scope hscope
    rw [ends_bind]
    refine (ends_query h _).mono (fun listed s₁ h₁ => ?_) fun _ _ he => ?_
    · rw [ends_bind]
      refine (ends_rollAndListApplicable hserver _ hc h₁.2).mono (fun budgets s₂ h₂ => ?_)
        fun _ _ h => h
      obtain ⟨rfl, hat⟩ := h₂
      rw [ends_pure]
      refine ⟨?_, fun hnone => ?_, hat⟩
      · rw [h₁.1, map_map]
        exact getProviderCeilings_nodup scope.ceilingIds_nodup scope.providerInstance
      · rw [hscope] at hnone
        cases hnone
    · refine failsWith_of_fails he fun _ hd => ?_
      rwa [hd.1]

end

/-! ### Reclaiming -/

theorem ends_releaseLines {w : Store} (groups : List (Held × List ℕ)) (h : s.Open c w) :
    (releaseLines db groups).Ends s
      (fun _ s' => s'.Open c (groups.foldl (fun s g => s.releaseHolds g.2 g.1.read) w))
      (Fails fun d s' => s'.committed = c ∧ db.Raises .reclaim d) := by
  induction groups generalizing s w with
  | nil => exact h
  | cons g groups ih =>
    rw [releaseLines, ends_bind]
    exact (ends_releaseUncommitted h g.2 g.1.read).mono (fun _ s₁ h₁ => ih h₁) fun _ _ he => he

theorem ends_releaseReclaimed {w : Store} (r : Reservation) (h : s.Open c w) :
    (releaseReclaimed db r).Ends s (fun _ s' => s'.Open c (w.releaseRow r))
      (Fails fun d s' => s'.committed = c ∧ db.Raises .reclaim d) := by
  rw [releaseReclaimed, ends_bind]
  refine (ends_query h _).mono (fun lines s₁ h₁ => ?_) fun _ _ he => he
  obtain ⟨rfl, h₁⟩ := h₁
  rw [ends_bind, ends_ite]
  refine ⟨fun hsome => ?_, fun hsome => ?_⟩
  · refine (ends_execute h₁ _).mono (fun _ s₂ h₂ => ?_) fun _ _ he => he
    rw [Store.releaseRow, if_pos hsome]
    exact ends_releaseLines _ h₂
  · rw [ends_pure, Store.releaseRow, if_neg hsome]
    exact ends_releaseLines _ h₁

theorem ends_claimed {w : Store} (r : Reservation)
    (h : s.Open c (w.transition r.id .active .expired).2) :
    (if (w.transition r.id .active .expired).1 then releaseReclaimed db r
      else pure () : Call Unit).Ends s (fun _ s' => s'.Open c (w.expire r))
      (Fails fun d s' => s'.committed = c ∧ db.Raises .reclaim d) := by
  rw [ends_ite]
  refine ⟨fun hwon => ?_, fun hwon => ?_⟩
  · rw [Store.expire, if_pos hwon]
    exact ends_releaseReclaimed r h
  · rw [Store.expire, if_neg hwon]
    exact h

section
variable (hserver : db.Honest)
include hserver

theorem ends_reclaim {userId : ℕ} {now : ℤ} (rows : List Reservation)
    (hrows : ∀ r ∈ rows, r ∈ base.active ∧ r.userId = userId ∧ r.expiresAt < now)
    (hc : Reclaimed userId now base c) (h : s.At c) :
    (reclaim db rows).Ends s (fun _ s' => ∃ c, s'.At c ∧ Reclaimed userId now base c)
      (FailsWith (Reclaimed userId now base)) := by
  have hfails : ∀ {c' : Store} {e : Failure DatabaseError Refusal} {s' : Session Store},
      Reclaimed userId now base c' → FailsWith (· = c') e s' →
      FailsWith (Reclaimed userId now base) e s' := by
    rintro c' e s' hc' rfl
    exact hc'
  induction rows generalizing s c with
  | nil => exact ⟨c, h, hc⟩
  | cons r rows ih =>
    obtain ⟨hr, huser, hpast⟩ := hrows r mem_cons_self
    have hrest := fun r' hr' => hrows r' (mem_cons_of_mem r hr')
    rw [reclaim, ends_bind]
    refine (ends_execute h id).mono (fun _ s₁ h₁ => ?_)
      fun _ _ he => hfails hc (failsWith_of_fails he fun _ hd => hd.1)
    rw [ends_bind]
    refine (ends_statement h₁ _).mono (fun won s₂ h₂ => ?_)
      fun _ _ he => hfails hc (failsWith_of_fails he fun _ hd => hd.1)
    obtain ⟨rfl, h₂⟩ := h₂
    have hexpired : Reclaimed userId now base (c.expire r) := hc.expire hr huser hpast
    rw [ends_bind]
    refine (ends_claimed r h₂).mono (fun _ s₃ h₃ => ?_)
      fun _ _ he => hfails hc (failsWith_of_fails he fun _ hd => hd.1)
    rw [ends_bind]
    exact (ends_commit hserver h₃).mono (fun _ s₄ h₄ => ih hrest hexpired h₄)
      fun _ _ he => hfails hc (failsWith_of_fails he fun _ hd => hd.1.1)

theorem ends_reclaimExpiredForUser (userId : ℕ) (h : s.At c) :
    (reclaimExpiredForUser db userId).Ends s
      (fun _ s' => ∃ c', s'.At c' ∧ Reclaimed userId (db.clock s.asked) c c')
      (FailsWith (Reclaimed userId (db.clock s.asked) c)) := by
  rw [reclaimExpiredForUser, ends_bind, ends_now, ends_bind]
  refine (ends_query h _).mono (fun rows s₁ h₁ => ?_) fun _ _ he => ?_
  · obtain ⟨rfl, h₁⟩ := h₁
    refine ends_reclaim hserver _ (fun r hr => ?_) .none h₁
    have hmem := (mem_insertionSort _).mp (mem_of_mem_take hr)
    obtain ⟨hmem, hrow⟩ := mem_filter.mp hmem
    obtain ⟨hactive, hpast, huser⟩ := of_decide_eq_true hrow
    exact ⟨mem_filter.mpr ⟨hmem, decide_eq_true hactive⟩, huser, hpast⟩
  · refine failsWith_of_fails he fun _ hd => ?_
    rw [hd.1]
    exact .none

end

/-! ### A refused reservation -/

/-- Nothing is written, unless a lookup that failed has broken the transaction. -/
def Ready (c : Store) (s : Session Store) : Prop :=
  s.At c ∨ s.committed = c ∧ s.broken = true

theorem ends_isFree (r : Request) (h : s.At c) :
    (isFree db r).Ends s (fun free s' => Ready c s' ∧ (db.Calm .price ∨ free = true → s'.At c))
      (Ended db [.price] (· = c)) := by
  rw [isFree]
  split
  · exact ⟨.inl h, fun _ => h⟩
  · rw [isModelFree]
    by_cases hcalm : db.Calm .price
    · refine ends_onSqlAlchemyError (P := fun _ _ => False)
        ((calm_statement hcalm h _).mono (fun _ _ h₁ => ⟨.inl h₁.2, fun _ => h₁.2⟩)
          fun _ _ he => he) (fun _ h₁ => h₁.elim) fun _ h₁ => h₁.elim
    · exact ends_onSqlAlchemyError
        ((ends_statement_breaks h _).mono (fun _ _ h₁ => ⟨.inl h₁, fun _ => h₁⟩) fun _ _ he => he)
        (fun _ h₁ => ⟨.inr h₁, fun hfree => hfree.elim (absurd · hcalm) fun h => by cases h⟩)
        fun _ h₁ => .not_calm h₁.1 mem_cons_self hcalm
  · exact ⟨.inl h, fun _ => h⟩

section
variable (hback : db.Calm .giveBack)
include hback

theorem ends_failed {β : Type} {x : Call β} {held : HeldAmounts} {ids : List ℕ}
    {Q : β → Session Store → Prop} (hc : s.committed = c) (hids : ids = [])
    (hx : x.Ends s (fun _ _ => False) (Fails fun _ s' => s' = s)) :
    (onDatabaseError x fun e => do
      suppress do
        rollback db .giveBack
        release db .giveBack ids held
      raise (.database e)).Ends s Q (FailsWith (· = c)) := by
  subst hids
  refine ends_onDatabaseError (P := (· = s)) (hx.mono (fun _ _ h => h.elim) fun _ _ h => h)
    fun d s₁ h₁ => ?_
  subst h₁
  rw [ends_bind]
  refine (ends_suppress (Q := fun _ s' => s'.At s₁.committed) ?_).mono (fun _ s₂ h₂ => ?_)
    fun _ _ h => h
  · rw [ends_bind]
    exact (calm_rollback hback).mono (fun _ _ h₂ => h₂) fun _ _ h => h
  · rw [ends_raise, FailsWith, h₂.1]
    exact hc

theorem takeHolds_broken (r : Request) (budget : Option BudgetRow)
    (budgets : List ApplicableBudget) (ceilings : List ApplicableCeiling) (ask : Ask)
    (hc : s.committed = c) (h : s.broken = true) :
    (takeHolds db r budget budgets ceilings ask).Ends s (fun _ _ => True) (FailsWith (· = c)) := by
  unfold takeHolds
  rw [ends_bind]
  cases budgets with
  | cons b rest =>
    rw [reserve, reserveFrom, ends_bind]
    refine ends_failed hback hc rfl ?_
    rw [holdOn, ends_bind]
    exact (ends_broken h _).mono (fun _ _ h => h) fun _ _ he => he
  | nil =>
    rw [reserve, reserveFrom, ends_pure]
    cases budget with
    | none =>
      dsimp only
      rw [heldHandleCommitted, ends_bind, ends_ite]
      exact ⟨fun _ => trivial, fun _ => trivial⟩
    | some b =>
      dsimp only
      rw [ends_bind]
      refine ends_failed hback hc rfl ?_
      rw [ends_bind]
      exact (ends_broken h _).mono (fun _ _ h => h) fun _ _ he => he

end

theorem Request.ask_nonneg (r : Request) (free : Bool) : (r.ask free).held.NonNeg := by
  refine ⟨?_, le_min (le_max_right _ _) (by norm_num [maxCountLimit]), le_max_right _ _⟩
  cases free
  · exact le_max_right _ _
  · exact le_rfl

section
variable (hserver : db.Honest)
include hserver

theorem ends_reclaimDue {p : Prop} [Decidable p] (userId : ℕ) (h : Ready c s) :
    (if p then reclaimExpiredForUser db userId else pure () : Call Unit).Ends s
      (fun _ s' => ∃ c', Reclaimed userId (db.clock s.asked) c c' ∧ Ready c' s')
      (FailsWith (Reclaimed userId (db.clock s.asked) c)) := by
  rw [ends_ite]
  refine ⟨fun _ => ?_, fun _ => ⟨c, .none, h⟩⟩
  rcases h with h | ⟨hc, hbroken⟩
  · exact (ends_reclaimExpiredForUser hserver userId h).mono
      (fun _ _ ⟨c', hat, hreclaimed⟩ => ⟨c', hreclaimed, .inl hat⟩) fun _ _ he => he
  · rw [reclaimExpiredForUser, ends_bind, ends_now, ends_bind]
    refine (ends_broken hbroken _).mono (Q := fun _ _ => False) (fun _ _ h => h.elim)
      fun _ _ he => failsWith_of_fails he fun _ hd => ?_
    rw [hd, hc]
    exact .none

theorem reserveEnforced_restores (hback : db.Calm .giveBack) {store : Store}
    (hstore : store.NonNeg) (r : Request) (user : User) (budget : Option BudgetRow)
    (htimeout : budget = none → NoTimeout db .record)
    (hrecord : r.recordReservation = true ∨ r.scope = none) (h : s.At store) :
    (reserveEnforced db r user budget).Ends s (fun _ _ => True)
      (FailsWith (Unchanged db r.userId store)) := by
  have hsame : ∀ (e : Failure DatabaseError Refusal) (s' : Session Store),
      FailsWith (SameHolds store) e s' → FailsWith (Unchanged db r.userId store) e s' :=
    fun _ _ h => .of_sameHolds h
  rw [reserveEnforced, ends_bind]
  refine (keepsHolds_resetDue hserver r.userId user budget (.refl store) h).mono
    (fun user s₁ h₁ => ?_) hsame
  obtain ⟨c₁, hat₁, hsame₁⟩ := h₁
  rw [ends_bind]
  refine (ends_scopeCeilings hserver r hsame₁ hat₁).mono (fun ceilings s₂ h₂ => ?_) hsame
  obtain ⟨hnodup, hunscoped, c₂, hat₂, hsame₂⟩ := h₂
  obtain ⟨ceilings, budgets⟩ := ceilings
  dsimp only at hnodup hunscoped ⊢
  rw [ends_ite]
  refine ⟨fun _ => trivial, fun _ => ?_⟩
  rw [ends_bind]
  refine (ends_isFree r hat₂).mono (fun free s₃ h₃ => ?_) fun _ _ he => ?_
  · rw [ends_ite]
    refine ⟨fun _ => trivial, fun _ => ?_⟩
    rw [ends_bind]
    refine (ends_reclaimDue hserver r.userId h₃.1).mono (fun _ s₄ h₄ => ?_)
      fun _ s' he => ⟨s₃.asked, c₂, s'.committed, hsame₂, he, .refl _⟩
    obtain ⟨c₄, hreclaimed, hready⟩ := h₄
    have hrestored : (takeHolds db r budget budgets ceilings (r.ask free)).Ends s₄ (fun _ _ => True)
        (FailsWith (SameHolds c₄)) := by
      rcases hready with hat | ⟨hc, hbroken⟩
      · refine takeHolds_restores hserver hback
          (NonNeg.reclaimed (NonNeg.sameHolds hstore hsame₂) hreclaimed) r budget htimeout hnodup
          (fun hnot => hunscoped ?_) ceilings (r.ask_nonneg free) hat
        rcases hrecord with hrecord | hscope
        · rw [hnot] at hrecord
          cases hrecord
        · exact hscope
      · refine (takeHolds_broken hback r budget budgets ceilings (r.ask free) hc hbroken).mono
          (fun _ _ h => h) fun _ s' he => ?_
        rw [FailsWith] at he ⊢
        rw [he]
        exact .refl _
    exact hrestored.mono (fun _ _ h => h) fun _ s' he => ⟨s₃.asked, c₂, c₄, hsame₂, hreclaimed, he⟩
  · refine hsame _ _ ?_
    rw [FailsWith, he.holds]
    exact hsame₂

end

/-- Whether the user has no budget of their own, so that the ceilings hold everything. -/
def Request.Unbudgeted (r : Request) (s : Store) : Prop :=
  ∀ user budget, s.activeUserWithBudget r.userId ≠ some (user, some budget)

/-- **A refused reservation changes nothing.**  With no other actor, where `reserve_budget` refuses
or fails, every counter of what is held and every active row of the ledger is as before, but for the
user's expired reservations that the call reclaimed.  That is so of a database that does what gives
a hold back, lands no commit it reports as failed, and raises no `TimeoutError` as it records a
reservation on ceilings alone; and of a request whose row is recorded, or that passes no scope. -/
theorem refusal_restores (db : Db) (r : Request) (store : Store) (hstore : store.NonNeg)
    (hserver : db.Honest) (hback : db.Calm .giveBack)
    (htimeout : r.Unbudgeted store → NoTimeout db .record)
    (hrecord : r.recordReservation = true ∨ r.scope = none) :
    (reserveBudget db r).Ends (.start store) (fun _ _ => True)
      fun _ final => Unchanged db r.userId store final.committed := by
  have hsame : ∀ s' : Session Store, s'.committed = store →
      Unchanged db r.userId store s'.committed := by
    rintro s' rfl
    exact .of_sameHolds (.refl _)
  rw [reserveBudget, ends_bind]
  refine (ends_query (Session.at_start store) _).mono (fun loaded s₁ h₁ => ?_) fun _ s' he => ?_
  · obtain ⟨rfl, h₁⟩ := h₁
    split
    · rw [ends_raise]
      exact hsame _ h₁.1
    · rename_i user budget hloaded
      rw [ends_ite]
      refine ⟨fun _ => hsame _ h₁.1, fun _ => ?_⟩
      rw [ends_ite]
      refine ⟨fun _ => trivial, fun _ => ?_⟩
      rw [ends_ite]
      refine ⟨fun _ => trivial, fun _ => ?_⟩
      refine reserveEnforced_restores hserver hback hstore r user budget (fun hnone => htimeout ?_)
        hrecord h₁
      intro user' budget' hloaded'
      rw [hloaded, hnone] at hloaded'
      cases hloaded'
  · obtain ⟨d, -, hd⟩ := he
    exact hsame _ hd.1

/-! ### Runs -/

/-- A user on a budget of a dollar, and a ceiling of ten on their key. -/
def oneDollar (reserved : ℤ) (rows : List Reservation) : Store where
  users id :=
    if id = 0 then some ⟨false, false, some 0, ⟨0, reserved, 0, 0, 0, 0⟩, none, none⟩ else none
  budgets id :=
    if id = 0 then some ⟨⟨some 1000000, none, none⟩, fun _ => .ok none⟩
    else some ⟨⟨some 10000000, none, none⟩, fun _ => .ok none⟩
  ceilings id := if id = 7 then some ⟨.apiToken, none, 1, ⟨0, 0, 0, 0, 0, 0⟩, none, none⟩ else none
  reservations := rows

theorem oneDollar_nonNeg {reserved : ℤ} (h : 0 ≤ reserved) (rows : List Reservation) :
    (oneDollar reserved rows).NonNeg := by
  refine ⟨fun id user huser => ?_, fun id c hc => ?_⟩
  · dsimp only [oneDollar] at huser
    split_ifs at huser
    cases huser
    exact ⟨h, le_rfl, le_rfl⟩
  · dsimp only [oneDollar] at hc
    split_ifs at hc
    cases hc
    exact ⟨le_rfl, le_rfl, le_rfl⟩

def answering (reply : Kind → ℕ → Reply DatabaseError) : Db := ⟨reply, .sqlAlchemy, fun _ => 100⟩

def twoDollars : Request where
  userId := 0
  estimate := 2
  price := none
  scope := some ⟨[7], none, List.nodup_singleton 7⟩

/-- The ceiling takes the two dollars, the user's budget refuses them, and the ceiling has them
back. -/
theorem refusal_restores_run :
    (reserveBudget (answering fun _ _ => .done) twoDollars (.start (oneDollar 0 []))).1.isOk =
      false ∧ (reserveBudget (answering fun _ _ => .done) twoDollars).Ends (.start (oneDollar 0 []))
      (fun _ _ => True)
      fun _ final => Unchanged (answering fun _ _ => .done) twoDollars.userId (oneDollar 0 [])
        final.committed :=
  ⟨by decide +kernel,
    refusal_restores _ _ _ (oneDollar_nonNeg le_rfl []) (by intro l n e h; cases h)
      (fun _ => rfl) (by rintro - ⟨n, h | h⟩ <;> cases h) (.inl rfl)⟩

/-- **A refused reservation may change something**: a refusal that comes after the user's expired
row was reclaimed; a give-back that the database fails as well, which leaves the ceiling holding;
and a commit that landed and reported failure, which leaves the row active for the sweep. -/
theorem refusal_changes : (∃ db r store, store.NonNeg ∧ (∀ l, db.Calm l) ∧
      (reserveBudget db r (.start store)).1.isOk = false ∧
      ¬ SameHolds store (reserveBudget db r (.start store)).2.committed) ∧
    (∃ db r store, store.NonNeg ∧ db.Honest ∧ (reserveBudget db r (.start store)).1.isOk = false ∧
      ¬ SameHolds store (reserveBudget db r (.start store)).2.committed) ∧
    ∃ db r store, store.NonNeg ∧ db.Calm .giveBack ∧
      (reserveBudget db r (.start store)).1.isOk = false ∧
      store.active = [] ∧ (reserveBudget db r (.start store)).2.committed.active ≠ [] := by
  refine ⟨⟨answering fun _ _ => .done, twoDollars,
    oneDollar 500000 [⟨1, 0, true, ⟨500000, 0, 0⟩, .active, 50, []⟩],
    oneDollar_nonNeg (by norm_num) _, fun _ _ => rfl, by decide +kernel, fun h => ?_⟩,
    ⟨answering fun l _ => if l = .giveBack then .failed .sqlAlchemy else .done, twoDollars,
    oneDollar 0 [], oneDollar_nonNeg le_rfl _, fun l n e => ?_, by decide +kernel, fun h => ?_⟩,
    answering fun l n => if l = .record ∧ n = 4 then .landed .timeout else .done,
    { twoDollars with estimate := 1, scope := none }, oneDollar 0 [], oneDollar_nonNeg le_rfl _,
    fun _ => rfl, by decide +kernel, rfl, by decide +kernel⟩
  · exact absurd (h.users 0) (by decide +kernel)
  · dsimp only [answering]
    split_ifs <;> intro h <;> cases h
  · exact absurd (h.ceilings 7) (by decide +kernel)

end Otari.Reservations
