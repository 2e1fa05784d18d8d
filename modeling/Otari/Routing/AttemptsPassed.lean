import Otari.Routing.Attempts

/-!
# Routing — AttemptsPassed — what the walk reports of the candidates it passes

A candidate is passed when it could not serve or its provider failed before it locked in
(`Candidate.passes`).  Of what is held back at any time the skips are a list, so none is lost
(`skipped_passAll`), and the failure a single variable: one that fails before it is sent overwrites
it (`Overtaken`, `accounted_passAll`).
-/

namespace Otari.Attempts
open List
variable {α ρ ε θ ω : Type}

/-! ### What a walk shows -/

namespace Event

def triedPlace : Event α ρ ε → Option ℕ
  | .tried place => some place
  | _ => none

def absorption : Event α ρ ε → Option (Placed α × ε)
  | .absorbed attempt error => some (attempt, error)
  | _ => none

def skipping : Event α ρ ε → Option (Placed α × ρ)
  | .skipped attempt refusal => some (attempt, refusal)
  | _ => none

def naming : Event α ρ ε → Option (Placed α)
  | .terminal attempt => some attempt
  | _ => none

def dropsAt (place : ℕ) : Event α ρ ε → Bool
  | .dropped other _ => other = place
  | _ => false

end Event

namespace Walk

def tried (w : Walk α ρ ε) : List ℕ := w.events.filterMap Event.triedPlace

/-- The calls of `on_absorbed`. -/
def absorbed (w : Walk α ρ ε) : List (Placed α × ε) := w.events.filterMap Event.absorption

/-- The calls of `on_skipped`. -/
def skipped (w : Walk α ρ ε) : List (Placed α × ρ) := w.events.filterMap Event.skipping

/-- The calls of `on_terminal`. -/
def terminals (w : Walk α ρ ε) : List (Placed α) := w.events.filterMap Event.naming

def drops (w : Walk α ρ ε) (place : ℕ) : ℕ := w.events.countP (Event.dropsAt place)

variable (w : Walk α ρ ε) (place : ℕ) (t : Tried α ρ ε θ)

/-! ### One candidate's `try` block -/

theorem events_begun : (w.begun place t).events =
    w.events ++ .tried place :: ((if t.admitted then [.admitted place] else []) ++
      if t.sent then (w.unabsorbed.map fun held => Event.absorbed held.1 held.2).toList ++
        (w.unrecordedSkips.map fun held => Event.skipped held.1 held.2) ++ [.sent place]
      else []) := by
  unfold begun flush report
  cases t.sent <;> simp

theorem filterMap_skips {β : Type} (p : Event α ρ ε → Option β)
    (h : ∀ attempt refusal, p (.skipped attempt refusal) = none) (l : List (Placed α × ρ)) :
    (l.map fun held => Event.skipped held.1 held.2).filterMap p = [] := by
  rw [filterMap_map]
  exact filterMap_eq_nil_iff.mpr fun held _ => h held.1 held.2

theorem countP_skips (p : Event α ρ ε → Bool)
    (h : ∀ attempt refusal, p (.skipped attempt refusal) = false) (l : List (Placed α × ρ)) :
    (l.map fun held => Event.skipped held.1 held.2).countP p = 0 := by
  rw [countP_map]
  exact countP_eq_zero.mpr fun held _ => by simp [h]

@[simp] theorem tried_begun : (w.begun place t).tried = w.tried ++ [place] := by
  rw [tried, events_begun, filterMap_append]
  have hskips := filterMap_skips (Event.triedPlace : Event α ρ ε → Option ℕ) (fun _ _ => rfl)
    w.unrecordedSkips
  cases t.admitted <;> cases t.sent <;> cases w.unabsorbed <;>
    simp [filterMap_cons, hskips, Event.triedPlace, tried]

@[simp] theorem absorbed_begun :
    (w.begun place t).absorbed = w.absorbed ++ if t.sent then w.unabsorbed.toList else [] := by
  rw [absorbed, events_begun, filterMap_append]
  have hskips := filterMap_skips (Event.absorption : Event α ρ ε → Option (Placed α × ε))
    (fun _ _ => rfl) w.unrecordedSkips
  cases t.admitted <;> cases t.sent <;> cases w.unabsorbed <;>
    simp [filterMap_cons, hskips, Event.absorption, absorbed]

@[simp] theorem skipped_begun :
    (w.begun place t).skipped = w.skipped ++ if t.sent then w.unrecordedSkips else [] := by
  rw [skipped, events_begun, filterMap_append]
  have hskips : (w.unrecordedSkips.map fun held => Event.skipped held.1 held.2).filterMap
      (Event.skipping : Event α ρ ε → _) = w.unrecordedSkips := by
    rw [filterMap_map]
    exact filterMap_some
  cases t.admitted <;> cases t.sent <;> cases w.unabsorbed <;>
    simp [filterMap_cons, hskips, Event.skipping, skipped]

@[simp] theorem terminals_begun : (w.begun place t).terminals = w.terminals := by
  rw [terminals, events_begun, filterMap_append]
  have hskips := filterMap_skips (Event.naming : Event α ρ ε → Option (Placed α)) (fun _ _ => rfl)
    w.unrecordedSkips
  cases t.admitted <;> cases t.sent <;> cases w.unabsorbed <;>
    simp [filterMap_cons, hskips, Event.naming, terminals]

@[simp] theorem drops_begun (other : ℕ) : (w.begun place t).drops other = w.drops other := by
  rw [drops, events_begun, countP_append]
  have hskips := countP_skips (Event.dropsAt other : Event α ρ ε → Bool) (fun _ _ => rfl)
    w.unrecordedSkips
  cases t.admitted <;> cases t.sent <;> cases w.unabsorbed <;>
    simp [countP_append, hskips, Event.dropsAt, drops]

@[simp] theorem unabsorbed_begun :
    (w.begun place t).unabsorbed = if t.sent then none else w.unabsorbed := by
  unfold begun flush report
  cases t.sent <;> rfl

@[simp] theorem unrecordedSkips_begun :
    (w.begun place t).unrecordedSkips = if t.sent then [] else w.unrecordedSkips := by
  unfold begun flush report
  cases t.sent <;> rfl

@[simp] theorem failures_begun : (w.begun place t).failures = w.failures := by
  unfold begun flush report
  cases t.sent <;> rfl

@[simp] theorem refusals_begun : (w.begun place t).refusals = w.refusals := by
  unfold begun flush report
  cases t.sent <;> rfl

/-! ### Its handlers -/

section
variable (refusal : ρ) (error : ε) (sent : Bool) (attempt : Placed α)

@[simp] theorem tried_drop : (w.drop place t sent).tried = w.tried := by
  unfold drop report tried
  cases t.admitted <;> simp [Event.triedPlace]

@[simp] theorem absorbed_drop : (w.drop place t sent).absorbed = w.absorbed := by
  unfold drop report absorbed
  cases t.admitted <;> simp [Event.absorption]

@[simp] theorem skipped_drop : (w.drop place t sent).skipped = w.skipped := by
  unfold drop report skipped
  cases t.admitted <;> simp [Event.skipping]

@[simp] theorem terminals_drop : (w.drop place t sent).terminals = w.terminals := by
  unfold drop report terminals
  cases t.admitted <;> simp [Event.naming]

theorem drops_drop (other : ℕ) : (w.drop place t sent).drops other =
      w.drops other + if t.admitted && place = other then 1 else 0 := by
  unfold drop report drops
  cases t.admitted <;> simp [Event.dropsAt, countP_append, countP_cons]

@[simp] theorem tried_terminal : (w.report [.terminal attempt]).tried = w.tried := by
  simp [report, tried, Event.triedPlace]

@[simp] theorem absorbed_terminal : (w.report [.terminal attempt]).absorbed = w.absorbed := by
  simp [report, absorbed, Event.absorption]

@[simp] theorem skipped_terminal : (w.report [.terminal attempt]).skipped = w.skipped := by
  simp [report, skipped, Event.skipping]

@[simp] theorem terminals_terminal :
    (w.report [.terminal attempt]).terminals = w.terminals ++ [attempt] := by
  simp [report, terminals, Event.naming]

@[simp] theorem drops_terminal (other : ℕ) :
    (w.report [.terminal attempt]).drops other = w.drops other := by
  simp [report, drops, Event.dropsAt, countP_append]

theorem report_append (events events' : List (Event α ρ ε)) :
    w.report (events ++ events') = (w.report events).report events' := by
  simp [report]

section
variable (skips : List (Placed α × ρ))

theorem tried_skips :
    (w.report (skips.map fun held => Event.skipped held.1 held.2)).tried = w.tried := by
  rw [tried, report, filterMap_append, filterMap_skips _ (fun _ _ => rfl), append_nil]
  rfl

theorem terminals_skips :
    (w.report (skips.map fun held => Event.skipped held.1 held.2)).terminals = w.terminals := by
  rw [terminals, report, filterMap_append, filterMap_skips _ (fun _ _ => rfl), append_nil]
  rfl

theorem drops_skips (other : ℕ) :
    (w.report (skips.map fun held => Event.skipped held.1 held.2)).drops other = w.drops other := by
  rw [drops, report, countP_append, countP_skips _ (fun _ _ => rfl), Nat.add_zero]
  rfl

end

@[simp] theorem tried_skip : (w.skip place t refusal).tried = w.tried :=
  tried_drop ..

@[simp] theorem absorbed_skip : (w.skip place t refusal).absorbed = w.absorbed :=
  absorbed_drop ..

@[simp] theorem skipped_skip : (w.skip place t refusal).skipped = w.skipped :=
  skipped_drop ..

@[simp] theorem terminals_skip : (w.skip place t refusal).terminals = w.terminals :=
  terminals_drop ..

theorem drops_skip (other : ℕ) : (w.skip place t refusal).drops other =
    w.drops other + if t.admitted && place = other then 1 else 0 :=
  drops_drop ..

@[simp] theorem unabsorbed_skip : (w.skip place t refusal).unabsorbed = w.unabsorbed := rfl

@[simp] theorem unrecordedSkips_skip : (w.skip place t refusal).unrecordedSkips =
    w.unrecordedSkips ++ [((place, t.attempt), refusal)] := rfl

@[simp] theorem failures_skip : (w.skip place t refusal).failures = w.failures := rfl

@[simp] theorem refusals_skip : (w.skip place t refusal).refusals =
    w.refusals ++ [((place, t.attempt), refusal)] := rfl

@[simp] theorem tried_fail : (w.fail place t error).tried = w.tried :=
  tried_drop ..

@[simp] theorem absorbed_fail : (w.fail place t error).absorbed = w.absorbed :=
  absorbed_drop ..

@[simp] theorem skipped_fail : (w.fail place t error).skipped = w.skipped :=
  skipped_drop ..

@[simp] theorem terminals_fail : (w.fail place t error).terminals = w.terminals :=
  terminals_drop ..

theorem drops_fail (other : ℕ) : (w.fail place t error).drops other =
    w.drops other + if t.admitted && place = other then 1 else 0 :=
  drops_drop ..

@[simp] theorem unabsorbed_fail :
    (w.fail place t error).unabsorbed = some ((place, t.attempt), error) := rfl

@[simp] theorem unrecordedSkips_fail :
    (w.fail place t error).unrecordedSkips = w.unrecordedSkips := rfl

@[simp] theorem failures_fail : (w.fail place t error).failures =
    w.failures ++ [((place, t.attempt), error)] := rfl

@[simp] theorem refusals_fail : (w.fail place t error).refusals = w.refusals := rfl

end
end Walk

/-! ### Passed candidates -/

/-- The refusal of a candidate that could not serve. -/
def Candidate.refusal (c : Candidate α ρ ε θ) : Option ρ :=
  match c.run.outcome with
  | .error (.cannotServe refusal) => some refusal
  | _ => none

/-- The failure of a candidate's provider, where another may be tried. -/
def Candidate.providerFailure (retryable : ε → Bool) (c : Candidate α ρ ε θ) : Option ε :=
  match c.run.outcome with
  | .error (.failure error) => if c.run.lockedIn || !retryable error then none else some error
  | _ => none

def Candidate.passes (retryable : ε → Bool) (c : Candidate α ρ ε θ) : Bool :=
  c.refusal.isSome || (c.providerFailure retryable).isSome

variable {retryable : ε → Bool}

variable {c : Candidate α ρ ε θ}

theorem Candidate.passes_cases (h : c.passes retryable = true) :
    (∃ refusal, c.run.outcome = .error (.cannotServe refusal) ∧ c.refusal = some refusal ∧
      c.providerFailure retryable = none) ∨ (∃ error, c.run.outcome = .error (.failure error) ∧
      (c.run.lockedIn || !retryable error) = false ∧ c.refusal = none ∧
      c.providerFailure retryable = some error) := by
  rcases houtcome : c.run.outcome with (refusal | _ | _ | _ | _ | error) | result
  case error.failure =>
    by_cases hstop : (c.run.lockedIn || !retryable error) = true
    · simp [passes, refusal, providerFailure, houtcome, hstop] at h
    · exact .inr ⟨error, rfl, by simpa using hstop, by simp [refusal, houtcome],
        by simp [providerFailure, houtcome, hstop]⟩
  case error.cannotServe =>
    exact .inl ⟨refusal, rfl, by simp [Candidate.refusal, houtcome],
      by simp [providerFailure, houtcome]⟩
  all_goals simp [passes, refusal, providerFailure, houtcome] at h

def Walk.passed (retryable : ε → Bool) (place : ℕ) (c : Candidate α ρ ε θ) (w : Walk α ρ ε) :
    Walk α ρ ε :=
  match c.refusal, c.providerFailure retryable with
  | some refusal, _ => (w.begun place c.run).skip place c.run refusal
  | none, some error => (w.begun place c.run).fail place c.run error
  | none, none => w

/-- The walk past candidates that are all passed. -/
def passAll (retryable : ε → Bool) :
    ℕ → List (Candidate α ρ ε θ) → Walk α ρ ε → Walk α ρ ε
  | _, [], w => w
  | place, c :: rest, w => passAll retryable (place + 1) rest (w.passed retryable place c)

/-- Candidates that are all passed, by why each is. -/
inductive AllPassed (retryable : ε → Bool) : List (Candidate α ρ ε θ) → Prop where
  | nil : AllPassed retryable []
  | skip {c : Candidate α ρ ε θ} {rest : List (Candidate α ρ ε θ)} {refusal : ρ}
      (houtcome : c.run.outcome = .error (.cannotServe refusal)) (hr : c.refusal = some refusal)
      (hf : c.providerFailure retryable = none) (hrest : AllPassed retryable rest) :
      AllPassed retryable (c :: rest)
  | fail {c : Candidate α ρ ε θ} {rest : List (Candidate α ρ ε θ)} {error : ε}
      (houtcome : c.run.outcome = .error (.failure error))
      (hgoes : (c.run.lockedIn || !retryable error) = false) (hr : c.refusal = none)
      (hf : c.providerFailure retryable = some error) (hrest : AllPassed retryable rest) :
      AllPassed retryable (c :: rest)

variable {before : List (Candidate α ρ ε θ)}

theorem allPassed_of
    (h : ∀ c ∈ before, c.passes retryable = true) : AllPassed retryable before := by
  induction before with
  | nil => exact .nil
  | cons c before ih =>
    have hrest := ih fun c hc => h c (mem_cons_of_mem _ hc)
    rcases Candidate.passes_cases (h c mem_cons_self) with
      ⟨refusal, houtcome, hr, hf⟩ | ⟨error, houtcome, hgoes, hr, hf⟩
    · exact .skip houtcome hr hf hrest
    · exact .fail houtcome hgoes hr hf hrest

theorem walkFrom_append [LinearOrder ω] {retryAfter : ρ → ω} {last : Placed α}
    (h : AllPassed retryable before)
    (rest : List (Candidate α ρ ε θ)) (place : ℕ) (w : Walk α ρ ε) :
    walkFrom retryable retryAfter last place (before ++ rest) w =
      walkFrom retryable retryAfter last (place + before.length) rest
        (passAll retryable place before w) := by
  induction h generalizing place w with
  | nil => rfl
  | @skip c before refusal houtcome hr hf _ ih =>
    rw [length_cons, Nat.add_comm before.length 1, ← Nat.add_assoc, passAll, ← ih,
      cons_append, walkFrom]
    simp only [houtcome, Walk.passed, hr]
  | @fail c before error houtcome hgoes hr hf _ ih =>
    rw [length_cons, Nat.add_comm before.length 1, ← Nat.add_assoc, passAll, ← ih,
      cons_append, walkFrom]
    simp only [houtcome, Walk.passed, hr, hf, hgoes, Bool.false_eq_true, if_false]

/-- What candidates from a place on report, each at its place. -/
def reportsOf {β : Type} (f : Candidate α ρ ε θ → Option β) :
    ℕ → List (Candidate α ρ ε θ) → List (Placed α × β)
  | _, [] => []
  | place, c :: rest =>
    ((f c).map fun b => ((place, c.run.attempt), b)).toList ++ reportsOf f (place + 1) rest

theorem mem_reportsOf {β : Type} {f : Candidate α ρ ε θ → Option β} {place : ℕ}
    {cs : List (Candidate α ρ ε θ)} {attempt : Placed α} {b : β}
    (h : (attempt, b) ∈ reportsOf f place cs) :
    ∃ k c, cs[k]? = some c ∧ f c = some b ∧ attempt = (place + k, c.run.attempt) := by
  induction cs generalizing place with
  | nil => cases h
  | cons c cs ih =>
    rcases mem_append.mp h with h | h
    · obtain ⟨b', hb, heq⟩ := Option.map_eq_some_iff.mp (Option.mem_toList.mp h)
      cases heq
      exact ⟨0, c, rfl, hb, rfl⟩
    · obtain ⟨k, d, hd, hb, rfl⟩ := ih h
      exact ⟨k + 1, d, hd, hb, by rw [Nat.add_assoc, Nat.add_comm 1 k]⟩

section
variable (place : ℕ) {before : List (Candidate α ρ ε θ)} (h : AllPassed retryable before)
  (w : Walk α ρ ε)
include h

theorem tried_passAll :
    (passAll retryable place before w).tried = w.tried ++ List.range' place before.length := by
  induction h generalizing place w with
  | nil => simp [passAll]
  | skip _ hr _ _ ih =>
    simp only [passAll, Walk.passed, hr, ih, Walk.tried_skip, Walk.tried_begun,
      length_cons, List.range'_succ, append_assoc, singleton_append]
  | fail _ _ hr hf _ ih =>
    simp only [passAll, Walk.passed, hr, hf, ih, Walk.tried_fail, Walk.tried_begun,
      length_cons, List.range'_succ, append_assoc, singleton_append]

theorem terminals_passAll : (passAll retryable place before w).terminals = w.terminals := by
  induction h generalizing place w with
  | nil => rfl
  | skip _ hr _ _ ih =>
    simp only [passAll, Walk.passed, hr, ih, Walk.terminals_skip, Walk.terminals_begun]
  | fail _ _ hr hf _ ih =>
    simp only [passAll, Walk.passed, hr, hf, ih, Walk.terminals_fail, Walk.terminals_begun]

theorem failures_passAll : (passAll retryable place before w).failures =
    w.failures ++ reportsOf (Candidate.providerFailure retryable) place before := by
  induction h generalizing place w with
  | nil => simp [passAll, reportsOf]
  | skip _ hr hf _ ih => simp [passAll, Walk.passed, hr, hf, ih, reportsOf]
  | fail _ _ hr hf _ ih => simp [passAll, Walk.passed, hr, hf, ih, reportsOf]

theorem refusals_passAll : (passAll retryable place before w).refusals =
    w.refusals ++ reportsOf Candidate.refusal place before := by
  induction h generalizing place w with
  | nil => simp [passAll, reportsOf]
  | skip _ hr hf _ ih => simp [passAll, Walk.passed, hr, hf, ih, reportsOf]
  | fail _ _ hr hf _ ih => simp [passAll, Walk.passed, hr, hf, ih, reportsOf]

theorem skipped_passAll : (passAll retryable place before w).skipped ++
        (passAll retryable place before w).unrecordedSkips =
      w.skipped ++ w.unrecordedSkips ++ reportsOf Candidate.refusal place before := by
  induction h generalizing place w with
  | nil => simp [passAll, reportsOf]
  | @skip c _ _ _ hr hf _ ih =>
    cases hsent : c.run.sent <;> simp [passAll, Walk.passed, hr, ih, reportsOf, hsent]
  | @fail c _ _ _ _ hr hf _ ih =>
    cases hsent : c.run.sent <;> simp [passAll, Walk.passed, hr, hf, ih, reportsOf, hsent]

theorem drops_passAll_of_lt {other : ℕ} (hlt : other < place) :
    (passAll retryable place before w).drops other = w.drops other := by
  induction h generalizing place w with
  | nil => rfl
  | skip _ hr _ _ ih =>
    simp [passAll, Walk.passed, hr, ih (place + 1) _ (Nat.lt_succ_of_lt hlt), Walk.drops_skip,
      hlt.ne']
  | fail _ _ hr hf _ ih =>
    simp [passAll, Walk.passed, hr, hf, ih (place + 1) _ (Nat.lt_succ_of_lt hlt),
      Walk.drops_fail, hlt.ne']

theorem drops_passAll_of_ge {other : ℕ} (hge : place + before.length ≤ other) :
    (passAll retryable place before w).drops other = w.drops other := by
  induction h generalizing place w with
  | nil => rfl
  | skip _ hr _ _ ih =>
    rw [length_cons] at hge
    have hne : place ≠ other := by omega
    simp [passAll, Walk.passed, hr, ih (place + 1) _ (by omega), Walk.drops_skip, hne]
  | fail _ _ hr hf _ ih =>
    rw [length_cons] at hge
    have hne : place ≠ other := by omega
    simp [passAll, Walk.passed, hr, hf, ih (place + 1) _ (by omega), Walk.drops_fail, hne]

end

theorem drops_passAll (place : ℕ) (h : AllPassed retryable before) (w : Walk α ρ ε) {k : ℕ}
    (hk : before[k]? = some c) (hc : c.run.admitted = true) :
    (passAll retryable place before w).drops (place + k) = w.drops (place + k) + 1 := by
  induction h generalizing place w k with
  | nil => cases hk
  | skip _ hr _ hrest ih =>
    cases k with
    | zero =>
      obtain rfl := Option.some.inj hk
      refine (drops_passAll_of_lt _ hrest _ (Nat.lt_add_one place)).trans ?_
      simp [Walk.passed, hr, Walk.drops_skip, hc]
    | succ k =>
      have hplace : place + (k + 1) = place + 1 + k := by omega
      have hne : place ≠ place + 1 + k := by omega
      rw [passAll, hplace, ih (place + 1) _ hk]
      simp [Walk.passed, hr, Walk.drops_skip, hne]
  | fail _ _ hr hf hrest ih =>
    cases k with
    | zero =>
      obtain rfl := Option.some.inj hk
      refine (drops_passAll_of_lt _ hrest _ (Nat.lt_add_one place)).trans ?_
      simp [Walk.passed, hr, hf, Walk.drops_fail, hc]
    | succ k =>
      have hplace : place + (k + 1) = place + 1 + k := by omega
      have hne : place ≠ place + 1 + k := by omega
      rw [passAll, hplace, ih (place + 1) _ hk]
      simp [Walk.passed, hr, hf, Walk.drops_fail, hne]

/-! ### The failure held back -/

/-- A provider failure that is overwritten: none of the candidates after it is sent, and one of them
fails. -/
def Overtaken (retryable : ε → Bool) (before : List (Candidate α ρ ε θ)) : Prop :=
  ∃ xs c ys d zs, before = xs ++ c :: (ys ++ d :: zs) ∧ (c.providerFailure retryable).isSome ∧
    (d.providerFailure retryable).isSome ∧ d.run.sent = false ∧ ∀ e ∈ ys, e.run.sent = false

/-- The same, with a failure that may be held back already. -/
def OvertakenFrom (retryable : ε → Bool) (held : Bool) (before : List (Candidate α ρ ε θ)) : Prop :=
  (held = true ∧ ∃ ys d zs, before = ys ++ d :: zs ∧ (d.providerFailure retryable).isSome ∧
    d.run.sent = false ∧ ∀ e ∈ ys, e.run.sent = false) ∨ Overtaken retryable before

theorem overtakenFrom_cons {held : Bool} {rest : List (Candidate α ρ ε θ)} :
    OvertakenFrom retryable held (c :: rest) ↔
      (held = true ∧ c.run.sent = false ∧ (c.providerFailure retryable).isSome) ∨
        OvertakenFrom retryable
          ((held && !c.run.sent) || (c.providerFailure retryable).isSome) rest := by
  constructor
  · rintro (⟨hheld, ys, d, zs, heq, hd, hsent, hys⟩ | ⟨xs, a, ys, d, zs, heq, ha, hd, hsent, hys⟩)
    · rcases cons_eq_append_iff.mp heq with ⟨rfl, heq⟩ | ⟨ys', rfl, rfl⟩
      · cases heq
        exact .inl ⟨hheld, hsent, hd⟩
      · have hc : c.run.sent = false := hys c mem_cons_self
        exact .inr (.inl ⟨by simp [hheld, hc], ys', d, zs, rfl, hd, hsent,
          fun e he => hys e (mem_cons_of_mem _ he)⟩)
    · rcases cons_eq_append_iff.mp heq with ⟨rfl, heq⟩ | ⟨xs', rfl, rfl⟩
      · cases heq
        exact .inr (.inl ⟨by simp [ha], ys, d, zs, rfl, hd, hsent, hys⟩)
      · exact .inr (.inr ⟨xs', a, ys, d, zs, rfl, ha, hd, hsent, hys⟩)
  · rintro (⟨hheld, hsent, hc⟩ | ⟨hflag, ys, d, zs, rfl, hd, hsent, hys⟩ | hrest)
    · exact .inl ⟨hheld, [], c, rest, rfl, hc, hsent, by simp⟩
    · by_cases hc : (c.providerFailure retryable).isSome = true
      · exact .inr ⟨[], c, ys, d, zs, rfl, hc, hd, hsent, hys⟩
      · obtain ⟨hheld, hcsent⟩ : held = true ∧ c.run.sent = false := by simpa [hc] using hflag
        refine .inl ⟨hheld, c :: ys, d, zs, rfl, hd, hsent, fun e he => ?_⟩
        rcases mem_cons.mp he with rfl | he
        · exact hcsent
        · exact hys e he
    · obtain ⟨xs, a, ys, d, zs, rfl, ha, hd, hsent, hys⟩ := hrest
      exact .inr ⟨c :: xs, a, ys, d, zs, rfl, ha, hd, hsent, hys⟩

theorem not_overtakenFrom_nil {held : Bool} :
    ¬ OvertakenFrom retryable held ([] : List (Candidate α ρ ε θ)) := by
  rintro (⟨-, ys, d, zs, heq, -⟩ | ⟨xs, a, ys, d, zs, heq, -⟩)
  · exact cons_ne_nil _ _ (append_eq_nil_iff.mp heq.symm).2
  · exact cons_ne_nil _ _ (append_eq_nil_iff.mp heq.symm).2

/-- The failures reported and the one held back. -/
def Walk.accounted (w : Walk α ρ ε) : List (Placed α × ε) :=
  w.absorbed ++ w.unabsorbed.toList

/-- Every failure is reported or held back where none is overtaken, and where one is, fewer are than
there were. -/
theorem accounted_passAll (place : ℕ) (h : AllPassed retryable before) (w : Walk α ρ ε) :
    (¬ OvertakenFrom retryable w.unabsorbed.isSome before →
      (passAll retryable place before w).accounted =
        w.accounted ++ reportsOf (Candidate.providerFailure retryable) place before) ∧
    (OvertakenFrom retryable w.unabsorbed.isSome before →
      (passAll retryable place before w).accounted.length <
        (w.accounted ++ reportsOf (Candidate.providerFailure retryable) place before).length) := by
  induction h generalizing place w with
  | nil => exact ⟨fun _ => (append_nil _).symm, fun ho => absurd ho not_overtakenFrom_nil⟩
  | @skip c rest refusal _ hr hf _ ih =>
    have hstep : passAll retryable place (c :: rest) w = passAll retryable (place + 1) rest
        ((w.begun place c.run).skip place c.run refusal) := by
      simp only [passAll, Walk.passed, hr, hf]
    replace ih := ih (place + 1) ((w.begun place c.run).skip place c.run refusal)
    have hsame : ((w.begun place c.run).skip place c.run refusal).accounted = w.accounted := by
      cases hsent : c.run.sent <;> simp [Walk.accounted, hsent]
    have hheld : ((w.begun place c.run).skip place c.run refusal).unabsorbed.isSome =
        (w.unabsorbed.isSome && !c.run.sent) := by
      cases hsent : c.run.sent <;> simp [hsent]
    rw [hsame, hheld] at ih
    rw [hstep, overtakenFrom_cons, hf]
    simpa [reportsOf, hf] using ih
  | @fail c rest error _ _ hr hf _ ih =>
    have hstep : passAll retryable place (c :: rest) w = passAll retryable (place + 1) rest
        ((w.begun place c.run).fail place c.run error) := by
      simp only [passAll, Walk.passed, hr, hf]
    rw [hstep, overtakenFrom_cons, hf]
    replace ih := ih (place + 1) ((w.begun place c.run).fail place c.run error)
    rw [Walk.unabsorbed_fail] at ih
    by_cases hlost : w.unabsorbed.isSome = true ∧ c.run.sent = false
    · -- the failure held back is overwritten
      obtain ⟨held, hheld⟩ := Option.isSome_iff_exists.mp hlost.1
      have hfewer : ((w.begun place c.run).fail place c.run error).accounted.length =
          w.accounted.length := by
        simp [Walk.accounted, hlost.2, hheld]
      refine ⟨fun hnone => absurd (.inl ⟨hlost.1, hlost.2, rfl⟩) hnone, fun _ => ?_⟩
      by_cases hrest : OvertakenFrom retryable true rest
      · have := ih.2 hrest
        simp only [length_append, reportsOf, hf, Option.map_some, Option.toList_some,
          length_singleton, hfewer] at this ⊢
        omega
      · have := congrArg List.length (ih.1 hrest)
        simp only [length_append, reportsOf, hf, Option.map_some, Option.toList_some,
          length_singleton, hfewer] at this ⊢
        omega
    · have hkept : ((w.begun place c.run).fail place c.run error).accounted =
          w.accounted ++ [((place, c.run.attempt), error)] := by
        cases hsent : c.run.sent with
        | true => simp [Walk.accounted, hsent]
        | false =>
          have hnone : w.unabsorbed = none := by simpa [hsent] using hlost
          simp [Walk.accounted, hsent, hnone]
      have hflag : ¬ (w.unabsorbed.isSome = true ∧ c.run.sent = false ∧
          (some error).isSome = true) := fun hall => hlost ⟨hall.1, hall.2.1⟩
      rw [hkept] at ih
      rw [or_iff_right hflag]
      simpa [reportsOf, hf] using ih

end Otari.Attempts
