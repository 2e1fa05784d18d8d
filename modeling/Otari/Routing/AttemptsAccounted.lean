import Otari.Routing.AttemptsPassed

/-!
# Routing — AttemptsAccounted — the walk accounts for every candidate

A walk is its passed candidates and then the candidate that serves or stops it, or the end of the
plan (`walkAttempts_cases`).  Where it serves, what was held back has been reported; so it accounts
for every candidate exactly when no failure was overwritten and what stopped it kept no admission
(`walk_accounts_iff`).
-/

namespace Otari.Attempts
open List
variable {α ρ ε θ ω : Type} {retryable : ε → Bool}

/-! ### Where the walk ends -/

/-- The candidates passed before the walk ends. -/
def passedOf (retryable : ε → Bool) (plan : List (Candidate α ρ ε θ)) : List (Candidate α ρ ε θ) :=
  plan.takeWhile (Candidate.passes retryable)

/-- The candidate that serves or stops the walk. -/
def stopper (retryable : ε → Bool) (plan : List (Candidate α ρ ε θ)) :
    Option (Candidate α ρ ε θ) :=
  (plan.dropWhile (Candidate.passes retryable)).head?

/-- What the candidate that stops the walk makes of it. -/
inductive Stops (retryable : ε → Bool) (place : ℕ) (c : Candidate α ρ ε θ) (w : Walk α ρ ε) :
    Walk α ρ ε × End α ρ ε θ → Prop where
  | served {result : θ} (h : c.run.outcome = .ok result) :
      Stops retryable place c w (w, .served (place, c.run.attempt) result)
  | refused {refusal : ρ} (h : c.run.outcome = .error (.http refusal)) :
      Stops retryable place c w
        ((if c.run.lockedIn then w else w.drop place c.run false).report
          [.terminal (place, c.run.attempt)], .refused refusal)
  | toolIterations (h : c.run.outcome = .error .toolIterations) :
      Stops retryable place c w
        (w.report [.terminal (place, c.run.attempt)], .toolIterations)
  | unreachable (h : c.run.outcome = .error .unreachable) :
      Stops retryable place c w (w, .unreachable)
  | cancelled (h : c.run.outcome = .error .cancelled) :
      Stops retryable place c w (w, .cancelled)
  | failed {error : ε} (h : c.run.outcome = .error (.failure error)) :
      Stops retryable place c w
        (w.report [.terminal (place, c.run.attempt)], .failed error)

section
variable [LinearOrder ω] {retryAfter : ρ → ω} {last : Placed α}

theorem walkFrom_stops {c : Candidate α ρ ε θ} (h : c.passes retryable = false)
    (rest : List (Candidate α ρ ε θ)) (place : ℕ) (w : Walk α ρ ε) :
    Stops retryable place c (w.begun place c.run)
      (walkFrom retryable retryAfter last place (c :: rest) w) := by
  rw [walkFrom]
  rcases houtcome : c.run.outcome with (refusal | refusal | _ | _ | _ | error) | result
  case ok => exact .served houtcome
  case error.cannotServe => simp [Candidate.passes, Candidate.refusal, houtcome] at h
  case error.http => exact .refused houtcome
  case error.toolIterations => exact .toolIterations houtcome
  case error.unreachable => exact .unreachable houtcome
  case error.cancelled => exact .cancelled houtcome
  case error.failure =>
    have hstop : (c.run.lockedIn || !retryable error) = true := by
      by_contra hgoes
      simp [Candidate.passes, Candidate.refusal, Candidate.providerFailure, houtcome, hgoes] at h
    simp only [hstop, if_true]
    exact .failed houtcome

theorem allPassed_passedOf (plan : List (Candidate α ρ ε θ)) :
    AllPassed retryable (passedOf retryable plan) :=
  allPassed_of fun _ hc => mem_takeWhile_imp hc

theorem walkAttempts_cases (retryable : ε → Bool) (retryAfter : ρ → ω)
    (plan : List (Candidate α ρ ε θ)) :
    (plan = [] ∧ walkAttempts retryable retryAfter plan = ({}, .emptyPlan)) ∨
    (plan ≠ [] ∧ passedOf retryable plan = plan ∧ stopper retryable plan = none ∧
      ∃ last, walkAttempts retryable retryAfter plan =
        (passAll retryable 0 plan {}).exhausted retryAfter last) ∨
    ∃ c rest, plan = passedOf retryable plan ++ c :: rest ∧ stopper retryable plan = some c ∧
      Stops retryable (passedOf retryable plan).length c
        ((passAll retryable 0 (passedOf retryable plan) {}).begun
          (passedOf retryable plan).length c.run) (walkAttempts retryable retryAfter plan) := by
  have hsplit : passedOf retryable plan ++ plan.dropWhile (Candidate.passes retryable) = plan :=
    takeWhile_append_dropWhile
  cases hlast : plan.getLast? with
  | none =>
    obtain rfl := List.getLast?_eq_none_iff.mp hlast
    exact .inl ⟨rfl, rfl⟩
  | some final =>
    have hne : plan ≠ [] := by
      rintro rfl
      cases hlast
    have hrun : walkAttempts retryable retryAfter plan = walkFrom retryable retryAfter
        (plan.length - 1, final.planned) 0 plan {} := by
      rw [walkAttempts, hlast]
    refine .inr ?_
    cases hdrop : plan.dropWhile (Candidate.passes retryable) with
    | nil =>
      rw [hdrop, append_nil] at hsplit
      refine .inl ⟨hne, hsplit, by rw [stopper, hdrop]; rfl,
        (plan.length - 1, final.planned), hrun.trans ?_⟩
      have hwalk : walkFrom retryable retryAfter (plan.length - 1, final.planned) 0
          (plan ++ []) {} = _ := walkFrom_append (hsplit ▸ allPassed_passedOf plan) [] 0 {}
      rw [append_nil] at hwalk
      exact hwalk
    | cons c rest =>
      have hstops : c.passes retryable = false := by
        have hhead := head_dropWhile_not (Candidate.passes retryable)
          (by rw [hdrop]; exact cons_ne_nil c rest)
        simpa [hdrop] using hhead
      rw [hdrop] at hsplit
      refine .inr ⟨c, rest, hsplit.symm, by rw [stopper, hdrop]; rfl, ?_⟩
      have hwalk : walkFrom retryable retryAfter (plan.length - 1, final.planned) 0
          (passedOf retryable plan ++ c :: rest) {} = _ :=
        walkFrom_append (allPassed_passedOf plan) (c :: rest) 0 {}
      rw [hsplit, Nat.zero_add] at hwalk
      rw [hrun, hwalk]
      exact walkFrom_stops hstops ..

end

section
variable [LinearOrder ω] {retryAfter : ρ → ω} {plan : List (Candidate α ρ ε θ)}

/-- A walk past the end of its plan. -/
inductive Exhausts (w : Walk α ρ ε) : Walk α ρ ε × End α ρ ε θ → Prop where
  | refused {attempt : Placed α} {refusal : ρ} (hnone : w.failures = [])
      (hmem : (attempt, refusal) ∈ w.refusals) :
      Exhausts w (w.report [.terminal attempt], .refused refusal)
  | nothing (hnone : w.failures = []) (hrefusals : w.refusals = []) (run : Walk α ρ ε × End α ρ ε θ) :
      Exhausts w run
  | failed {attempt : Placed α} {error : ε} (hlast : w.failures.getLast? = some (attempt, error)) :
      Exhausts w
        (w.report ((w.unrecordedSkips.map fun held => Event.skipped held.1 held.2) ++
          [.terminal attempt]), .exhausted w.failures)

theorem exhausts (retryAfter : ρ → ω) (last : Placed α) (w : Walk α ρ ε) :
    Exhausts w (w.exhausted retryAfter last : Walk α ρ ε × End α ρ ε θ) := by
  unfold Walk.exhausted
  cases hlast : w.failures.getLast? with
  | some entry => exact .failed hlast
  | none =>
    have hnone := List.getLast?_eq_none_iff.mp hlast
    cases hsoonest : soonestRefusal retryAfter w.refusals with
    | some entry =>
      exact .refused hnone (mem_reverse.mp (Select.firstMax_mem hsoonest))
    | none =>
      have hnil := Select.firstMax_eq_none.mp hsoonest
      exact .nothing hnone (reverse_eq_nil_iff.mp hnil) _

end

/-! ### Accounting -/

def attempted (retryable : ε → Bool) (plan : List (Candidate α ρ ε θ)) :
    List (Candidate α ρ ε θ) :=
  passedOf retryable plan ++ (stopper retryable plan).toList

/-- The walk accounts for every candidate: they are tried in plan order until one serves or stops
it; when one serves, every earlier failure was absorbed once and every earlier skip recorded once,
in plan order; every admission of another that did not lock in was dropped once; and a refusal or an
exhaustion is reported once, of the candidate it is of. -/
structure Accounts (retryable : ε → Bool) (plan : List (Candidate α ρ ε θ))
    (run : Walk α ρ ε × End α ρ ε θ) : Prop where
  tried : run.1.tried = List.range (attempted retryable plan).length
  serves : ∀ attempt result, run.2 = .served attempt result ↔ ∃ c,
    stopper retryable plan = some c ∧ c.run.outcome = .ok result ∧
      attempt = ((passedOf retryable plan).length, c.run.attempt)
  absorbed : ∀ attempt result, run.2 = .served attempt result → run.1.absorbed =
    reportsOf (Candidate.providerFailure retryable) 0 (passedOf retryable plan)
  skipped : ∀ attempt result, run.2 = .served attempt result →
    run.1.skipped = reportsOf Candidate.refusal 0 (passedOf retryable plan)
  dropped : ∀ place c, (attempted retryable plan)[place]? = some c → c.run.admitted = true →
    c.run.lockedIn = false → (∀ result, c.run.outcome ≠ .ok result) → run.1.drops place = 1
  refused : ∀ refusal, run.2 = .refused refusal → ∃ place c, plan[place]? = some c ∧
    (c.run.outcome = .error (.http refusal) ∨ c.run.outcome = .error (.cannotServe refusal)) ∧
    run.1.terminals = [(place, c.run.attempt)]
  capped : run.2 = .toolIterations → ∃ place c, plan[place]? = some c ∧
    c.run.outcome = .error .toolIterations ∧ run.1.terminals = [(place, c.run.attempt)]
  failed : ∀ error, run.2 = .failed error → ∃ place c, plan[place]? = some c ∧
    c.run.outcome = .error (.failure error) ∧ run.1.terminals = [(place, c.run.attempt)]
  exhausted : ∀ failures, run.2 = .exhausted failures →
    failures = reportsOf (Candidate.providerFailure retryable) 0 plan ∧
    ∃ last, failures.getLast? = some last ∧ run.1.terminals = [last.1]

/-- What a plan must meet: before the candidate that serves, none that fails before it is sent
overtakes a failure; and a candidate that stops the walk by anything but a refusal was not admitted,
or has locked in. -/
structure Countable (retryable : ε → Bool) (plan : List (Candidate α ρ ε θ)) : Prop where
  inTurn : ∀ c result, stopper retryable plan = some c → c.run.outcome = .ok result →
    ¬ Overtaken retryable (passedOf retryable plan)
  givesBack : ∀ c, stopper retryable plan = some c → c.run.admitted = true →
    c.run.lockedIn = false →
    (∃ result, c.run.outcome = .ok result) ∨ ∃ refusal, c.run.outcome = .error (.http refusal)

theorem Candidate.sent_of_ok {c : Candidate α ρ ε θ} {result : θ} (h : c.run.outcome = .ok result) :
    c.run.sent = true := by
  unfold Candidate.run at h ⊢
  split
  · rename_i hcredential
    rw [hcredential] at h
    cases h
  · rename_i hcredential
    rw [hcredential] at h
    dsimp only at h
    split
    · rename_i hkwargs
      rw [hkwargs] at h
      cases h
    · rename_i hkwargs
      rw [hkwargs] at h
      dsimp only at h
      split
      · rename_i hadmission
        rw [hadmission] at h
        cases h
      · rename_i hadmission
        rw [hadmission] at h
        dsimp only at h
        split
        · rename_i hpreparation
          rw [hpreparation] at h
          cases h
        · rfl

section
variable {place : ℕ} {c : Candidate α ρ ε θ} {w : Walk α ρ ε} {run : Walk α ρ ε × End α ρ ε θ}

theorem tried_stops (h : Stops retryable place c w run) : run.1.tried = w.tried := by
  cases h with
  | refused _ => cases c.run.lockedIn <;> simp
  | served _ | unreachable _ | cancelled _ => rfl
  | toolIterations _ | failed _ => simp

theorem drops_stops_of_ne (h : Stops retryable place c w run) {other : ℕ} (hne : place ≠ other) :
    run.1.drops other = w.drops other := by
  cases h with
  | refused _ => cases c.run.lockedIn <;> simp [Walk.drops_drop, hne]
  | served _ | unreachable _ | cancelled _ => rfl
  | toolIterations _ | failed _ => simp

theorem drops_of_refused (h : Stops retryable place c w run) {refusal : ρ}
    (hrefused : c.run.outcome = .error (.http refusal)) (hadmitted : c.run.admitted = true)
    (hlocked : c.run.lockedIn = false) : run.1.drops place = w.drops place + 1 := by
  cases h with
  | refused _ => simp [hlocked, Walk.drops_drop, hadmitted]
  | served h | toolIterations h | unreachable h | cancelled h | failed h =>
    rw [h] at hrefused
    cases hrefused

theorem drops_of_not_refused (h : Stops retryable place c w run)
    (hnot : ∀ refusal, c.run.outcome ≠ .error (.http refusal)) :
    run.1.drops place = w.drops place := by
  cases h with
  | refused h => exact absurd h (hnot _)
  | served _ | unreachable _ | cancelled _ => rfl
  | toolIterations _ | failed _ => simp

end

section
variable [LinearOrder ω] {retryAfter : ρ → ω} {plan : List (Candidate α ρ ε θ)}

/-- The walk where the candidate that stops it has been tried. -/
def atStop (retryable : ε → Bool) (plan : List (Candidate α ρ ε θ)) (c : Candidate α ρ ε θ) :
    Walk α ρ ε :=
  (passAll retryable 0 (passedOf retryable plan) {}).begun (passedOf retryable plan).length c.run

variable {c : Candidate α ρ ε θ} {rest : List (Candidate α ρ ε θ)}

theorem terminals_atStop : (atStop retryable plan c).terminals = [] := by
  rw [atStop, Walk.terminals_begun, terminals_passAll 0 (allPassed_passedOf plan)]
  rfl

theorem tried_atStop :
    (atStop retryable plan c).tried = List.range ((passedOf retryable plan).length + 1) := by
  rw [atStop, Walk.tried_begun, tried_passAll 0 (allPassed_passedOf plan), range_succ,
    range_eq_range']
  rfl

theorem absorbed_atStop (hsent : c.run.sent = true) : (atStop retryable plan c).absorbed =
        reportsOf (Candidate.providerFailure retryable) 0 (passedOf retryable plan) ↔
      ¬ Overtaken retryable (passedOf retryable plan) := by
  have hpassed : AllPassed retryable (passedOf retryable plan) := allPassed_passedOf plan
  obtain ⟨hkept, hlost⟩ := accounted_passAll 0 hpassed {}
  have hfrom : OvertakenFrom retryable (({} : Walk α ρ ε).unabsorbed.isSome)
      (passedOf retryable plan) ↔ Overtaken retryable (passedOf retryable plan) := by
    simp [OvertakenFrom]
  rw [hfrom] at hkept hlost
  have hall : (atStop retryable plan c).absorbed =
      (passAll retryable 0 (passedOf retryable plan) {}).accounted := by
    rw [atStop, Walk.absorbed_begun, hsent]
    rfl
  rw [hall]
  exact ⟨fun heq hover => (hlost hover).ne (congrArg List.length heq), hkept⟩

theorem skipped_atStop (hsent : c.run.sent = true) : (atStop retryable plan c).skipped =
      reportsOf Candidate.refusal 0 (passedOf retryable plan) := by
  rw [atStop, Walk.skipped_begun, hsent, if_pos rfl,
    skipped_passAll 0 (allPassed_passedOf plan)]
  rfl

theorem drops_atStop {place : ℕ} {d : Candidate α ρ ε θ}
    (hplace : (passedOf retryable plan)[place]? = some d) (hadmitted : d.run.admitted = true) :
    (atStop retryable plan c).drops place = 1 := by
  have hdrops := drops_passAll 0 (allPassed_passedOf plan) ({} : Walk α ρ ε) hplace hadmitted
  rw [Nat.zero_add] at hdrops
  rw [atStop, Walk.drops_begun, hdrops]
  rfl

theorem drops_atStop_length :
    (atStop retryable plan c).drops (passedOf retryable plan).length = 0 := by
  rw [atStop, Walk.drops_begun, drops_passAll_of_ge 0 (allPassed_passedOf plan) _ (by omega)]
  rfl

variable {run : Walk α ρ ε × End α ρ ε θ}

theorem accounts_of_stops (hplan : plan = passedOf retryable plan ++ c :: rest)
    (hstopper : stopper retryable plan = some c)
    (h : Stops retryable (passedOf retryable plan).length c (atStop retryable plan c) run)
    (hcount : Countable retryable plan) : Accounts retryable plan run := by
  have hattempted : attempted retryable plan = passedOf retryable plan ++ [c] := by
    rw [attempted, hstopper]
    rfl
  have hget : (passedOf retryable plan ++ c :: rest)[(passedOf retryable plan).length]? = some c := by
    simp
  rw [← hplan] at hget
  constructor
  case tried => rw [tried_stops h, tried_atStop, hattempted, length_append]; rfl
  case serves =>
    intro attempt result
    constructor
    · intro hrun
      cases h with
      | served houtcome =>
        cases hrun
        exact ⟨c, hstopper, houtcome, rfl⟩
      | refused _ | toolIterations _ | unreachable _ | cancelled _ | failed _ => cases hrun
    · rintro ⟨d, hd, houtcome, rfl⟩
      obtain rfl : c = d := Option.some.inj (hstopper.symm.trans hd)
      cases h with
      | served h =>
        rw [h] at houtcome
        cases houtcome
        rfl
      | refused h | toolIterations h | unreachable h | cancelled h | failed h =>
        rw [h] at houtcome
        cases houtcome
  case absorbed =>
    intro attempt result hrun
    cases h with
    | served houtcome =>
      exact (absorbed_atStop (Candidate.sent_of_ok houtcome)).mpr
        (hcount.inTurn c _ hstopper houtcome)
    | refused _ | toolIterations _ | unreachable _ | cancelled _ | failed _ => cases hrun
  case skipped =>
    intro attempt result hrun
    cases h with
    | served houtcome => exact skipped_atStop (Candidate.sent_of_ok houtcome)
    | refused _ | toolIterations _ | unreachable _ | cancelled _ | failed _ => cases hrun
  case dropped =>
    intro place d hd hadmitted hlocked hnot
    rw [hattempted] at hd
    -- those passed were dropped on the way, so only the one that stops the walk is left
    by_cases hlt : place < (passedOf retryable plan).length
    · rw [List.getElem?_append_left hlt] at hd
      rw [drops_stops_of_ne h hlt.ne', drops_atStop hd hadmitted]
    · rw [List.getElem?_append_right (Nat.le_of_not_lt hlt)] at hd
      rw [List.getElem?_singleton] at hd
      split at hd
      case isFalse => cases hd
      rename_i hzero
      obtain rfl : c = d := Option.some.inj hd
      obtain rfl : place = (passedOf retryable plan).length := by omega
      rcases hcount.givesBack c hstopper hadmitted hlocked with ⟨result, hok⟩ | ⟨refusal, hrefused⟩
      · exact absurd hok (hnot result)
      · rw [drops_of_refused h hrefused hadmitted hlocked, drops_atStop_length]
  case refused =>
    intro refusal hrun
    cases h with
    | refused houtcome =>
      cases hrun
      refine ⟨_, c, hget, .inl houtcome, ?_⟩
      cases c.run.lockedIn <;> simp [terminals_atStop]
    | served _ | toolIterations _ | unreachable _ | cancelled _ | failed _ => cases hrun
  case capped =>
    intro hrun
    cases h with
    | toolIterations houtcome =>
      exact ⟨_, c, hget, houtcome, by simp [terminals_atStop]⟩
    | served _ | refused _ | unreachable _ | cancelled _ | failed _ => cases hrun
  case failed =>
    intro error hrun
    cases h with
    | failed houtcome =>
      cases hrun
      exact ⟨_, c, hget, houtcome, by simp [terminals_atStop]⟩
    | served _ | refused _ | toolIterations _ | unreachable _ | cancelled _ => cases hrun
  case exhausted =>
    intro failures hrun
    cases h <;> cases hrun

theorem countable_of_accounts (hstopper : stopper retryable plan = some c)
    (h : Stops retryable (passedOf retryable plan).length c (atStop retryable plan c) run)
    (haccounts : Accounts retryable plan run) : Countable retryable plan where
  inTurn d result hd houtcome := by
    obtain rfl : c = d := Option.some.inj (hstopper.symm.trans hd)
    have hend := (haccounts.serves _ result).mpr ⟨c, hstopper, houtcome, rfl⟩
    have habsorbed := haccounts.absorbed _ _ hend
    cases h with
    | served _ => exact (absorbed_atStop (Candidate.sent_of_ok houtcome)).mp habsorbed
    | refused h | toolIterations h | unreachable h | cancelled h | failed h =>
      rw [h] at houtcome
      cases houtcome
  givesBack d hd hadmitted hlocked := by
    obtain rfl : c = d := Option.some.inj (hstopper.symm.trans hd)
    by_contra hneither
    obtain ⟨hnot, hrefused⟩ := not_or.mp hneither
    have hdropped := haccounts.dropped (passedOf retryable plan).length c
      (by rw [attempted, hstopper]; simp) hadmitted hlocked (not_exists.mp hnot)
    rw [drops_of_not_refused h (not_exists.mp hrefused), drops_atStop_length] at hdropped
    cases hdropped

theorem getElem?_of_reportsOf {β : Type} {f : Candidate α ρ ε θ → Option β}
    {attempt : Placed α} {b : β} (h : (attempt, b) ∈ reportsOf f 0 plan) :
    ∃ c, plan[attempt.1]? = some c ∧ f c = some b ∧ attempt.2 = c.run.attempt := by
  obtain ⟨k, c, hc, hb, rfl⟩ := mem_reportsOf h
  exact ⟨c, by rwa [Nat.zero_add], hb, rfl⟩

theorem outcome_of_refusal {c : Candidate α ρ ε θ} {refusal : ρ} (h : c.refusal = some refusal) :
    c.run.outcome = .error (.cannotServe refusal) := by
  unfold Candidate.refusal at h
  split at h
  · rename_i houtcome
    cases h
    exact houtcome
  · cases h

theorem accounts_of_exhausts (hne : plan ≠ []) (hplan : passedOf retryable plan = plan)
    (hstopper : stopper retryable plan = none) (h : Exhausts (passAll retryable 0 plan {}) run) :
    Accounts retryable plan run := by
  have hpassed : AllPassed retryable plan := hplan ▸ allPassed_passedOf plan
  have hattempted : attempted retryable plan = plan := by
    rw [attempted, hstopper, hplan]
    exact append_nil plan
  have htried : (passAll retryable 0 plan ({} : Walk α ρ ε)).tried = List.range plan.length := by
    rw [tried_passAll 0 hpassed, range_eq_range']
    rfl
  have hterminals : (passAll retryable 0 plan ({} : Walk α ρ ε)).terminals = [] :=
    terminals_passAll 0 hpassed {}
  have hfailures := failures_passAll 0 hpassed ({} : Walk α ρ ε)
  have hrefusals := refusals_passAll 0 hpassed ({} : Walk α ρ ε)
  rw [nil_append] at hfailures hrefusals
  have hdrops : ∀ {place d}, plan[place]? = some d → d.run.admitted = true →
      (passAll retryable 0 plan ({} : Walk α ρ ε)).drops place = 1 := by
    intro place d hd hadmitted
    have := drops_passAll 0 hpassed ({} : Walk α ρ ε) hd hadmitted
    rwa [Nat.zero_add] at this
  have hnoStop : ∀ c, stopper retryable plan ≠ some c := by simp [hstopper]
  cases h with
  | nothing hnone hnothing =>
    -- every candidate is passed for a failure or a refusal
    exfalso
    rw [hnone] at hfailures
    rw [hnothing] at hrefusals
    cases hpassed with
    | nil => exact hne rfl
    | skip _ hr _ _ => simp [reportsOf, hr] at hrefusals
    | fail _ _ _ hf _ => simp [reportsOf, hf] at hfailures
  | refused hnone hmem =>
    rw [hrefusals] at hmem
    obtain ⟨c, hc, hrefusal, hattempt⟩ := getElem?_of_reportsOf hmem
    constructor
    case tried => rw [Walk.tried_terminal, htried, hattempted]
    case dropped =>
      intro place d hd hadmitted _ _
      rw [hattempted] at hd
      rw [Walk.drops_terminal, hdrops hd hadmitted]
    case refused =>
      intro refusal hrun
      cases hrun
      refine ⟨_, c, hc, .inr (outcome_of_refusal hrefusal), ?_⟩
      rw [Walk.terminals_terminal, hterminals, ← hattempt]
      rfl
    all_goals simp [hnoStop]
  | failed hlast =>
    rw [Walk.report_append]
    constructor
    case tried => rw [Walk.tried_terminal, Walk.tried_skips, htried, hattempted]
    case dropped =>
      intro place d hd hadmitted _ _
      rw [hattempted] at hd
      rw [Walk.drops_terminal, Walk.drops_skips, hdrops hd hadmitted]
    case exhausted =>
      intro failures hrun
      cases hrun
      refine ⟨hfailures, _, hlast, ?_⟩
      rw [Walk.terminals_terminal, Walk.terminals_skips, hterminals]
      rfl
    all_goals simp [hnoStop]

theorem accounts_nil (run : Walk α ρ ε × End α ρ ε θ) (h : run = ({}, .emptyPlan)) :
    Accounts retryable [] run := by
  subst h
  constructor <;> simp [attempted, passedOf, stopper, Walk.tried]

/-- **The walk accounts for every candidate exactly when no failure is overtaken before the one that
serves, and what stops the walk holds no admission but one it locked in with.** -/
theorem walk_accounts_iff (retryable : ε → Bool) (retryAfter : ρ → ω)
    (plan : List (Candidate α ρ ε θ)) :
    Accounts retryable plan (walkAttempts retryable retryAfter plan) ↔
      Countable retryable plan := by
  rcases walkAttempts_cases retryable retryAfter plan with
    ⟨rfl, hrun⟩ | ⟨hne, hplan, hstopper, last, hrun⟩ | ⟨c, rest, hplan, hstopper, h⟩
  · exact ⟨fun _ => ⟨fun c _ hc => (by cases hc), fun c hc => (by cases hc)⟩,
      fun _ => accounts_nil _ hrun⟩
  · rw [hrun]
    exact ⟨fun _ => ⟨by simp [hstopper], by simp [hstopper]⟩,
      fun _ => accounts_of_exhausts hne hplan hstopper (exhausts retryAfter last _)⟩
  · exact ⟨countable_of_accounts hstopper h, accounts_of_stops hplan hstopper h⟩

end

/-- The first provider fails, the second has no credential, the third serves: the first failure is
never absorbed. -/
theorem first_failure_lost : ¬ ∀ plan : List (Candidate String ℕ String String),
      Accounts (fun _ => true) plan (walkAttempts (fun _ => true) (id : ℕ → ℕ) plan) := by
  intro h
  have habsorbed := (h [
    ⟨"openai", .ok "openai", .ok (), .ok false, .ok (), false, .error (.failure "503")⟩,
    ⟨"mistral", .ok "mistral", .error (.failure "missing_credential"), .ok false, .ok (), false,
      .ok ""⟩,
    ⟨"groq", .ok "groq", .ok (), .ok false, .ok (), false, .ok "hello"⟩]).absorbed (2, "groq")
    "hello" rfl
  exact absurd habsorbed (by decide)

end Otari.Attempts
