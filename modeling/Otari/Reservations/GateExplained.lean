import Otari.Reservations.Refusals

/-!
# Reservations — GateExplained — a refusal names an axis that refused

One axis at a time: a count is blocked exactly where its gate fails, and dollars are blocked
wherever theirs fails (`dollar_blocked_iff`).  The converse for dollars fails in one case,
`RoundedIn`: the amount is over the room left, and the column rounds it down into that room.  There the
explanation names the dollars, whose gate holds.  `explanation_agrees` says that everywhere else
the explanation and the gate agree, of a ceiling and of a user alike.
-/

namespace Otari.Reservations

/-! ### One axis -/

variable {newRequest : Bool}

theorem admits_holds {committed held : ℤ} {cap : Option ℤ} :
    (admits newRequest committed held cap).Holds ↔
      ∀ c ∈ cap, committed + held ≤ c ∧ (newRequest = true → committed < c) := by
  cases cap with
  | none => simp [admits]
  | some c => cases newRequest <;> simp [admits, and_comm]

theorem guardsFor_hold {axis : Axis} {committed held cap : ℤ} :
    Admitted (guardsFor newRequest axis committed held cap) ↔
      (admits newRequest committed held (some cap)).Holds := by
  rw [admits_holds]
  cases newRequest <;> simp [Admitted, guardsFor]

/-- **The test of one axis**: what is wanted passes the cap, or an arrival finds it reached. -/
theorem blockedOn_isSome {name : Axis} {committed cap wanted : ℚ} :
    (blockedOn name committed cap wanted newRequest).isSome ↔
      cap < committed + wanted ∨ newRequest = true ∧ cap ≤ committed := by
  simp only [blockedOn]
  split_ifs with h₁ h₂ h₃
  · simp [h₁]
  · simp [h₁]
  · simp [h₃]
  · simp [h₁, h₃]

theorem blockedOn_name {name : Axis} {committed cap wanted : ℚ}
    {b : BlockedAxis} (h : blockedOn name committed cap wanted newRequest = some b) :
    b.name = name := by
  simp only [blockedOn] at h
  split_ifs at h <;> cases h <;> rfl

/-- **A count is blocked exactly where its gate fails.** -/
theorem count_blocked_iff (name : Axis) {cap : Option ℤ} {committed held : ℤ} :
    ((AxisUse.mk name (cap.map (↑)) committed held).blocked newRequest).isSome ↔
      ¬ (admits newRequest committed held cap).Holds := by
  rw [admits_holds]
  cases cap with
  | none => simp [AxisUse.blocked]
  | some c =>
    have hsum : (c : ℚ) < committed + held ↔ c < committed + held := by exact_mod_cast Iff.rfl
    simp only [AxisUse.blocked, Option.map_some, Option.bind_some, blockedOn_isSome, hsum,
      Int.cast_le]
    simp only [Option.mem_some_iff, forall_eq', not_and_or, not_le]
    cases newRequest <;> simp

/-- The dollar axis as the explanations test it. -/
def dollarAxis (usage : Usage) (budget : Budget) (ask : Ask) : AxisUse :=
  ⟨.budget, if ask.amount.isSome then budget.maxBudget.map usd else none,
    usd usage.spend + usd usage.reserved, ask.amount.getD 0⟩

/-- The dollar gate, which holds of a request that is not asked about dollars. -/
def dollarsAdmitted (usage : Usage) (budget : Budget) (ask : Ask) : Prop :=
  ∀ amount ∈ ask.amount,
    (admits ask.newRequest (usage.spend + usage.reserved) (bindUsd amount) budget.maxBudget).Holds

/-- The dollar gate admits an amount that is over the room left, because the column rounds the
excess away. -/
def RoundedIn (usage : Usage) (budget : Budget) (ask : Ask) : Prop :=
  ∃ cap ∈ budget.maxBudget, ∃ amount ∈ ask.amount,
    (ask.newRequest = true → usage.spend + usage.reserved < cap) ∧
      usage.spend + usage.reserved + bindUsd amount ≤ cap ∧
      usd cap < usd usage.spend + usd usage.reserved + amount

variable {usage : Usage} {budget : Budget} {ask : Ask}

/-- **Dollars are blocked wherever their gate fails, and where an amount is rounded in.** -/
theorem dollar_blocked_iff (usage : Usage) (budget : Budget) (ask : Ask) :
    ((dollarAxis usage budget ask).blocked ask.newRequest).isSome ↔
      ¬ dollarsAdmitted usage budget ask ∨ RoundedIn usage budget ask := by
  rcases hamount : ask.amount with _ | amount
  · simp [dollarAxis, AxisUse.blocked, dollarsAdmitted, RoundedIn, hamount]
  rcases hcap : budget.maxBudget with _ | cap
  · simp [dollarAxis, AxisUse.blocked, dollarsAdmitted, RoundedIn, hamount, hcap, admits_holds]
  have hover : usage.spend + usage.reserved + bindUsd amount > cap →
      usd cap < usd usage.spend + usd usage.reserved + amount := by
    intro h
    have hroom := usd_lt_of_lt_bindUsd
      (show cap - (usage.spend + usage.reserved) < bindUsd amount by linarith)
    have hcap : usd (cap - (usage.spend + usage.reserved)) + usd (usage.spend + usage.reserved) =
        usd cap := by rw [← usd_add, sub_add_cancel]
    rw [usd_add] at hcap
    linarith
  have hreached : usd cap ≤ usd usage.spend + usd usage.reserved ↔
      cap ≤ usage.spend + usage.reserved := by rw [← usd_add, usd_le_usd]
  simp only [dollarAxis, AxisUse.blocked, dollarsAdmitted, RoundedIn, hamount, hcap, admits_holds,
    Option.isSome_some, if_true, Option.map_some, Option.bind_some, blockedOn_isSome,
    Option.getD_some, Option.mem_some_iff, forall_eq', exists_eq_left', hreached]
  constructor
  · rintro (h | ⟨hnew, h⟩)
    · by_cases hgate : usage.spend + usage.reserved + bindUsd amount ≤ cap ∧
        (ask.newRequest = true → usage.spend + usage.reserved < cap)
      · exact .inr ⟨hgate.2, hgate.1, h⟩
      · exact .inl hgate
    · exact .inl fun hgate => absurd (hgate.2 hnew) (not_lt.mpr h)
  · rintro (h | ⟨_, _, h⟩)
    · rw [not_and_or, not_le] at h
      rcases h with h | h
      · exact .inl (hover h)
      · push Not at h
        exact .inr h
    · exact .inl h

/-! ### The loop and the gate -/

/-- The gate refuses exactly where the explanation names an axis, and on the axis named its
condition fails. -/
def Agrees (gates : List (Axis × Truth)) (named : Option BlockedAxis) : Prop :=
  (¬ Admitted gates ↔ named.isSome) ∧
    ∀ b ∈ named, ¬ Admitted (gates.filter fun gate => gate.1 = b.name)

variable {axes : List AxisUse} {resetsAt : Option ℤ}

theorem firstBlocked_isSome : (firstBlocked axes newRequest resetsAt).isSome ↔
      ∃ axis ∈ axes, (axis.blocked newRequest).isSome := by
  simp [firstBlocked, List.findSome?_isSome_iff]

theorem firstBlocked_name {b : BlockedAxis} (h : firstBlocked axes newRequest resetsAt = some b) :
    ∃ axis ∈ axes, axis.name = b.name ∧ (axis.blocked newRequest).isSome := by
  obtain ⟨axis, hmem, haxis⟩ := List.exists_of_findSome?_eq_some h
  obtain ⟨b', hb', rfl⟩ := Option.map_eq_some_iff.mp haxis
  refine ⟨axis, hmem, ?_, by rw [hb']; rfl⟩
  obtain ⟨cap, _, hcap⟩ := Option.bind_eq_some_iff.mp hb'
  exact (blockedOn_name hcap).symm

def GateHolds (gates : List (Axis × Truth)) (name : Axis) : Prop :=
  Admitted (gates.filter fun gate => gate.1 = name)

variable {gates : List (Axis × Truth)}

theorem admitted_iff : Admitted gates ↔ ∀ name, GateHolds gates name := by
  constructor
  · intro h name gate hgate
    exact h gate (List.mem_of_mem_filter hgate)
  · intro h gate hgate
    exact h gate.1 gate (List.mem_filter.mpr ⟨hgate, decide_eq_true rfl⟩)

theorem agrees_of_axes (h : ∀ name, ¬ GateHolds gates name ↔
      ∃ axis ∈ axes, axis.name = name ∧ (axis.blocked newRequest).isSome) :
    Agrees gates (firstBlocked axes newRequest resetsAt) := by
  refine ⟨?_, fun b hb => ?_⟩
  · rw [admitted_iff, not_forall, firstBlocked_isSome]
    constructor
    · rintro ⟨name, hname⟩
      obtain ⟨axis, hmem, -, hblocked⟩ := (h name).mp hname
      exact ⟨axis, hmem, hblocked⟩
    · rintro ⟨axis, hmem, hblocked⟩
      exact ⟨axis.name, (h _).mpr ⟨axis, hmem, rfl, hblocked⟩⟩
  · exact (h _).mpr (firstBlocked_name hb)

/-! ### The gates of an axis -/

/-- What the gate of a hold asks on each axis. -/
def axisAdmitted (usage : Usage) (budget : Budget) (ask : Ask) : Axis → Prop
  | .budget => dollarsAdmitted usage budget ask
  | .token => (admits ask.newRequest (usage.tokens + usage.reservedTokens) ask.tokens
      budget.tokenLimit).Holds
  | .request => (admits ask.newRequest (usage.requests + usage.reservedRequests) ask.requests
      budget.requestLimit).Holds

theorem ceilingGates_hold (name : Axis) :
    GateHolds (ceilingGates usage budget ask) name ↔ axisAdmitted usage budget ask name := by
  rcases hamount : ask.amount with _ | amount <;> cases name <;>
    simp [GateHolds, Admitted, ceilingGates, axisAdmitted, dollarsAdmitted, hamount]

theorem filter_guardsFor {axis name : Axis} {committed held cap : ℤ} :
    (guardsFor newRequest axis committed held cap).filter (fun gate => gate.1 = name) =
      if axis = name then guardsFor newRequest axis committed held cap else [] := by
  cases newRequest <;> by_cases h : axis = name <;> simp [guardsFor, h]

theorem userGuards_hold (name : Axis) :
    GateHolds (userGuards usage budget ask) name ↔ axisAdmitted usage budget ask name := by
  have huncapped : ∀ newRequest committed held, (admits newRequest committed held none).Holds :=
    fun _ _ _ => admits_holds.mpr fun _ h => by cases h
  have hempty : Admitted [] := fun _ h => absurd h List.not_mem_nil
  simp only [GateHolds, userGuards, List.filter_append]
  rcases hamount : ask.amount with _ | amount <;>
    rcases hdollars : budget.maxBudget with _ | cap <;>
    rcases htokens : budget.tokenLimit with _ | tcap <;>
    rcases hrequests : budget.requestLimit with _ | rcap <;>
    cases name <;>
    simp [filter_guardsFor, guardsFor_hold, axisAdmitted, dollarsAdmitted, hamount, hdollars,
      htokens, hrequests, huncapped, hempty]

/-! ### Agreement -/

theorem ceilingAxes_eq : ceilingAxes usage budget ask = userAxes usage budget ask := by
  simp [ceilingAxes, userAxes]

theorem userAxes_blocked (name : Axis) (h : ¬ RoundedIn usage budget ask) :
    ¬ axisAdmitted usage budget ask name ↔ ∃ axis ∈ userAxes usage budget ask,
        axis.name = name ∧ (axis.blocked ask.newRequest).isSome := by
  cases name with
  | budget =>
    have hdollars := dollar_blocked_iff usage budget ask
    rw [or_iff_left h] at hdollars
    simpa [userAxes, dollarAxis, axisAdmitted] using hdollars.symm
  | token =>
    rw [axisAdmitted, ← count_blocked_iff .token]
    simp [userAxes]
  | request =>
    rw [axisAdmitted, ← count_blocked_iff .request]
    simp [userAxes]

theorem not_agrees_of_roundedIn
    (hgates : ∀ name, GateHolds gates name ↔ axisAdmitted usage budget ask name)
    (h : RoundedIn usage budget ask) :
    ¬ Agrees gates (firstBlocked (userAxes usage budget ask) ask.newRequest resetsAt) := by
  rintro ⟨-, hnamed⟩
  obtain ⟨b, hb⟩ := Option.isSome_iff_exists.mp ((dollar_blocked_iff _ _ _).mpr (.inr h))
  have hname : b.name = .budget := by
    obtain ⟨cap, _, hcap⟩ := Option.bind_eq_some_iff.mp hb
    exact blockedOn_name hcap
  have hfirst : firstBlocked (userAxes usage budget ask) ask.newRequest resetsAt =
      some { b with resetsAt } := by
    show List.findSome? _ (dollarAxis usage budget ask :: _) = _
    rw [List.findSome?_cons, hb]
    rfl
  have hheld : axisAdmitted usage budget ask .budget := by
    obtain ⟨cap, hcap, amount, hamount, hnew, hfits, -⟩ := h
    intro amount' hamount'
    obtain rfl : amount = amount' := Option.mem_unique hamount hamount'
    refine admits_holds.mpr fun cap' hcap' => ?_
    obtain rfl : cap = cap' := Option.mem_unique hcap hcap'
    exact ⟨hfits, hnew⟩
  refine hnamed _ hfirst ?_
  rw [show ({ b with resetsAt } : BlockedAxis).name = .budget from hname]
  exact (hgates .budget).mpr hheld

theorem agrees_iff (hgates : ∀ name, GateHolds gates name ↔ axisAdmitted usage budget ask name) :
    Agrees gates (firstBlocked (userAxes usage budget ask) ask.newRequest resetsAt) ↔
      ¬ RoundedIn usage budget ask := by
  refine ⟨fun hagrees h => not_agrees_of_roundedIn hgates h hagrees, fun h => ?_⟩
  refine agrees_of_axes fun name => ?_
  rw [hgates name]
  exact userAxes_blocked name h

/-- **The explanation agrees with the gate**, of a ceiling and of a user's budget, for every
counter, cap, amount and kind of request, exactly where no amount is rounded in. -/
theorem explanation_agrees (usage : Usage) (budget : Budget) (ask : Ask) (resetsAt : Option ℤ) :
    (Agrees (ceilingGates usage budget ask)
        (firstBlocked (ceilingAxes usage budget ask) ask.newRequest resetsAt) ↔
      ¬ RoundedIn usage budget ask) ∧ (Agrees (userGuards usage budget ask)
        (firstBlocked (userAxes usage budget ask) ask.newRequest resetsAt) ↔
      ¬ RoundedIn usage budget ask) := by
  rw [ceilingAxes_eq]
  exact ⟨agrees_iff ceilingGates_hold, agrees_iff userGuards_hold⟩

/-- A request priced at a rate of $1.40 a million calls, on a budget with a micro-dollar of room and
no tokens left: the gate refuses it on tokens, and the refusal speaks of dollars. -/
theorem explanation_disagrees : ∃ (usage : Usage) (budget : Budget) (ask : Ask),
      GateHolds (ceilingGates usage budget ask) .budget ∧
      ¬ GateHolds (ceilingGates usage budget ask) .token ∧
      (refusedAxis (some ⟨budget, usage, none⟩) ask).name = .budget ∧
      (blockedAxis usage budget ask none).name = .budget ∧ ¬ Agrees (ceilingGates usage budget ask)
        (firstBlocked (ceilingAxes usage budget ask) ask.newRequest none) ∧
      ¬ Agrees (userGuards usage budget ask)
        (firstBlocked (userAxes usage budget ask) ask.newRequest none) := by
  refine ⟨⟨999999, 0, 10, 0, 0, 0⟩, ⟨some 1000000, some 10, none⟩,
    ⟨some (14 / 10000000), 0, 1, true⟩, ?_⟩
  have hround : bindUsd (14 / 10000000) = 1 := by
    norm_num [bindUsd, Metered.costScale, Rounding.halfUp]
  have hin : RoundedIn ⟨999999, 0, 10, 0, 0, 0⟩ ⟨some 1000000, some 10, none⟩
      ⟨some (14 / 10000000), 0, 1, true⟩ := by
    refine ⟨_, rfl, _, rfl, fun _ => by norm_num, by rw [hround]; norm_num, ?_⟩
    norm_num [usd, Metered.costScale]
  refine ⟨?_, ?_, ?_, ?_, ?_, ?_⟩
  · rw [ceilingGates_hold]
    intro amount hamount
    cases hamount
    rw [admits_holds, hround]
    norm_num
  · rw [ceilingGates_hold]
    norm_num [axisAdmitted, admits_holds]
  · norm_num [refusedAxis, firstBlocked, ceilingAxes, AxisUse.blocked, blockedOn, usd,
      Metered.costScale]
  · norm_num [blockedAxis, firstBlocked, userAxes, AxisUse.blocked, blockedOn, usd,
      Metered.costScale]
  · rw [ceilingAxes_eq]
    exact not_agrees_of_roundedIn ceilingGates_hold hin
  · exact not_agrees_of_roundedIn userGuards_hold hin

end Otari.Reservations
