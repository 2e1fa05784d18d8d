import Otari.Reservations.GateExplained

/-!
# Reservations — RetryAfter — when a refusal says to come back

`_refusals.py` gives a refusal the seconds until the window of the refusing budget ends, unless the
axis it names is one the hold alone exceeds.  Waiting helps where the empty window admits the same
request, which depends on every capped axis (`FitsAlone`), and the refusal looks at one, and at one
of the two clauses of its gate.

* `Truthful`: a refusal that says to come back is not repeated in the window after this one.
* `retry_after_truthful`: exactly when it is.  The window never ends, or the axis named is one the
  request alone exceeds, or the request fits every cap on its own.
* `waits_in_vain`: a second axis the request alone exceeds, and a cap of zero.

Instants are microseconds, and `total_seconds` is exact on a window of any length a budget may have.
-/

namespace Otari.Reservations

/-! ### Coming back -/

/-- `seconds_until`: whole seconds, rounded up and never less than one. -/
def secondsUntil (ends now : ℤ) : ℤ := max ⌈((ends - now : ℤ) : ℚ) / 10 ^ 6⌉ 1

/-- `retry_after`. -/
def BlockedAxis.retryAfter (blocked : BlockedAxis) (now : ℤ) : Option ℤ :=
  match blocked.resetsAt with
  | none => none
  | some ends => if blocked.exceedsCap then none else some (secondsUntil ends now)

/-- The two places a hold is taken: the user's own row, and a ceiling. -/
inductive Gate where
  | user | ceiling

def Gate.gates : Gate → Usage → Budget → Ask → List (Axis × Truth)
  | .user => userGuards
  | .ceiling => ceilingGates

/-- What the refusal of a gate says, of a window that ends at `resetsAt`. -/
def Gate.refusal (usage : Usage) (budget : Budget) (ask : Ask) (resetsAt : Option ℤ) :
    Gate → BlockedAxis
  | .user => blockedAxis usage budget ask resetsAt
  | .ceiling => refusedAxis (some ⟨budget, usage, resetsAt⟩) ask

def Usage.empty : Usage := ⟨0, 0, 0, 0, 0, 0⟩

/-- **The refusal is truthful**: by the time it names the window has ended, and the same request is
admitted in an empty one. -/
def Truthful (gate : Gate) (usage : Usage) (budget : Budget) (ask : Ask) (resetsAt : Option ℤ)
    (now : ℤ) : Prop :=
  ∀ seconds ∈ (gate.refusal usage budget ask resetsAt).retryAfter now,
    (∃ ends ∈ resetsAt, ends ≤ now + seconds * 10 ^ 6) ∧
      Admitted (gate.gates .empty budget ask)

/-! ### Whether waiting helps -/

/-- An axis has no room: a hold would pass its cap, or an arrival finds the cap reached. -/
def AxisUse.Full (axis : AxisUse) (newRequest : Bool) : Prop :=
  ∃ cap ∈ axis.cap, cap < axis.committed + axis.wanted ∨ newRequest = true ∧ cap ≤ axis.committed

instance AxisUse.instDecidableFull (axis : AxisUse) (newRequest : Bool) :
    Decidable (axis.Full newRequest) :=
  inferInstanceAs (Decidable (∃ cap ∈ axis.cap, _))

/-- The request alone passes the cap of the axis. -/
def AxisUse.TooLarge (axis : AxisUse) : Prop := ∃ cap ∈ axis.cap, cap < axis.wanted

/-- The first axis without room is one the request alone exceeds. -/
def FirstTooLarge (usage : Usage) (budget : Budget) (ask : Ask) : Prop :=
  ∃ axis ∈ (userAxes usage budget ask).find? (·.Full ask.newRequest), axis.TooLarge

/-- A cap holds the amount on its own, and one that meets an arrival is over zero. -/
def CapFits (newRequest : Bool) (held cap : ℤ) : Prop := held ≤ cap ∧ (newRequest = true → 0 < cap)

/-- The request fits every cap it is asked about, alone in a window. -/
def FitsAlone (budget : Budget) (ask : Ask) : Prop :=
  (∀ amount ∈ ask.amount, ∀ cap ∈ budget.maxBudget, CapFits ask.newRequest (bindUsd amount) cap) ∧
  (∀ cap ∈ budget.tokenLimit, CapFits ask.newRequest ask.tokens cap) ∧
  ∀ cap ∈ budget.requestLimit, CapFits ask.newRequest ask.requests cap

/-! ### The wait -/

/-- **A client that waits lands in the next window.** -/
theorem ends_le_secondsUntil (ends now : ℤ) : ends ≤ now + secondsUntil ends now * 10 ^ 6 := by
  have hceil : ((ends - now : ℤ) : ℚ) / 10 ^ 6 ≤ secondsUntil ends now :=
    (Int.le_ceil _).trans (Int.cast_le.mpr (le_max_left _ _))
  rw [div_le_iff₀ (by positivity)] at hceil
  have : ends - now ≤ secondsUntil ends now * 10 ^ 6 := by exact_mod_cast hceil
  linarith

variable {usage : Usage} {budget : Budget} {ask : Ask} {resetsAt : Option ℤ} {now : ℤ}

/-! ### The axis named -/

variable {newRequest : Bool} {b : BlockedAxis}

theorem blockedOn_exceedsCap {name : Axis} {committed cap wanted : ℚ}
    (h : blockedOn name committed cap wanted newRequest = some b) :
    b.exceedsCap = decide (cap < wanted) := by
  simp only [blockedOn] at h
  split_ifs at h <;> cases h <;> rfl

theorem blocked_isSome {axis : AxisUse} :
    (axis.blocked newRequest).isSome ↔ axis.Full newRequest := by
  simp only [AxisUse.blocked, AxisUse.Full, Option.isSome_bind, Option.any_eq_true,
    Option.mem_def, blockedOn_isSome]

theorem blocked_exceedsCap {axis : AxisUse}
    (h : axis.blocked newRequest = some b) : b.exceedsCap = true ↔ axis.TooLarge := by
  obtain ⟨cap, hcap, hblocked⟩ := Option.bind_eq_some_iff.mp h
  rw [blockedOn_exceedsCap hblocked, decide_eq_true_iff]
  simp [AxisUse.TooLarge, hcap]

theorem firstBlocked_find {axes : List AxisUse}
    (h : firstBlocked axes newRequest resetsAt = some b) : b.resetsAt = resetsAt ∧
      ∃ axis, axes.find? (·.Full newRequest) = some axis ∧
        (b.exceedsCap = true ↔ axis.TooLarge) := by
  obtain ⟨before, axis, after, rfl, haxis, hbefore⟩ := List.findSome?_eq_some_iff.mp h
  obtain ⟨b', hb', rfl⟩ := Option.map_eq_some_iff.mp haxis
  have hexceeds : b'.exceedsCap = true ↔ axis.TooLarge := blocked_exceedsCap hb'
  refine ⟨rfl, axis, ?_, hexceeds⟩
  have hfull : axis.Full newRequest := blocked_isSome.mp (by rw [hb']; rfl)
  refine List.find?_eq_some_iff_append.mpr ⟨decide_eq_true hfull, before, after, rfl, ?_⟩
  intro earlier hearlier
  have hnone := Option.map_eq_none_iff.mp (hbefore earlier hearlier)
  simp [← blocked_isSome, hnone]

theorem firstBlocked_of_refused {name : Axis} (h : ¬ axisAdmitted usage budget ask name) :
    (firstBlocked (userAxes usage budget ask) ask.newRequest resetsAt).isSome := by
  rw [firstBlocked_isSome]
  by_cases hround : RoundedIn usage budget ask
  · exact ⟨dollarAxis usage budget ask, by simp [userAxes, dollarAxis],
      (dollar_blocked_iff _ _ _).mpr (.inr hround)⟩
  · obtain ⟨axis, hmem, -, hblocked⟩ := (userAxes_blocked name hround).mp h
    exact ⟨axis, hmem, hblocked⟩

/-! ### The two gates -/

theorem gates_hold (gate : Gate) (name : Axis) :
    GateHolds (gate.gates usage budget ask) name ↔ axisAdmitted usage budget ask name := by
  cases gate with
  | user => exact userGuards_hold name
  | ceiling => exact ceilingGates_hold name

theorem refusal_eq (gate : Gate) : gate.refusal usage budget ask resetsAt =
      (firstBlocked (userAxes usage budget ask) ask.newRequest resetsAt).getD
        { name := .budget } := by
  cases gate with
  | user => rfl
  | ceiling => rw [← ceilingAxes_eq]; rfl

/-- **An empty window admits what fits every cap alone.** -/
theorem admitted_empty (gate : Gate) :
    Admitted (gate.gates .empty budget ask) ↔ FitsAlone budget ask := by
  rw [admitted_iff]
  simp only [gates_hold]
  constructor
  · intro h
    have hdollars := h .budget
    have htokens := h .token
    have hrequests := h .request
    simp only [axisAdmitted, dollarsAdmitted, admits_holds, Usage.empty, add_zero, zero_add]
      at hdollars htokens hrequests
    exact ⟨hdollars, htokens, hrequests⟩
  · rintro ⟨hdollars, htokens, hrequests⟩ name
    cases name with
    | budget =>
      simpa [axisAdmitted, dollarsAdmitted, admits_holds, Usage.empty, CapFits] using hdollars
    | token => simpa [axisAdmitted, admits_holds, Usage.empty, CapFits] using htokens
    | request => simpa [axisAdmitted, admits_holds, Usage.empty, CapFits] using hrequests

/-! ### What it says -/

/-- **When a refusal may be believed**, of a user's budget and of a ceiling: exactly where its
window never ends, or the first axis without room is one the request alone exceeds, or the request
fits every cap alone. -/
theorem retry_after_truthful (gate : Gate) (usage : Usage) (budget : Budget) (ask : Ask)
    (resetsAt : Option ℤ) (now : ℤ) (refused : ¬ Admitted (gate.gates usage budget ask)) :
    Truthful gate usage budget ask resetsAt now ↔
      resetsAt = none ∨ FirstTooLarge usage budget ask ∨ FitsAlone budget ask := by
  obtain ⟨name, hname⟩ : ∃ name, ¬ axisAdmitted usage budget ask name := by
    simpa only [admitted_iff, gates_hold, not_forall] using refused
  have hsome : (firstBlocked (userAxes usage budget ask) ask.newRequest resetsAt).isSome :=
    firstBlocked_of_refused hname
  obtain ⟨b, hb⟩ := Option.isSome_iff_exists.mp hsome
  obtain ⟨hresets, axis, hfind, hlarge⟩ := firstBlocked_find hb
  have hfirst : FirstTooLarge usage budget ask ↔ b.exceedsCap = true := by
    simp [FirstTooLarge, hfind, hlarge]
  rw [Truthful, refusal_eq, hb, Option.getD_some, BlockedAxis.retryAfter, hresets, hfirst,
    admitted_empty]
  cases resetsAt with
  | none => simp
  | some ends =>
    cases hexceeds : b.exceedsCap with
    | true => simp
    | false =>
      have hends := ends_le_secondsUntil ends now
      norm_num at hends
      simp [hends]

/-- Ten dollars spent of ten, and a request that fits every cap alone. -/
theorem retry_after_truthful_spent :
    ¬ Admitted (Gate.user.gates ⟨10000000, 0, 0, 0, 0, 0⟩ ⟨some 10000000, some 100, none⟩
        ⟨some 1, 50, 1, true⟩) ∧
      (Truthful .user ⟨10000000, 0, 0, 0, 0, 0⟩ ⟨some 10000000, some 100, none⟩
          ⟨some 1, 50, 1, true⟩ (some 60000000) 0 ↔ (some 60000000 : Option ℤ) = none ∨
          FirstTooLarge ⟨10000000, 0, 0, 0, 0, 0⟩ ⟨some 10000000, some 100, none⟩
            ⟨some 1, 50, 1, true⟩ ∨
          FitsAlone ⟨some 10000000, some 100, none⟩ ⟨some 1, 50, 1, true⟩) := by
  have refused : ¬ Admitted (Gate.user.gates ⟨10000000, 0, 0, 0, 0, 0⟩
      ⟨some 10000000, some 100, none⟩ ⟨some 1, 50, 1, true⟩) := by decide +kernel
  exact ⟨refused, retry_after_truthful .user _ _ _ _ _ refused⟩

/-- **Waits in vain.**  A user who has spent the dollars of the window asks for more tokens than any
window has, and a ceiling of no dollars meets an arrival that holds none: both are told to come
back when the window ends, and both are refused again. -/
theorem waits_in_vain :
    (¬ Admitted (Gate.user.gates ⟨10000000, 0, 0, 0, 0, 0⟩ ⟨some 10000000, some 100, none⟩
        ⟨some 1, 500, 1, true⟩) ∧
      (Gate.user.refusal ⟨10000000, 0, 0, 0, 0, 0⟩ ⟨some 10000000, some 100, none⟩
        ⟨some 1, 500, 1, true⟩ (some 60000000)).retryAfter 0 = some 60 ∧
      ¬ Truthful .user ⟨10000000, 0, 0, 0, 0, 0⟩ ⟨some 10000000, some 100, none⟩
        ⟨some 1, 500, 1, true⟩ (some 60000000) 0) ∧
    (¬ Admitted (Gate.ceiling.gates .empty ⟨some 0, none, none⟩ ⟨some 0, 0, 1, true⟩) ∧
      (Gate.ceiling.refusal .empty ⟨some 0, none, none⟩ ⟨some 0, 0, 1, true⟩
        (some 60000000)).retryAfter 0 = some 60 ∧
      ¬ Truthful .ceiling .empty ⟨some 0, none, none⟩ ⟨some 0, 0, 1, true⟩ (some 60000000) 0) := by
  refine ⟨⟨by decide +kernel, by decide +kernel, fun h => ?_⟩,
    ⟨by decide +kernel, by decide +kernel, fun h => ?_⟩⟩
  · exact absurd (h 60 (by decide +kernel)).2 (by decide +kernel)
  · exact absurd (h 60 (by decide +kernel)).2 (by decide +kernel)

end Otari.Reservations
