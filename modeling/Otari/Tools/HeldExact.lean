import Otari.Tools.UsageTally

/-!
# Tools — HeldExact — what a call holds is what it is billed

A hold and a charge both read one price (`priceOf`): the hold under the name a call is admitted under,
the charge under the name it is counted under.  Where these agree each success is billed what was held
for it (`recordSuccess_cost`), and `held_exact` adds that up over every run.  They differ on names
with a null character, and on those that no longer fit the tally; and the total is rounded once.
-/

namespace Otari.Tools
open Pricing List

/-! ### The price of a call -/

def lookupOf (name : Key) (terms : CallTerms) : ToolRateLookup where
  rateKeys := terms.rateKeys.getD [.model (gatewayToolPricingKey name)]
  operatorSetOnly := terms.deploymentPaid.getD (paidByTheDeployment terms.label)

def priceOf (rates : Rates) (name : Key) (terms : CallTerms) : ℚ≥0 :=
  (rates (lookupOf name terms)).elim 0 ToolRate.unitRate

variable {rates : Rates}

theorem unitRate_eq (call : LabelCalls) (rates : Rates) :
    call.unitRate rates = priceOf rates call.tool (callTerms call) := rfl

theorem priceOf_congr {name name' : Key} {terms : CallTerms}
    (h : terms.rateKeys.isSome = true ∨ name = name') :
    priceOf rates name terms = priceOf rates name' terms := by
  rcases h with hkeys | rfl
  · obtain ⟨keys, hkeys⟩ := Option.isSome_iff_exists.mp hkeys
    simp [priceOf, lookupOf, hkeys]
  · rfl

theorem unitRates_lookup (tool : Key) (terms : CallTerms) (more : ℕ) :
    let call := admittedCall tool terms (more + 1)
    ((chargeToolCalls [call] rates).unitRates.lookup call.tool).getD 0 =
      priceOf rates (admittedName tool) terms := by
  intro call
  have hcost : call.cost rates = (more + 1 : ℕ) * priceOf rates (admittedName tool) terms := by
    rw [call.cost_eq, LabelCalls.countTimesRate, unitRate_eq]
    exact zero_add _
  have hcalls : call.calls = more + 1 := rfl
  have hrates : (chargeToolCalls [call] rates).unitRates =
      [(call.tool, call.cost rates / (more + 1 : ℕ))] := by
    simp [chargeToolCalls, byTool, byLabel, hcalls, Tally.add, LabelCalls.line]
  rw [hrates, hcost]
  simp [List.lookup]

/-! ### The gate -/

def ReservationToolGate.Priced (rates : Rates) (gate : ReservationToolGate) : Prop :=
  ∀ key unit, gate.unitCosts.lookup key = some unit → unit = priceOf rates key.1 key.2

theorem unitCost_spec {gate : ReservationToolGate} (h : gate.Priced rates) (tool : Key)
    (terms : CallTerms) (more : ℕ) :
    let r := gate.unitCost rates (admittedCall tool terms (more + 1))
    r.1 = priceOf rates (admittedName tool) terms ∧ r.2.Priced rates ∧
      r.2.reserved = gate.reserved := by
  intro r
  have hunit := @unitRates_lookup rates tool terms more
  simp only [r, ReservationToolGate.unitCost]
  cases hcached : gate.unitCosts.lookup
    ((admittedCall tool terms (more + 1)).tool, callTerms (admittedCall tool terms (more + 1))) with
  | some unit => exact ⟨h _ unit hcached, h, rfl⟩
  | none =>
    refine ⟨hunit, fun key unit hkey => ?_, rfl⟩
    simp only [lookup_append] at hkey
    cases hold : gate.unitCosts.lookup key with
    | some old =>
      rw [hold] at hkey
      cases hkey
      exact h key unit hold
    | none =>
      rw [hold, Option.none_or, lookup_cons] at hkey
      split at hkey
      · rename_i heq
        rw [beq_iff_eq] at heq
        cases heq
        cases hkey
        exact hunit
      · cases hkey

/-- **What a call is admitted with**: where the request has a reservation, its price. -/
theorem admit_spec {gate : ReservationToolGate} (h : gate.Priced rates)
    (hreserved : gate.reserved = true) (tool : Key) (terms : CallTerms) (more : ℕ)
    (answer : HoldAnswer) :
    let r := gate.admitCall rates (admittedCall tool terms (more + 1)) answer
    (∀ unit ∈ r.1, unit = priceOf rates (admittedName tool) terms) ∧ r.2.Priced rates ∧
      r.2.reserved = true := by
  intro r
  obtain ⟨hunit, hpriced, hkept⟩ := unitCost_spec h tool terms more
  simp only [r, ReservationToolGate.admitCall, hreserved, Bool.not_true, Bool.false_eq_true, if_false]
  split_ifs with hlookup hfree hfits
  · exact ⟨fun unit hunit => (by cases hunit), h, hreserved⟩
  · refine ⟨fun unit hmem => ?_, hpriced, hkept.trans hreserved⟩
    obtain rfl := Option.some.inj hmem
    rw [← hunit]
    exact (nonpos_iff_eq_zero.mp hfree).symm
  · refine ⟨fun unit hmem => ?_, hpriced, hkept.trans hreserved⟩
    obtain rfl := Option.some.inj hmem
    exact hunit
  · exact ⟨fun unit hunit => (by cases hunit), hpriced, hkept.trans hreserved⟩

/-! ### The names of a call -/

/-- A name that the tally counts as it was admitted: no null character is in what is kept of it, and
it is not folded into the overflow. -/
structure NameKept (tally : ToolUsageTally) (tool : Key) : Prop where
  null : '\x00' ∉ admittedName tool
  room : tally.folds tool = false

instance (tally : ToolUsageTally) (tool : Key) : Decidable (NameKept tally tool) :=
  decidable_of_iff ('\x00' ∉ admittedName tool ∧ tally.folds tool = false)
    ⟨fun h => ⟨h.1, h.2⟩, fun h => ⟨h.null, h.room⟩⟩

theorem take_filter_ne {l : Key} {c : Char} {n : ℕ} (h : c ∉ l.take n) :
    (l.filter (· ≠ c)).take n = l.take n := by
  induction n generalizing l with
  | zero => rfl
  | succ n ih =>
    cases l with
    | nil => rfl
    | cons d l =>
      rw [take_succ_cons] at h
      obtain ⟨hd, hl⟩ := not_or.mp (mt mem_cons.mpr h)
      have hkeep : (d :: l).filter (· ≠ c) = d :: l.filter (· ≠ c) :=
        filter_cons_of_pos (by simpa using fun e => hd e.symm)
      rw [hkeep, take_succ_cons, take_succ_cons, ih hl]

theorem countedName_eq {tool : Key} (h : '\x00' ∉ admittedName tool) :
    countedName tool = admittedName tool := by
  rw [admittedName, orOverflow] at h
  rw [countedName, admittedName, orOverflow, orOverflow]
  by_cases htool : tool = []
  · subst htool
    rfl
  · rw [if_neg htool] at h ⊢
    have htake := take_filter_ne h
    have hfilter : tool.filter (· ≠ '\x00') ≠ [] := by
      intro hnone
      rw [hnone, take_nil] at htake
      exact htool (take_eq_nil_iff.mp htake.symm |>.resolve_left (by decide))
    rw [if_neg hfilter, htake]

theorem keyOf_eq {tally : ToolUsageTally} {tool : Key} (h : NameKept tally tool) :
    tally.keyOf tool = admittedName tool := by
  have hroom := h.room
  rw [ToolUsageTally.folds] at hroom
  rw [ToolUsageTally.keyOf, countedName_eq h.null] at *
  split_ifs with hknown hfull
  · rfl
  · simp [hknown, hfull] at hroom
  · rfl

/-! ### The charge -/

/-- What a tally's calls cost, before the total is rounded. -/
def ToolUsageTally.cost (rates : Rates) (tally : ToolUsageTally) : ℚ≥0 :=
  (tally.labelCalls.map fun entry => entry.cost rates).sum

/-- **What a success is billed**: the price of the name it is counted under. -/
theorem recordSuccess_cost (tally : ToolUsageTally) (tool : Key) (terms : CallTerms) :
    (tally.recordSuccess tool terms none).cost rates =
      tally.cost rates + priceOf rates (tally.keyOf tool) terms := by
  have hentry : ∀ totals : LabelTotals,
      (labelCallsOf ((tally.keyOf tool, terms), totals)).cost rates =
        totals.reportedCost + totals.unreportedCalls * priceOf rates (tally.keyOf tool) terms := by
    intro totals
    rw [LabelCalls.cost_eq, LabelCalls.countTimesRate, unitRate_eq]
    rfl
  simp only [ToolUsageTally.cost, ToolUsageTally.labelCalls, map_map]
  refine Tally.sum_change (fun item => (labelCallsOf item).cost rates) (tally.keyOf tool, terms)
    ?_ (fun totals => ?_) tally.labels
  · rw [hentry]
    simp [usableCost, LabelTotals.record]
  · rw [hentry, hentry]
    simp only [usableCost, LabelTotals.record, Option.bind_none]
    push_cast
    ring

/-! ### The runs of a request -/

namespace ToolSpend

/-- What a run keeps: each hold is the price of its call, and the calls that succeeded cost what was
held for them. -/
structure Held (rates : Rates) (s : ToolSpend) : Prop where
  reserved : s.gate.reserved = true
  priced : s.gate.Priced rates
  holds : ∀ hold ∈ s.holds, hold.unit = priceOf rates (admittedName hold.tool) hold.terms
  exact_ : s.tally.cost rates = s.heldForSuccesses

/-- The event is no success, or of a call that is priced by rate keys or by a name that is kept. -/
def KeepsName (s : ToolSpend) : Event → Prop
  | .success i => ∀ hold ∈ s.holds[i]?, hold.terms.rateKeys.isSome = true ∨ NameKept s.tally hold.tool
  | _ => True

variable {s s' : ToolSpend}

theorem Held.start : Held rates {} :=
  ⟨rfl, fun key unit h => (by cases h), fun hold h => absurd h not_mem_nil, rfl⟩

theorem Held.step (h : s.Held rates) {event : Event} (hname : s.KeepsName event)
    (hs : s.step rates event = some s') : s'.Held rates := by
  cases event with
  | admitCall tool terms more answer =>
    obtain ⟨hunit, hpriced, hreserved⟩ := admit_spec h.priced h.reserved tool terms more answer
    cases hs
    refine ⟨hreserved, hpriced, fun hold hhold => ?_, h.exact_⟩
    rcases mem_append.mp hhold with hhold | hhold
    · exact h.holds hold hhold
    · obtain ⟨unit, hmem, rfl⟩ := mem_map.mp hhold
      exact hunit unit (Option.mem_toList.mp hmem)
  | success i =>
    simp only [ToolSpend.step, Option.bind_eq_bind] at hs
    cases hhold : s.holds[i]? with
    | none => simp [hhold] at hs
    | some hold =>
      simp only [hhold, Option.bind_some] at hs
      split_ifs at hs
      cases hs
      have hmem := mem_of_getElem? hhold
      have hkept : hold.terms.rateKeys.isSome = true ∨
          s.tally.keyOf hold.tool = admittedName hold.tool :=
        (hname hold hhold).imp_right keyOf_eq
      refine ⟨h.reserved, h.priced, fun other hother => ?_, ?_⟩
      · rcases mem_or_eq_of_mem_set hother with hother | rfl
        · exact h.holds other hother
        · exact h.holds hold hmem
      · rw [recordSuccess_cost, priceOf_congr hkept, h.exact_, h.holds hold hmem]
  | failure tool =>
    cases hs
    exact ⟨h.reserved, h.priced, h.holds, h.exact_⟩

/-- Every event of the run keeps the name of its call. -/
inductive Kept (rates : Rates) : ToolSpend → List Event → Prop where
  | nil {s : ToolSpend} : Kept rates s []
  | cons {s : ToolSpend} {event : Event} {events : List Event} (hname : s.KeepsName event)
      (rest : ∀ s', s.step rates event = some s' → Kept rates s' events) :
      Kept rates s (event :: events)

instance (s : ToolSpend) : DecidablePred s.KeepsName
  | .success i =>
    inferInstanceAs (Decidable (∀ hold ∈ s.holds[i]?,
      hold.terms.rateKeys.isSome = true ∨ NameKept s.tally hold.tool))
  | .admitCall .. | .failure _ => isTrue trivial

instance decidableKept (rates : Rates) : ∀ (events : List Event) (s : ToolSpend),
    Decidable (Kept rates s events)
  | [], _ => isTrue .nil
  | event :: events, s =>
    have := decidableKept rates events
    decidable_of_iff (s.KeepsName event ∧ ∀ s' ∈ s.step rates event, Kept rates s' events)
      ⟨fun h => .cons h.1 h.2, fun (.cons hname rest) => ⟨hname, rest⟩⟩

theorem Held.run (h : s.Held rates) {events : List Event} (hkept : Kept rates s events)
    (hs : s.run rates events = some s') : s'.Held rates := by
  induction hkept with
  | nil =>
    cases hs
    exact h
  | @cons s event events hname rest ih =>
    obtain ⟨s₁, hstep, hs⟩ := Option.bind_eq_some_iff.mp hs
    exact ih s₁ hstep (h.step hname hstep) hs

theorem Kept.split {before after : List Event} {event : Event}
    (h : Kept rates s (before ++ event :: after)) (hs : s.run rates before = some s') :
    Kept rates s before ∧ s'.KeepsName event := by
  induction before generalizing s with
  | nil =>
    cases hs
    cases h with
    | cons hname _ => exact ⟨.nil, hname⟩
  | cons first before ih =>
    obtain ⟨s₁, hstep, hs⟩ := Option.bind_eq_some_iff.mp hs
    cases h with
    | cons hname rest =>
      refine ⟨.cons hname fun s₂ hstep₂ => ?_, (ih (rest s₁ hstep) hs).2⟩
      rw [hstep] at hstep₂
      cases hstep₂
      exact (ih (rest s₁ hstep) hs).1

/-- What the calls of a run that succeeded held is what they are billed. -/
structure HeldExactly (rates : Rates) (events : List Event) (s : ToolSpend) : Prop where
  /-- In exact amounts. -/
  sum : s.tally.cost rates = s.heldForSuccesses
  /-- The total rounds them once. -/
  total : (chargeToolCalls s.tally.labelCalls rates).total = Metered.quantizeCost s.heldForSuccesses
  /-- Each success is billed what was held for it, be that nothing. -/
  each : ∀ before i after s₁ hold, events = before ++ .success i :: after →
    run rates {} before = some s₁ → s₁.holds[i]? = some hold →
      (s₁.tally.recordSuccess hold.tool hold.terms none).cost rates = s₁.tally.cost rates + hold.unit

end ToolSpend

/-- **What a call holds is what it is billed**, over every run that keeps the names its calls are priced
by: call by call in exact amounts, and in a total that rounds them once. -/
theorem held_exact (rates : Rates) (events : List ToolSpend.Event) (s : ToolSpend)
    (hs : ToolSpend.run rates {} events = some s) (hkept : ToolSpend.Kept rates {} events) :
    ToolSpend.HeldExactly rates events s := by
  have hheld := ToolSpend.Held.start.run hkept hs
  refine ⟨hheld.exact_, by rw [total_eq, ← hheld.exact_]; rfl, fun before i after s₁ hold he hrun hhold => ?_⟩
  subst he
  obtain ⟨hbefore, hname⟩ := hkept.split hrun
  have hprice := (ToolSpend.Held.start.run hbefore hrun).holds hold (List.mem_of_getElem? hhold)
  rw [recordSuccess_cost, hprice, priceOf_congr ((hname hold hhold).imp_right keyOf_eq)]

/-- One tool is priced: `a`, at a cent or at less than half a micro-dollar. -/
def priceOfA (unitRate : ℚ≥0) : Rates := fun lookup =>
  if lookup.rateKeys = [.model (gatewayToolPricingKey ['a'])] then
    some ⟨.model (gatewayToolPricingKey ['a']), unitRate, .deployment, false⟩
  else
    none

/-- A call of `a`. -/
def callOfA : List ToolSpend.Event := [.admitCall ['a'] {} 0 .fits, .success 0]

/-- A call of `a` whose name has a null character at its end. -/
def callOfNull : List ToolSpend.Event := [.admitCall ['a', '\x00'] {} 0 .fits, .success 0]

/-- Two calls of `a` under one hold, a third that is refused, one of `b` that is free, and one that
fails. -/
def callsOfA : List ToolSpend.Event :=
  [.admitCall ['a'] {} 1 .fits, .success 0, .admitCall ['a'] {} 0 .refused, .admitCall ['b'] {} 0 .fits,
    .success 1, .failure ['b'], .success 0]

theorem held_exact_callsOfA : ∃ s, ToolSpend.run (priceOfA (1 / 100)) {} callsOfA = some s ∧
    ToolSpend.HeldExactly (priceOfA (1 / 100)) callsOfA s ∧ s.heldForSuccesses = 2 / 100 := by
  have hheld : (ToolSpend.run (priceOfA (1 / 100)) {} callsOfA).map ToolSpend.heldForSuccesses =
      some (2 / 100) := by decide +kernel
  obtain ⟨s, hs, hsum⟩ := Option.map_eq_some_iff.mp hheld
  exact ⟨s, hs, held_exact _ callsOfA s hs (by decide +kernel), hsum⟩

/-- The call with a null character holds nothing and is billed a cent; and a call that costs less than
half a micro-dollar holds its price and is billed nothing. -/
theorem held_differs :
    (∃ s, ToolSpend.run (priceOfA (1 / 100)) {} callOfNull = some s ∧ s.heldForSuccesses = 0 ∧
      (chargeToolCalls s.tally.labelCalls (priceOfA (1 / 100))).total = 1 / 100) ∧
    ∃ s, ToolSpend.run (priceOfA (1 / 5000000)) {} callOfA = some s ∧
      s.heldForSuccesses = 1 / 5000000 ∧
      (chargeToolCalls s.tally.labelCalls (priceOfA (1 / 5000000))).total = 0 := by
  have hnull : (ToolSpend.run (priceOfA (1 / 100)) {} callOfNull).map (fun s =>
      (s.heldForSuccesses, (chargeToolCalls s.tally.labelCalls (priceOfA (1 / 100))).total)) =
        some (0, 1 / 100) := by decide +kernel
  have hsmall : (ToolSpend.run (priceOfA (1 / 5000000)) {} callOfA).map (fun s =>
      (s.heldForSuccesses, (chargeToolCalls s.tally.labelCalls (priceOfA (1 / 5000000))).total)) =
        some (1 / 5000000, 0) := by decide +kernel
  obtain ⟨s, hs, hvalues⟩ := Option.map_eq_some_iff.mp hnull
  obtain ⟨s', hs', hvalues'⟩ := Option.map_eq_some_iff.mp hsmall
  exact ⟨⟨s, hs, Prod.mk.inj hvalues⟩, s', hs', Prod.mk.inj hvalues'⟩

end Otari.Tools
