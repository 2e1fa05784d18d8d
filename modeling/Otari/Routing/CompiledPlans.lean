import Otari.Routing.Compiler

/-!
# Routing — CompiledPlans — what becomes of a policy's candidates, and when its router is asked

Every candidate the compiler is given becomes an attempt or is dropped, once and in order
(`Accounted`); each turn of the loop does one of the two (`resolveCandidate_cases`), and the
invariant follows it over the list.

The two walks over `select` stop at the same entry: where the router is consulted an ordering leads
the plan, and elsewhere no ordering changes it (`selectFrom_consulted`, `selectFrom_unasked`).
-/

namespace Otari.Routing
open List

/-! ### What becomes of a candidate -/

section
variable {filters : Filters} {candidate : Selected} {state : Resolution}

/-- The selector resolves for the caller and no access rule refuses it. -/
def Eligible (filters : Filters) (selector : String) : Prop :=
  ∃ resolved, filters.config.resolveProviderSelector selector = .ok resolved ∧
    refusal filters selector resolved = none

/-- The attempt dispatches what the candidate's selector resolves to, which is not refused, for the
reason the candidate was listed. -/
structure Dispatches (filters : Filters) (candidate : Selected) (attempt : Attempt) : Prop where
  resolves : ∃ resolved, filters.config.resolveProviderSelector candidate.1 = .ok resolved ∧
    refusal filters candidate.1 resolved = none ∧ attempt.instanceName = resolved.instanceName ∧
    attempt.provider = resolved.provider ∧ attempt.model = resolved.model ∧
    attempt.kwargs = resolved.kwargs
  reason : attempt.selectionReason = candidate.2

/-- Why a plan drops a candidate: it is full, the selector does not resolve, an attempt has its model
already, or an access rule refuses it. -/
inductive DroppedFor (filters : Filters) (attempts : List Attempt) (selector : String) :
    DroppedCandidate → Prop where
  | overCap {detail : String} (hcap : filters.candidateLimit ≤ attempts.length) :
    DroppedFor filters attempts selector ⟨selector, "over_cap", detail⟩
  | unresolvable {text detail : String}
    (hresolve : filters.config.resolveProviderSelector selector = .error text) :
    DroppedFor filters attempts selector ⟨selector, "unresolvable", detail⟩
  | duplicate {resolved : ResolvedProvider} {detail : String}
    (hresolve : filters.config.resolveProviderSelector selector = .ok resolved)
    (hseen : resolved.canonical ∈ attempts.map Attempt.canonical) :
    DroppedFor filters attempts selector ⟨selector, "duplicate", detail⟩
  | refused {resolved : ResolvedProvider} {reason detail : String}
    (hresolve : filters.config.resolveProviderSelector selector = .ok resolved)
    (hrefusal : refusal filters selector resolved = some (reason, detail)) :
    DroppedFor filters attempts selector ⟨selector, reason, detail⟩

/-- What one candidate becomes: an attempt of its own, or a drop that names it and says why. -/
def Became (filters : Filters) (attempts : List Attempt) (candidate : Selected) :
    Attempt ⊕ DroppedCandidate → Prop
  | .inl attempt => Dispatches filters candidate attempt
  | .inr item => DroppedFor filters attempts candidate.1 item

/-- **The candidates are accounted for.**  In order, each is one attempt or one drop; the attempts
are numbered from one, of distinct models, and within the cap. -/
structure Accounted (filters : Filters) (candidates : List Selected) (attempts : List Attempt)
    (dropped : List DroppedCandidate) : Prop where
  outcomes : ∃ outcomes, List.Forall₂ (Became filters attempts) candidates outcomes ∧
    outcomes.filterMap Sum.getLeft? = attempts ∧ outcomes.filterMap Sum.getRight? = dropped
  numbered : attempts.map (·.position) = List.range' 1 attempts.length
  distinct : (attempts.map Attempt.canonical).Nodup
  capped : attempts.length ≤ filters.candidateLimit

/-- A candidate no rule refuses is allowed, not refused by the organization's key, and of a provider
that serves the request's country. -/
theorem refusal_eq_none_iff {selector : String} {resolved : ResolvedProvider} :
    refusal filters selector resolved = none ↔
      isModelAllowed filters.allowlist resolved.canonical = true ∧
      filters.config.organizationKeyRefusal selector resolved = none ∧ ∀ gate ∈ filters.countryGate,
        gate.refuses filters.config resolved.instanceName = false := by
  unfold refusal
  cases isModelAllowed filters.allowlist resolved.canonical with
  | false => simp
  | true =>
    cases filters.config.organizationKeyRefusal selector resolved with
    | some code => simp
    | none =>
      cases filters.countryGate with
      | none => simp
      | some gate => cases h : gate.refuses filters.config resolved.instanceName <;> simp [h]

/-! ### The loop -/

theorem Became.append {attempts more : List Attempt} {outcome : Attempt ⊕ DroppedCandidate}
    (h : Became filters attempts candidate outcome) :
    Became filters (attempts ++ more) candidate outcome := by
  cases outcome with
  | inl attempt => exact h
  | inr item =>
    cases h with
    | overCap hcap => exact .overCap (hcap.trans (by simp))
    | unresolvable hresolve => exact .unresolvable hresolve
    | duplicate hresolve hseen =>
      exact .duplicate hresolve (map_append ▸ mem_append_left _ hseen)
    | refused hresolve hrefusal => exact .refused hresolve hrefusal

/-- What the loop keeps: its candidates so far are accounted for, and `seen` names the models of the
attempts. -/
structure Resolution.Kept (filters : Filters) (done : List Selected) (state : Resolution) :
    Prop where
  accounted : Accounted filters done state.attempts state.dropped
  seen : ∀ key, key ∈ state.seen ↔ key ∈ state.attempts.map Attempt.canonical

/-- **One turn of the loop** drops the candidate, for a reason, or makes it an attempt. -/
theorem resolveCandidate_cases {done : List Selected} (h : state.Kept filters done)
    (candidate : Selected) :
    (∃ reason detail,
      resolveCandidate filters state candidate = state.drop candidate.1 reason detail ∧
      DroppedFor filters state.attempts candidate.1 ⟨candidate.1, reason, detail⟩) ∨
    (∃ resolved, filters.config.resolveProviderSelector candidate.1 = .ok resolved ∧
      refusal filters candidate.1 resolved = none ∧ resolved.canonical ∉ state.seen ∧
      state.attempts.length < filters.candidateLimit ∧ resolveCandidate filters state candidate =
        state.attempt filters.displayModel candidate.2 resolved) := by
  obtain ⟨selector, why⟩ := candidate
  unfold resolveCandidate
  dsimp only
  split
  · rename_i hcap
    exact .inl ⟨_, _, rfl, .overCap hcap⟩
  · rename_i hcap
    cases hresolve : filters.config.resolveProviderSelector selector with
    | error text => exact .inl ⟨_, _, rfl, .unresolvable hresolve⟩
    | ok resolved =>
      dsimp only
      split
      · rename_i hseen
        exact .inl ⟨_, _, rfl, .duplicate hresolve ((h.seen _).mp hseen)⟩
      · rename_i hseen
        cases hrefusal : refusal filters selector resolved with
        | some fragment => exact .inl ⟨_, _, rfl, .refused hresolve hrefusal⟩
        | none => exact .inr ⟨resolved, rfl, hrefusal, hseen, not_le.mp hcap, rfl⟩

theorem Resolution.Kept.start : Resolution.Kept filters [] {} where
  accounted := ⟨⟨[], .nil, rfl, rfl⟩, rfl, nodup_nil, Nat.zero_le _⟩
  seen _ := by simp

theorem forall₂_snoc {α β : Type} {R : α → β → Prop} {l : List α} {m : List β} {a : α} {b : β}
    (h : List.Forall₂ R l m) (hab : R a b) : List.Forall₂ R (l ++ [a]) (m ++ [b]) :=
  rel_append h (.cons hab .nil)

theorem Resolution.Kept.drop {done : List Selected} (h : state.Kept filters done)
    {reason detail : String}
    (hitem : DroppedFor filters state.attempts candidate.1 ⟨candidate.1, reason, detail⟩) :
    (state.drop candidate.1 reason detail).Kept filters (done ++ [candidate]) where
  accounted := by
    obtain ⟨outcomes, hbecame, hattempts, hdropped⟩ := h.accounted.outcomes
    have hitem : Became filters state.attempts candidate (.inr ⟨candidate.1, reason, detail⟩) := hitem
    refine ⟨⟨_, forall₂_snoc hbecame hitem, ?_, ?_⟩,
      h.accounted.numbered, h.accounted.distinct, h.accounted.capped⟩
    · rw [filterMap_append, hattempts]
      exact append_nil _
    · rw [filterMap_append, hdropped]
      rfl
  seen := h.seen

theorem Resolution.Kept.attempt {done : List Selected} (h : state.Kept filters done)
    {resolved : ResolvedProvider}
    (hresolve : filters.config.resolveProviderSelector candidate.1 = .ok resolved)
    (hrefusal : refusal filters candidate.1 resolved = none)
    (hnew : resolved.canonical ∉ state.seen)
    (hcap : state.attempts.length < filters.candidateLimit) :
    (state.attempt filters.displayModel candidate.2 resolved).Kept filters
      (done ++ [candidate]) where
  accounted := by
    obtain ⟨outcomes, hbecame, hattempts, hdropped⟩ := h.accounted.outcomes
    have hattempt (attempts : List Attempt) : Became filters attempts candidate (.inl
        (resolved.attempt (state.attempts.length + 1) filters.displayModel candidate.2)) :=
      ⟨⟨resolved, hresolve, hrefusal, rfl, rfl, rfl, rfl⟩, rfl⟩
    refine ⟨⟨_, forall₂_snoc (hbecame.imp fun _ _ => Became.append) (hattempt _), ?_, ?_⟩, ?_, ?_, ?_⟩
    · rw [filterMap_append, hattempts]
      rfl
    · rw [filterMap_append, hdropped]
      exact append_nil _
    · unfold Resolution.attempt
      rw [map_append, h.accounted.numbered, length_append, length_singleton,
        List.range'_1_concat, Nat.add_comm 1]
      rfl
    · unfold Resolution.attempt
      rw [map_append, map_singleton]
      refine nodup_append.mpr ⟨h.accounted.distinct, nodup_singleton _, ?_⟩
      intro key hkey other hother heq
      have heq : key = resolved.canonical := heq.trans (congrArg id (mem_singleton.mp hother))
      exact hnew ((h.seen _).mpr (heq ▸ hkey))
    · unfold Resolution.attempt
      rw [length_append, length_singleton]
      exact hcap
  seen key := by
    unfold Resolution.attempt
    rw [mem_cons, h.seen, map_append, mem_append, map_singleton,
      mem_singleton, or_comm]
    rfl

/-- **The loop accounts for every candidate it is given.** -/
theorem kept_resolveCandidates (filters : Filters) (candidates : List Selected) :
    (resolveCandidates filters candidates).Kept filters candidates := by
  induction candidates using List.reverseRecOn with
  | nil => exact .start
  | append_singleton done candidate ih =>
    rw [resolveCandidates, foldl_append, ← resolveCandidates, foldl_cons,
      foldl_nil]
    rcases resolveCandidate_cases ih candidate with
      ⟨reason, detail, heq, hitem⟩ | ⟨resolved, hresolve, hrefusal, hnew, hcap, heq⟩
    · rw [heq]
      exact ih.drop hitem
    · rw [heq]
      exact ih.attempt hresolve hrefusal hnew hcap

theorem Dispatches.canonical {attempt : Attempt} (h : Dispatches filters candidate attempt) :
    ∃ resolved, filters.config.resolveProviderSelector candidate.1 = .ok resolved ∧
      refusal filters candidate.1 resolved = none ∧
      attempt.instanceName = resolved.instanceName ∧ resolved.canonical = attempt.canonical := by
  obtain ⟨resolved, hresolve, hnone, hinst, -, hmodel, -⟩ := h.resolves
  refine ⟨resolved, hresolve, hnone, hinst, ?_⟩
  rw [ResolvedProvider.canonical, Attempt.canonical, hinst, hmodel]

section
variable {candidates : List Selected} {attempts : List Attempt} {dropped : List DroppedCandidate}

theorem Accounted.dispatches (h : Accounted filters candidates attempts dropped)
    {attempt : Attempt} (ha : attempt ∈ attempts) :
    ∃ candidate ∈ candidates, Dispatches filters candidate attempt := by
  obtain ⟨outcomes, hbecame, hattempts, -⟩ := h.outcomes
  rw [← hattempts] at ha
  obtain ⟨outcome, hmem, hleft⟩ := mem_filterMap.mp ha
  cases outcome with
  | inr item => cases hleft
  | inl other =>
    obtain rfl := Option.some.inj hleft
    obtain ⟨i, hi, hget⟩ := mem_iff_getElem.mp hmem
    have hi' : i < candidates.length := hbecame.length_eq ▸ hi
    have hat := hbecame.get hi' hi
    rw [get_eq_getElem, get_eq_getElem, hget] at hat
    exact ⟨_, getElem_mem hi', hat⟩

/-- **An eligible candidate is attempted**, by itself or by an earlier one of its model, unless the
plan is full. -/
theorem Accounted.attempted (h : Accounted filters candidates attempts dropped)
    (hc : candidate ∈ candidates) {resolved : ResolvedProvider}
    (hresolve : filters.config.resolveProviderSelector candidate.1 = .ok resolved)
    (hnone : refusal filters candidate.1 resolved = none) :
    resolved.canonical ∈ attempts.map Attempt.canonical ∨
      attempts.length = filters.candidateLimit := by
  obtain ⟨outcomes, hbecame, hattempts, -⟩ := h.outcomes
  obtain ⟨i, hi, hget⟩ := mem_iff_getElem.mp hc
  have hi' : i < outcomes.length := hbecame.length_eq ▸ hi
  have hat := hbecame.get hi hi'
  rw [get_eq_getElem, get_eq_getElem, hget] at hat
  cases hout : outcomes[i] with
  | inl attempt =>
    rw [hout] at hat
    have hmem : attempt ∈ attempts :=
      hattempts ▸ mem_filterMap.mpr ⟨_, hout ▸ getElem_mem hi', rfl⟩
    obtain ⟨other, hother, -, -, hcanonical⟩ := Dispatches.canonical hat
    obtain rfl := Except.ok.inj (hresolve.symm.trans hother)
    exact .inl (mem_map.mpr ⟨attempt, hmem, hcanonical.symm⟩)
  | inr item =>
    rw [hout] at hat
    cases hat with
    | overCap hcap => exact .inr (h.capped.antisymm hcap)
    | unresolvable herror => cases hresolve.symm.trans herror
    | duplicate hother hseen =>
      obtain rfl := Except.ok.inj (hresolve.symm.trans hother)
      exact .inl hseen
    | refused hother hrefusal =>
      obtain rfl := Except.ok.inj (hresolve.symm.trans hother)
      cases hnone.symm.trans hrefusal

end

end

/-! ### Plans -/

section
variable (config : Deployment) (policyName : String) (spec : PolicySpec) (caller : Caller)
  (allowlist : Option (List String)) (routerOrdering : Option RouterOrdering)
  (countryGate : Option CountryGate)

def filtersOf : Filters where
  config := config
  allowlist := allowlist
  countryGate := countryGate
  displayModel := policyName

/-- The attempt is of a model the caller may use, which nothing refuses. -/
structure Permitted (attempt : Attempt) : Prop where
  allowed : isModelAllowed allowlist attempt.canonical = true
  served : ∀ gate ∈ countryGate, gate.refuses config attempt.instanceName = false
  unrefused : ∃ selector resolved, config.resolveProviderSelector selector = .ok resolved ∧
    resolved.canonical = attempt.canonical ∧ config.organizationKeyRefusal selector resolved = none

/-- **Compilation accounts for every candidate.**  The candidates are the selected ones and then the
failure chain.  A plan's attempts and drops are what became of them, each attempt permitted; and
there is no plan exactly when no candidate is eligible. -/
theorem compile_accounts :
    let candidates := candidatesOf spec (selectHead spec caller routerOrdering)
    let filters := filtersOf config policyName allowlist countryGate
    (∀ plan, compilePolicy config policyName spec caller allowlist routerOrdering countryGate =
        .ok plan →
      Accounted filters candidates plan.attempts plan.dropped ∧
      plan.attempts.length ≤ maxCandidates ∧
      ∀ attempt ∈ plan.attempts, Permitted config allowlist countryGate attempt) ∧
    (∀ error, compilePolicy config policyName spec caller allowlist routerOrdering countryGate =
        .error error → Accounted filters candidates [] error.dropped) ∧
    ((∃ error, compilePolicy config policyName spec caller allowlist routerOrdering countryGate =
        .error error) ↔ ∀ candidate ∈ candidates, ¬ Eligible filters candidate.1) := by
  intro candidates filters
  have hkept := kept_resolveCandidates filters candidates
  have hcompile : compilePolicy config policyName spec caller allowlist routerOrdering countryGate =
      if (resolveCandidates filters candidates).attempts = [] then
        .error ⟨policyName, (resolveCandidates filters candidates).dropped⟩
      else .ok {
        policyName := policyName
        attempts := (resolveCandidates filters candidates).attempts
        guardrails := spec.guardrails
        dropped := (resolveCandidates filters candidates).dropped
        routerOrdering :=
          if isRouted (selectHead spec caller routerOrdering) then routerOrdering else none } := rfl
  rw [hcompile]
  refine ⟨fun plan h => ?_, fun error h => ?_, fun h => ?_, fun h => ?_⟩
  · split at h
    · cases h
    · obtain rfl := Except.ok.inj h
      refine ⟨hkept.accounted, hkept.accounted.capped, fun attempt ha => ?_⟩
      obtain ⟨candidate, -, hdispatches⟩ := hkept.accounted.dispatches ha
      obtain ⟨resolved, hresolve, hnone, hinst, hcanonical⟩ := hdispatches.canonical
      obtain ⟨hallowed, hrefused, hserved⟩ := refusal_eq_none_iff.mp hnone
      exact ⟨hcanonical ▸ hallowed, fun gate hg => hinst ▸ hserved gate hg,
        candidate.1, resolved, hresolve, hcanonical, hrefused⟩
  · split at h
    · rename_i hnil
      obtain rfl := Except.error.inj h
      exact hnil ▸ hkept.accounted
    · cases h
  · obtain ⟨error, h⟩ := h
    split at h
    · rename_i hnil
      rintro candidate hc ⟨resolved, hresolve, hnone⟩
      rcases hkept.accounted.attempted hc hresolve hnone with hmem | hfull
      · rw [hnil] at hmem
        cases hmem
      · rw [hnil] at hfull
        cases hfull
    · cases h
  · have hnil : (resolveCandidates filters candidates).attempts = [] := by
      refine List.eq_nil_iff_forall_not_mem.mpr fun attempt ha => ?_
      obtain ⟨candidate, hc, hdispatches⟩ := hkept.accounted.dispatches ha
      obtain ⟨resolved, hresolve, hnone, -⟩ := hdispatches.canonical
      exact h candidate hc ⟨resolved, hresolve, hnone⟩
    rw [if_pos hnil]
    exact ⟨_, rfl⟩

end

/-- A candidate that resolves to a model already in the plan, and one that does not resolve. -/
example :
    let config : Deployment :=
      { resolveProviderSelector := fun selector =>
          if selector = "gone" then .error "unknown provider"
          else .ok ⟨"openai", "openai", "gpt-5", [], none⟩
        organizationKeyRefusal := fun _ _ => none
        providerVendor := fun _ => none
        providerSupportedCountries := fun _ => none }
    let resolution := resolveCandidates (filtersOf config "fast" none none)
      [("gone", "default"), ("a", "on_failure"), ("b", "on_failure")]
    resolution.attempts.map Attempt.canonical = ["openai:gpt-5"] ∧
      resolution.dropped.map (fun item => (item.selector, item.reason)) =
        [("gone", "unresolvable"), ("b", "duplicate")] := by
  decide +kernel

/-! ### Two walks over `select` -/

section
variable {fallthrough : String} {caller : Caller} {entries : List SelectEntry}

/-- **Where the router is not reached no ordering is read**, and the head is not a router's. -/
theorem selectFrom_unasked (h : reachesRouter caller entries = false) (o : Option RouterOrdering) :
    selectFrom fallthrough caller o entries = selectFrom fallthrough caller none entries ∧
      isRouted (selectFrom fallthrough caller o entries) = false := by
  have hdefault : ∀ target, isRouted [(target, "default")] = false := by
    intro target
    simp only [isRouted, List.head?_cons, Option.map_some, Option.getD_some]
    decide
  induction entries with
  | nil => exact ⟨rfl, hdefault _⟩
  | cons entry rest ih =>
    cases entry with
    | default target => exact ⟨rfl, hdefault target⟩
    | router backend candidates weights => cases h
    | target when' target =>
      cases when' with
      | none => exact ih h
      | some when' =>
        unfold reachesRouter at h
        unfold selectFrom
        by_cases hholds : conditionsHold when' caller
        · rw [if_pos hholds, if_pos hholds]
          refine ⟨rfl, ?_⟩
          simp only [isRouted, List.head?_cons, Option.map_some, Option.getD_some,
            String.toList_append]
          rfl
        · rw [if_neg hholds] at h
          rw [if_neg hholds, if_neg hholds]
          exact ih h

/-- **Where the router is reached its ordering leads the plan**, under the name of the backend that
is asked. -/
theorem selectFrom_consulted (h : reachesRouter caller entries = true) :
    ∃ backend, (entries.findSome? fun
        | .router backend _ _ => some backend
        | _ => none) = some backend ∧
      ∀ o, ordered o ≠ [] → selectFrom fallthrough caller o entries =
        (ordered o).map fun selector => (selector, "router:" ++ backend) := by
  induction entries with
  | nil => cases h
  | cons entry rest ih =>
    cases entry with
    | default target => cases h
    | router backend candidates weights =>
      exact ⟨backend, rfl, fun o ho => if_pos ho⟩
    | target when' target =>
      cases when' with
      | none => exact ih h
      | some when' =>
        unfold reachesRouter at h
        by_cases hholds : conditionsHold when' caller
        · rw [if_pos hholds] at h
          cases h
        · rw [if_neg hholds] at h
          obtain ⟨backend, hbackend, hselect⟩ := ih h
          refine ⟨backend, hbackend, fun o ho => ?_⟩
          rw [selectFrom, if_neg hholds, hselect o ho]

end

theorem isRouted_router {selectors : List String} (h : selectors ≠ []) (backend : String) :
    isRouted (selectors.map fun selector => (selector, "router:" ++ backend)) = true := by
  cases selectors with
  | nil => exact absurd rfl h
  | cons first rest => simp [isRouted, String.toList_append]

/-- **The router is consulted exactly when it matters.**  A request consults the router exactly when
some ordering would change the selected head.  Where it does, an ordering of the backend asked leads
the plan, which records it; and asking no router where it does not is the same plan. -/
theorem router_consulted_exactly (spec : PolicySpec) (caller : Caller) :
    (selectionConsultsRouter spec caller = true ↔
      ∃ o o', selectHead spec caller o ≠ selectHead spec caller o') ∧
    (selectionConsultsRouter spec caller = true → ∃ backend, spec.routerBackend = some backend ∧
      ∀ o, o.selectors ≠ [] → selectHead spec caller (some o) =
          o.selectors.map (fun selector => (selector, "router:" ++ backend)) ∧
        ∀ config policyName allowlist countryGate plan,
          compilePolicy config policyName spec caller allowlist (some o) countryGate = .ok plan →
            plan.routerOrdering = some o) ∧ (selectionConsultsRouter spec caller = false →
      ∀ config policyName allowlist routerOrdering countryGate plan,
        compilePolicy config policyName spec caller allowlist routerOrdering countryGate =
          .ok plan → plan.routerOrdering = none) ∧ ∀ config policyName allowlist answer countryGate,
      compilePolicy config policyName spec caller allowlist
          (if selectionConsultsRouter spec caller then answer else none) countryGate =
        compilePolicy config policyName spec caller allowlist answer countryGate := by
  have hrecorded : ∀ {config policyName allowlist routerOrdering countryGate plan},
      compilePolicy config policyName spec caller allowlist routerOrdering countryGate = .ok plan →
        plan.routerOrdering =
          if isRouted (selectHead spec caller routerOrdering) then routerOrdering else none := by
    intro config policyName allowlist routerOrdering countryGate plan h
    unfold compilePolicy at h
    dsimp only at h
    split at h
    · cases h
    · obtain rfl := Except.ok.inj h
      rfl
  have hconsulted : selectionConsultsRouter spec caller = true → ∃ backend,
      spec.routerBackend = some backend ∧ ∀ o, ordered o ≠ [] → selectHead spec caller o =
        (ordered o).map fun selector => (selector, "router:" ++ backend) :=
    selectFrom_consulted
  have hunasked : selectionConsultsRouter spec caller = false → ∀ o,
      selectHead spec caller o = selectHead spec caller none ∧
        isRouted (selectHead spec caller o) = false :=
    selectFrom_unasked
  refine ⟨⟨fun h => ?_, fun ⟨o, o', hne⟩ => ?_⟩, fun h => ?_, fun h => ?_, ?_⟩
  -- two answers with different heads show that the answer matters
  · obtain ⟨backend, -, hselect⟩ := hconsulted h
    have ha : ordered (some ⟨["a"], 0, ""⟩) = ["a"] := rfl
    have hb : ordered (some ⟨["b"], 0, ""⟩) = ["b"] := rfl
    refine ⟨some ⟨["a"], 0, ""⟩, some ⟨["b"], 0, ""⟩, ?_⟩
    rw [hselect _ (ha ▸ List.cons_ne_nil _ _), hselect _ (hb ▸ List.cons_ne_nil _ _), ha, hb]
    simp
  · by_contra hnot
    rw [Bool.not_eq_true] at hnot
    exact hne ((hunasked hnot o).1.trans (hunasked hnot o').1.symm)
  · obtain ⟨backend, hbackend, hselect⟩ := hconsulted h
    refine ⟨backend, hbackend, fun o ho => ⟨hselect (some o) ho, ?_⟩⟩
    intro config policyName allowlist countryGate plan hplan
    have hrouted : isRouted (selectHead spec caller (some o)) = true :=
      (congrArg isRouted (hselect (some o) ho)).trans (isRouted_router ho backend)
    rw [hrecorded hplan, if_pos hrouted]
  · intro config policyName allowlist routerOrdering countryGate plan hplan
    rw [hrecorded hplan, (hunasked h _).2]
    rfl
  · intro config policyName allowlist answer countryGate
    cases h : selectionConsultsRouter spec caller with
    | true => rfl
    | false =>
      unfold compilePolicy
      simp only [Bool.false_eq_true, if_false, (hunasked h none).2,
        (hunasked h answer).1]

end Otari.Routing
