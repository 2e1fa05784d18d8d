import Otari.Access.WebAccess
import Otari.Network.DomainRules

/-!
# Access — WebNarrows — a policy composed with a request only narrows

Of canonical lists the composition of canonical hosts (`fetchPolicy_spec`) and that of strings
(`searchPolicy_spec`) permit what both sides permit, and refuse exactly where both sides' allow lists
cover no host together; `web_access_narrows` says so of every policy and every request.
-/

namespace Otari.Access
open List
open Documents (Json)
open Forest
open Network

variable {platform : Platform}

/-! ### Two sides -/

/-- The hosts that an allow list and a block list permit. -/
def listsPermit (platform : Platform) (allowed blocked : Option (List String))
    (host : CanonicalHost) : Bool :=
  DomainPolicy.permits ⟨rulesOf platform (allowed.getD []), rulesOf platform (blocked.getD [])⟩ host

/-- Two allow lists that cover no host together. -/
def NoCommonHost (platform : Platform) (first second : Option (List String)) : Prop :=
  first.getD [] ≠ [] ∧ second.getD [] ≠ [] ∧ ∀ host,
    ¬ (Covers RuleCovers (rulesOf platform (first.getD [])) host ∧
      Covers RuleCovers (rulesOf platform (second.getD [])) host)

def ruleSet (platform : Platform) (values : Option (List String)) : List CanonicalHost :=
  Distinct.firsts CanonicalHost.key (rulesOf platform (values.getD []))

def CanonicalList (platform : Platform) (values : Option (List String)) : Prop :=
  Canonical platform (values.getD [])

namespace CanonicalList
variable {values allowed blocked : Option (List String)}

theorem settled (h : CanonicalList platform values) :
    ∀ rule ∈ ruleSet platform values, Settled platform rule := by
  intro rule hrule
  exact Canonical.settled h rule (Distinct.mem_of_mem_firsts hrule)

theorem covers_ruleSet (h : CanonicalList platform values) (host : CanonicalHost) :
    Covers RuleCovers (ruleSet platform values) host ↔
      Covers RuleCovers (rulesOf platform (values.getD [])) host :=
  covers_firsts (Canonical.settled h) host

theorem ruleSet_eq_nil_iff (h : CanonicalList platform values) :
    ruleSet platform values = [] ↔ values.getD [] = [] :=
  firsts_eq_nil_iff.trans (Canonical.rulesOf_eq_nil_iff h)

theorem allows_ruleSet (h : CanonicalList platform values) (host : CanonicalHost) :
    Allows (ruleSet platform values) host ↔ Allows (rulesOf platform (values.getD [])) host := by
  rw [Allows, Allows, h.covers_ruleSet, ruleSet, firsts_eq_nil_iff]

theorem canonicalizedRules_ok (h : CanonicalList platform values) :
    canonicalizedRules platform (values.getD []) = .ok (ruleSet platform values) := by
  rw [canonicalizedRules, canonicalizeDomainRules_ok h]
  rfl

theorem declaredRules_ok (h : CanonicalList platform values) :
    declaredRules platform values = .ok (orNone (ruleSet platform values)) := by
  unfold declaredRules
  split_ifs with hnil
  · rw [h.ruleSet_eq_nil_iff.mpr hnil]
    rfl
  · rw [h.canonicalizedRules_ok, orNone, if_neg]
    · rfl
    · simpa using mt h.ruleSet_eq_nil_iff.mp hnil

end CanonicalList

theorem listsPermit_iff (allowed blocked : Option (List String)) (host : CanonicalHost) :
    listsPermit platform allowed blocked host = true ↔
      ¬ Covers RuleCovers (rulesOf platform (blocked.getD [])) host ∧
        Allows (rulesOf platform (allowed.getD [])) host :=
  permits_iff _ host

/-! ### The hosts of a fetch -/

/-- The allow list of the request in a fetch: the fetch declaration's own, or the search's. -/
def fetchAllowed (search : Option WebSearchEntry) (fetch : Option WebFetchEntry) :
    Option (List String) :=
  if (fetch.bind (·.allowedDomains)).getD [] = [] then search.bind (·.allowedDomains)
  else fetch.bind (·.allowedDomains)

def fetchBlocked (search : Option WebSearchEntry) (fetch : Option WebFetchEntry) :
    Option (List String) :=
  some ((search.bind (·.blockedDomains)).getD [] ++ (fetch.bind (·.blockedDomains)).getD [])

/-- A search declaration with canonical lists. -/
structure WebSearchEntry.Canonical (platform : Platform) (entry : WebSearchEntry) : Prop where
  allowed : CanonicalList platform entry.allowedDomains
  blocked : CanonicalList platform entry.blockedDomains

structure WebFetchEntry.Canonical (platform : Platform) (entry : WebFetchEntry) : Prop where
  allowed : CanonicalList platform entry.allowedDomains
  blocked : CanonicalList platform entry.blockedDomains

theorem canonicalList_none : CanonicalList platform none := fun _ hvalue => by cases hvalue

section
variable {search : Option WebSearchEntry} {fetch : Option WebFetchEntry}
  (hsearch : ∀ entry ∈ search, entry.Canonical platform)
  (hfetch : ∀ entry ∈ fetch, entry.Canonical platform)
include hsearch hfetch

/-- **The policy of a fetch permits what both sides permit**, or their allow lists are disjoint. -/
theorem fetchPolicy_spec {allowed blocked : Option (List String)}
    (hallowed : CanonicalList platform allowed) (hblocked : CanonicalList platform blocked) :
    (fetchPolicy platform ⟨ruleSet platform allowed, ruleSet platform blocked⟩ search fetch =
        .error .workspaceWebSearchDomainsExcluded ∧
      NoCommonHost platform allowed (fetchAllowed search fetch)) ∨
    ∃ policy, fetchPolicy platform ⟨ruleSet platform allowed, ruleSet platform blocked⟩ search
        fetch = .ok policy ∧ ¬ NoCommonHost platform allowed (fetchAllowed search fetch) ∧
      ∀ host, policy.permits host = (listsPermit platform allowed blocked host &&
        listsPermit platform (fetchAllowed search fetch) (fetchBlocked search fetch) host) := by
  have hsearchLists : CanonicalList platform (search.bind (·.allowedDomains)) ∧
      CanonicalList platform (search.bind (·.blockedDomains)) := by
    cases search with
    | none => exact ⟨canonicalList_none, canonicalList_none⟩
    | some entry => exact ⟨(hsearch entry rfl).allowed, (hsearch entry rfl).blocked⟩
  have hfetchLists : CanonicalList platform (fetch.bind (·.allowedDomains)) ∧
      CanonicalList platform (fetch.bind (·.blockedDomains)) := by
    cases fetch with
    | none => exact ⟨canonicalList_none, canonicalList_none⟩
    | some entry => exact ⟨(hfetch entry rfl).allowed, (hfetch entry rfl).blocked⟩
  have hrequest : CanonicalList platform (fetchAllowed search fetch) := by
    unfold fetchAllowed
    split_ifs
    · exact hsearchLists.1
    · exact hfetchLists.1
  -- the lists of the fetch tool where it has them, and else those of the search tool
  have hchosen : requestAllowed platform search fetch =
      .ok (orNone (ruleSet platform (fetchAllowed search fetch))) := by
    rw [requestAllowed, hfetchLists.1.declaredRules_ok, ok_bind, getD_orNone]
    unfold fetchAllowed
    by_cases hnil : (fetch.bind (·.allowedDomains)).getD [] = []
    · rw [if_pos hnil, if_pos (hfetchLists.1.ruleSet_eq_nil_iff.mpr hnil)]
      exact hsearchLists.1.declaredRules_ok
    · rw [if_neg hnil, if_neg (mt hfetchLists.1.ruleSet_eq_nil_iff.mp hnil)]
      rfl
  have hsearchBlocked : ∀ rule ∈ (orNone (ruleSet platform (search.bind (·.blockedDomains)))).getD [],
      Settled platform rule := by
    rw [getD_orNone]
    exact hsearchLists.2.settled
  have hfetchBlocked : ∀ rule ∈ (orNone (ruleSet platform (fetch.bind (·.blockedDomains)))).getD [],
      Settled platform rule := by
    rw [getD_orNone]
    exact hfetchLists.2.settled
  obtain ⟨requestBlocked, hunited⟩ : ∃ rules, unionDomainBlockLists
      (orNone (ruleSet platform (search.bind (·.blockedDomains))))
      (orNone (ruleSet platform (fetch.bind (·.blockedDomains)))) = rules := ⟨_, rfl⟩
  have hrequestBlocked : ∀ rule ∈ (some requestBlocked).getD [], Settled platform rule :=
    hunited ▸ settled_union hsearchBlocked hfetchBlocked
  have hblocks : ∀ host, Covers RuleCovers requestBlocked host ↔
      Covers RuleCovers (rulesOf platform ((fetchBlocked search fetch).getD [])) host := by
    intro host
    rw [← hunited, covers_union hsearchBlocked hfetchBlocked, getD_orNone, getD_orNone,
      hsearchLists.2.covers_ruleSet, hfetchLists.2.covers_ruleSet, ← Covers.append, fetchBlocked,
      Option.getD_some, rulesOf, rulesOf, rulesOf, filterMap_append]
  -- allow lists are intersected and block lists united; an empty meet refuses the request
  obtain ⟨hdisjoint, hmeet⟩ := intersectDomainAllowLists_spec hallowed.settled hrequest.settled
  simp only [fetchPolicy, hchosen, hfetchLists.2.declaredRules_ok, hsearchLists.2.declaredRules_ok,
    ok_bind, hunited]
  have hsame : intersectDomainAllowLists (orNone (ruleSet platform allowed))
        (orNone (ruleSet platform (fetchAllowed search fetch))) = none ↔
      NoCommonHost platform allowed (fetchAllowed search fetch) := by
    rw [hdisjoint, NoCommonHost, Ne, Ne, hallowed.ruleSet_eq_nil_iff, hrequest.ruleSet_eq_nil_iff]
    simp only [hallowed.covers_ruleSet, hrequest.covers_ruleSet]
  cases hlists : intersectDomainAllowLists (orNone (ruleSet platform allowed))
    (orNone (ruleSet platform (fetchAllowed search fetch))) with
  | none => exact .inl ⟨rfl, hsame.mp hlists⟩
  | some result =>
    refine .inr ⟨_, rfl, fun hnone => ?_, fun host => ?_⟩
    · rw [hsame.mpr hnone] at hlists
      cases hlists
    · have hworkspace : ∀ rule ∈ (orNone (ruleSet platform blocked)).getD [],
          Settled platform rule := by
        rw [getD_orNone]
        exact hblocked.settled
      have hallows := hmeet result hlists host
      rw [hallowed.allows_ruleSet, hrequest.allows_ruleSet] at hallows
      have hunion := covers_union hworkspace hrequestBlocked host
      rw [Option.getD_some, hblocks, getD_orNone, hblocked.covers_ruleSet] at hunion
      rw [Bool.eq_iff_iff, Bool.and_eq_true, permits_iff, listsPermit_iff, listsPermit_iff]
      dsimp only
      rw [hunion, hallows]
      tauto

end

/-! ### The search declaration -/

theorem entryDomains_eq {values : Option (List String)} (hstable : platform.Stable)
    (h : CanonicalList platform values) : entryDomains values = orNone (values.getD []) := by
  have hplain : ∀ value ∈ values.getD [], PlainText value := by
    intro value hvalue
    obtain ⟨rule, hok, hname⟩ := h value hvalue
    exact hname ▸ (canonicalizeDomainRule_stable hstable hok).1
  have hfilter : (values.getD []).filter (fun host => strip host.toList ≠ []) = values.getD [] := by
    refine filter_eq_self.mpr fun value hvalue => decide_eq_true ?_
    rw [(hplain value hvalue).strip_eq]
    intro hnil
    exact (hplain value hvalue).nonempty (String.toList_inj.mp (hnil.trans String.toList_empty.symm))
  have hmap : (values.getD []).map (fun host => (String.ofList (strip host.toList)).toLower) =
      values.getD [] := by
    refine (map_congr_left fun value hvalue => ?_).trans (map_id _)
    rw [(hplain value hvalue).strip_eq, String.ofList_toList, (hplain value hvalue).toLower_eq]
    rfl
  rw [entryDomains, hfilter, hmap]

theorem mem_canonicalRules {values : List String} {p : String × CanonicalHost} :
    p ∈ canonicalRules platform values ↔
      p.1 ∈ values ∧ canonicalizeDomainRule platform p.1 = .ok p.2 := by
  obtain ⟨value, rule⟩ := p
  simp only [canonicalRules, mem_filterMap, Distinct.mem_firsts_id, Option.map_eq_some_iff, Prod.mk.injEq]
  constructor
  · rintro ⟨value', hvalue, rule', hrule, rfl, rfl⟩
    refine ⟨hvalue, ?_⟩
    cases hok : canonicalizeDomainRule platform value' with
    | error e =>
      rw [hok] at hrule
      cases hrule
    | ok rule =>
      rw [hok] at hrule
      cases hrule
      rfl
  · rintro ⟨hvalue, hok⟩
    exact ⟨value, hvalue, rule, by rw [hok]; rfl, rfl, rfl⟩

def EntryCovers (entry other : String × CanonicalHost) : Prop := RuleCovers entry.2 other.2

theorem entries_forest : IsForest EntryCovers where
  refl a := rules_forest.refl a.2
  trans := rules_forest.trans
  inLine := rules_forest.inLine

theorem narrowerEntry_picks : Picks EntryCovers narrowerEntry where
  narrower := by
    intro a b x hx
    unfold narrowerEntry at hx
    split_ifs at hx with hba hab
    · exact .inl ⟨hba, (Option.some.inj hx).symm⟩
    · exact .inr ⟨hab, (Option.some.inj hx).symm⟩
  apart := by
    intro a b hnone
    unfold narrowerEntry at hnone
    split_ifs at hnone with hba hab
    exact ⟨hab, hba⟩

theorem covers_canonicalRules (values : List String) (c : String × CanonicalHost) :
    Covers EntryCovers (canonicalRules platform values) c ↔
      Covers RuleCovers (rulesOf platform values) c.2 := by
  constructor
  · rintro ⟨p, hp, hcovers⟩
    obtain ⟨hvalue, hok⟩ := mem_canonicalRules.mp hp
    exact ⟨p.2, mem_rulesOf.mpr ⟨p.1, hvalue, hok⟩, hcovers⟩
  · rintro ⟨rule, hrule, hcovers⟩
    obtain ⟨value, hvalue, hok⟩ := mem_rulesOf.mp hrule
    exact ⟨(value, rule), mem_canonicalRules.mpr ⟨hvalue, hok⟩, hcovers⟩

/-- **Two lists of strings intersect in what both cover.** -/
theorem intersectDomains_spec {requested workspace : List String}
    (hrequested : Canonical platform requested) (hworkspace : Canonical platform workspace) :
    Canonical platform (intersectDomains platform requested workspace) ∧
      ∀ host, Covers RuleCovers (rulesOf platform (intersectDomains platform requested workspace))
        host ↔ Covers RuleCovers (rulesOf platform requested) host ∧
          Covers RuleCovers (rulesOf platform workspace) host := by
  have hmem : ∀ value, value ∈ intersectDomains platform requested workspace ↔
      ∃ p ∈ Forest.meet narrowerEntry (canonicalRules platform requested)
        (canonicalRules platform workspace), p.1 = value := by
    intro value
    simp only [intersectDomains, Distinct.mem_firsts_id, mem_map]
    rfl
  have hof : ∀ p ∈ Forest.meet narrowerEntry (canonicalRules platform requested)
      (canonicalRules platform workspace),
      p ∈ canonicalRules platform requested ∨ p ∈ canonicalRules platform workspace := by
    intro p hp
    obtain ⟨a, ha, b, hb, hpick⟩ := mem_meet.mp hp
    rcases narrowerEntry_picks.narrower hpick with ⟨-, rfl⟩ | ⟨-, rfl⟩
    · exact .inl ha
    · exact .inr hb
  have hcanonical : Canonical platform (intersectDomains platform requested workspace) := by
    intro value hvalue
    obtain ⟨p, hp, rfl⟩ := (hmem value).mp hvalue
    rcases hof p hp with hp | hp
    · exact hrequested _ (mem_canonicalRules.mp hp).1
    · exact hworkspace _ (mem_canonicalRules.mp hp).1
  refine ⟨hcanonical, fun host => ?_⟩
  have hmeet : Covers EntryCovers (Forest.meet narrowerEntry (canonicalRules platform requested)
      (canonicalRules platform workspace)) ("", host) ↔ _ :=
    covers_meet entries_forest narrowerEntry_picks ("", host)
  rw [covers_canonicalRules, covers_canonicalRules] at hmeet
  refine Iff.trans ?_ hmeet
  constructor
  · rintro ⟨rule, hrule, hcovers⟩
    obtain ⟨value, hvalue, hok⟩ := mem_rulesOf.mp hrule
    obtain ⟨p, hp, rfl⟩ := (hmem value).mp hvalue
    have hp' : canonicalizeDomainRule platform p.1 = .ok p.2 :=
      (hof p hp).elim (fun hp => (mem_canonicalRules.mp hp).2) fun hp => (mem_canonicalRules.mp hp).2
    obtain rfl : rule = p.2 := Except.ok.inj (hok.symm.trans hp')
    exact ⟨p, hp, hcovers⟩
  · rintro ⟨p, hp, hcovers⟩
    have hp' : canonicalizeDomainRule platform p.1 = .ok p.2 :=
      (hof p hp).elim (fun hp => (mem_canonicalRules.mp hp).2) fun hp => (mem_canonicalRules.mp hp).2
    exact ⟨p.2, mem_rulesOf.mpr ⟨p.1, (hmem p.1).mpr ⟨p, hp, rfl⟩, hp'⟩, hcovers⟩

variable {entry : WebSearchEntry} {config : ResolvedWebSearchConfig}

/-- The narrowed allow list allows what both sides allow, or both lists cover no host together. -/
theorem narrowedAllowed_spec (hstable : platform.Stable)
    (hentry : CanonicalList platform entry.allowedDomains)
    (hconfig : CanonicalList platform config.allowedDomains) :
    (narrowedAllowed platform entry config = none ∧
      NoCommonHost platform config.allowedDomains entry.allowedDomains) ∨
    ∃ allowed, narrowedAllowed platform entry config = some allowed ∧
      ¬ NoCommonHost platform config.allowedDomains entry.allowedDomains ∧
      CanonicalList platform allowed ∧ ∀ host, Allows (rulesOf platform (allowed.getD [])) host ↔
        Allows (rulesOf platform (config.allowedDomains.getD [])) host ∧
          Allows (rulesOf platform (entry.allowedDomains.getD [])) host := by
  unfold narrowedAllowed
  cases hworkspace : config.allowedDomains.getD [] with
  | nil =>
    refine .inr ⟨_, rfl, fun hnone => hnone.1 hworkspace, hentry, fun host => ?_⟩
    simp [Allows, rulesOf]
  | cons first rest =>
    rw [entryDomains_eq hstable hentry]
    cases hrequested : entry.allowedDomains.getD [] with
    | nil =>
      refine .inr ⟨_, rfl, fun hnone => hnone.2.1 hrequested, ?_, fun host => ?_⟩
      · exact hworkspace ▸ hconfig
      · simp [Allows, rulesOf]
    | cons first' rest' =>
      have hcanonical : Canonical platform (first :: rest) := hworkspace ▸ hconfig
      have hcanonical' : Canonical platform (first' :: rest') := hrequested ▸ hentry
      obtain ⟨hboth, hcovers⟩ := intersectDomains_spec hcanonical' hcanonical
      have hsome : orNone (first' :: rest') = some (first' :: rest') := rfl
      have hne : rulesOf platform (first :: rest) ≠ [] :=
        mt hcanonical.rulesOf_eq_nil_iff.mp (by simp)
      have hne' : rulesOf platform (first' :: rest') ≠ [] :=
        mt hcanonical'.rulesOf_eq_nil_iff.mp (by simp)
      rw [hsome]
      simp only [NoCommonHost, hworkspace, hrequested]
      cases hlist : intersectDomains platform (first' :: rest') (first :: rest) with
      | nil =>
        refine .inl ⟨rfl, by simp, by simp, fun host hhost => ?_⟩
        obtain ⟨rule, hrule, -⟩ := (hcovers host).mpr hhost.symm
        rw [hlist] at hrule
        cases hrule
      | cons value values =>
        rw [hlist] at hboth hcovers
        have hne'' : rulesOf platform (value :: values) ≠ [] :=
          mt hboth.rulesOf_eq_nil_iff.mp (by simp)
        refine .inr ⟨_, rfl, fun hnone => ?_, hboth, fun host => ?_⟩
        · obtain ⟨rule, hrule⟩ := exists_mem_of_ne_nil _ hne''
          exact hnone.2.2 rule ((hcovers rule).mp ⟨rule, hrule, rules_forest.refl rule⟩).symm
        · simp only [Allows, hne, hne', hne'', false_or, Option.getD_some, hcovers]
          exact and_comm

theorem narrowedBlocked_spec (hstable : platform.Stable) {requested workspace : Option (List String)}
    (hrequested : CanonicalList platform requested) (hworkspace : CanonicalList platform workspace)
    {narrowed : Option (List String)}
    (h : narrowed = if workspace.getD [] = [] then requested
      else some (unionDomains (entryDomains requested) (workspace.getD []))) :
    CanonicalList platform narrowed ∧
      ∀ host, Covers RuleCovers (rulesOf platform (narrowed.getD [])) host ↔
        Covers RuleCovers (rulesOf platform (workspace.getD [])) host ∨
          Covers RuleCovers (rulesOf platform (requested.getD [])) host := by
  by_cases hnil : workspace.getD [] = []
  · rw [if_pos hnil] at h
    subst h
    refine ⟨hrequested, fun host => ?_⟩
    simp [hnil, rulesOf, Covers]
  · rw [if_neg hnil, entryDomains_eq hstable hrequested] at h
    subst h
    have hmem : ∀ value, value ∈ (some (unionDomains (orNone (requested.getD []))
        (workspace.getD []))).getD [] ↔ value ∈ requested.getD [] ∨ value ∈ workspace.getD [] := by
      intro value
      rw [Option.getD_some, unionDomains, Distinct.mem_firsts_id, getD_orNone, mem_append]
    refine ⟨fun value hvalue => ((hmem value).mp hvalue).elim (hrequested value) (hworkspace value),
      fun host => ?_⟩
    simp only [Covers, mem_rulesOf, hmem]
    constructor
    · rintro ⟨rule, ⟨value, hvalue | hvalue, hok⟩, hcovers⟩
      · exact .inr ⟨rule, ⟨value, hvalue, hok⟩, hcovers⟩
      · exact .inl ⟨rule, ⟨value, hvalue, hok⟩, hcovers⟩
    · rintro (⟨rule, ⟨value, hvalue, hok⟩, hcovers⟩ | ⟨rule, ⟨value, hvalue, hok⟩, hcovers⟩)
      · exact ⟨rule, ⟨value, .inr hvalue, hok⟩, hcovers⟩
      · exact ⟨rule, ⟨value, .inl hvalue, hok⟩, hcovers⟩

theorem searchPolicy_ok (h : entry.Canonical platform) :
    ∃ policy, searchPolicy platform entry = .ok policy ∧ ∀ host, policy.permits host =
      listsPermit platform entry.allowedDomains entry.blockedDomains host := by
  refine ⟨⟨ruleSet platform entry.allowedDomains, ruleSet platform entry.blockedDomains⟩, ?_,
    fun host => ?_⟩
  · rw [searchPolicy, h.allowed.canonicalizedRules_ok, ok_bind, h.blocked.canonicalizedRules_ok]
    rfl
  · rw [Bool.eq_iff_iff, permits_iff, listsPermit_iff]
    dsimp only
    rw [h.blocked.covers_ruleSet, h.allowed.allows_ruleSet]

/-- A policy with canonical lists. -/
structure ResolvedWebSearchConfig.Canonical (platform : Platform)
    (config : ResolvedWebSearchConfig) : Prop where
  allowed : CanonicalList platform config.allowedDomains
  blocked : CanonicalList platform config.blockedDomains

/-- **A narrowed declaration permits what both sides permit**, or their allow lists cover no host
together. -/
theorem narrowWebSearchToolEntry_spec (hstable : platform.Stable)
    (hentry : entry.Canonical platform)
    (hconfig : config.Canonical platform) (baselineMaxResults : ℤ) :
    (narrowWebSearchToolEntry platform entry config baselineMaxResults = none ∧
      NoCommonHost platform config.allowedDomains entry.allowedDomains) ∨ ∃ narrowed policy,
      narrowWebSearchToolEntry platform entry config baselineMaxResults = some narrowed ∧
      ¬ NoCommonHost platform config.allowedDomains entry.allowedDomains ∧
      searchPolicy platform narrowed = .ok policy ∧ ∀ host, policy.permits host =
        (listsPermit platform config.allowedDomains config.blockedDomains host &&
          listsPermit platform entry.allowedDomains entry.blockedDomains host) := by
  rcases narrowedAllowed_spec hstable hentry.allowed hconfig.allowed with
    ⟨hnone, hdisjoint⟩ | ⟨allowed, hallowed, hnot, hcanonical, hallows⟩
  · exact .inl ⟨by rw [narrowWebSearchToolEntry, hnone]; rfl, hdisjoint⟩
  · obtain ⟨hblocked, hblocks⟩ :=
      narrowedBlocked_spec hstable hentry.blocked hconfig.blocked rfl
    obtain ⟨narrowed, hnarrowed, hsame, hsame'⟩ : ∃ narrowed,
        narrowWebSearchToolEntry platform entry config baselineMaxResults = some narrowed ∧
        narrowed.allowedDomains = allowed ∧
        narrowed.blockedDomains = if config.blockedDomains.getD [] = [] then entry.blockedDomains
          else some (unionDomains (entryDomains entry.blockedDomains)
            (config.blockedDomains.getD [])) := by
      rw [narrowWebSearchToolEntry, hallowed]
      exact ⟨_, rfl, rfl, rfl⟩
    rw [← hsame'] at hblocked hblocks
    obtain ⟨policy, hpolicy, hpermits⟩ := searchPolicy_ok ⟨hsame ▸ hcanonical, hblocked⟩
    refine .inr ⟨narrowed, policy, hnarrowed, hnot, hpolicy, fun host => ?_⟩
    rw [hpermits, Bool.eq_iff_iff, Bool.and_eq_true, listsPermit_iff, listsPermit_iff,
      listsPermit_iff, hsame, hblocks, hallows]
    tauto

/-! ### The result limit -/

variable {baseline : ℤ}

theorem requestedMaxResults_of_nonpos {requested : Option ℤ}
    (h : requestedMaxResults baseline requested ≤ 0) :
    requestedMaxResults baseline requested = baseline := by
  cases requested with
  | none => rfl
  | some n =>
    by_cases hn : n ≤ 0
    · exact if_pos hn
    · have hsame : requestedMaxResults baseline (some n) = n := if_neg hn
      omega

theorem requestedMaxResults_narrowed {narrowed : WebSearchEntry}
    (hceiling : ∀ n ∈ config.maxResults, 0 < n)
    (h : narrowWebSearchToolEntry platform entry config baseline = some narrowed) :
    requestedMaxResults baseline narrowed.maxResults =
      config.maxResults.elim (requestedMaxResults baseline entry.maxResults)
        (min (requestedMaxResults baseline entry.maxResults)) := by
  obtain ⟨allowed, -, hnarrowed⟩ := Option.bind_eq_some_iff.mp h
  cases hnarrowed
  cases hmax : config.maxResults with
  | none => rfl
  | some ceiling =>
    have hpos := hceiling ceiling hmax
    have hnonpos := @requestedMaxResults_of_nonpos baseline entry.maxResults
    have hsome : ∀ n, requestedMaxResults baseline (some n) = if n ≤ 0 then baseline else n :=
      fun _ => rfl
    rw [hsome, Option.elim_some]
    split_ifs <;> omega

/-- **The limit is never above either side's**, nor above what the request would get alone. -/
theorem maxResults_narrowed {narrowed : WebSearchEntry} (hceiling : ∀ n ∈ config.maxResults, 0 < n)
    (h : narrowWebSearchToolEntry platform entry config baseline = some narrowed)
    (resolved : Option ℤ) : (∀ n ∈ config.maxResults, maxResults baseline narrowed resolved ≤ n) ∧
      maxResults baseline narrowed resolved ≤ maxResults baseline entry resolved := by
  have hcount := requestedMaxResults_narrowed hceiling h
  cases hmax : config.maxResults with
  | none =>
    rw [hmax] at hcount
    refine ⟨fun n hn => (by cases hn), ?_⟩
    cases resolved <;> simp [maxResults, hcount]
  | some ceiling =>
    rw [hmax] at hcount
    refine ⟨fun n hn => ?_, ?_⟩
    · cases hn
      cases resolved with
      | none => simp [maxResults, hcount]
      | some resolved => exact (min_le_left _ _).trans (hcount ▸ min_le_right _ _)
    · cases resolved with
      | none => simp [maxResults, hcount]
      | some resolved => exact min_le_min_right _ (hcount ▸ min_le_left _ _)

theorem maxResults_le_requested {n : ℤ}
    (hrequested : entry.maxResults = some n) (hn : 0 < n) (resolved : Option ℤ) :
    maxResults baseline entry resolved ≤ n := by
  have hcount : requestedMaxResults baseline entry.maxResults = n := by
    rw [hrequested]
    exact if_neg (not_le.mpr hn)
  cases resolved with
  | none => exact hcount.le
  | some resolved => exact (min_le_left _ _).trans hcount.le

/-! ### Every policy and every request -/

/-- What a stored policy and its columns promise. -/
structure ResolvedWebSearchConfig.Stored (platform : Platform)
    (config : ResolvedWebSearchConfig) : Prop where
  allowed : ∃ value, readDomainList platform value = .ok config.allowedDomains
  blocked : ∃ value, readDomainList platform value = .ok config.blockedDomains
  maxResults : ∀ n ∈ config.maxResults, 0 < n

/-- A declaration whose lists admission has read. -/
structure Admitted (platform : Platform) (allowed blocked : Option (List String)) : Prop where
  allowed : ∃ value, canonicalizeRequestDomains platform value = .ok allowed
  blocked : ∃ value, canonicalizeRequestDomains platform value = .ok blocked

theorem canonicalList_of_admitted (hstable : platform.Stable) {value : Option Json}
    {values : Option (List String)} (h : canonicalizeRequestDomains platform value = .ok values) :
    CanonicalList platform values := by
  unfold canonicalizeRequestDomains at h
  split at h
  · cases h
    exact canonicalList_none
  · cases h
    exact canonicalList_none
  · rename_i json _
    cases hread : readDomainList platform json with
    | error e =>
      rw [hread] at h
      cases h
    | ok hosts =>
      rw [hread] at h
      cases h
      have hcanonical : Canonical platform (hosts.getD []) :=
        readDomainList_canonical hstable hread
      exact hcanonical

def workspacePermits (platform : Platform) (policy : Option ResolvedWebSearchConfig)
    (host : CanonicalHost) : Bool :=
  listsPermit platform (policy.bind (·.allowedDomains)) (policy.bind (·.blockedDomains)) host

/-- The search declaration that a fetch reads, where one is requested. -/
def fetchSearch (requestedTools : List WebTool) (search : Option WebSearchEntry) :
    Option WebSearchEntry :=
  if .webFetch ∈ requestedTools then search else none

/-- What a grant lets a search do: find what both sides permit, and no more results than either
side's count. -/
structure SearchNarrowed (platform : Platform) (policy : Option ResolvedWebSearchConfig)
    (baseline : ℤ) (entry narrowed : WebSearchEntry) : Prop where
  permits : ∃ domains, searchPolicy platform narrowed = .ok domains ∧ ∀ host, domains.permits host =
    (workspacePermits platform policy host &&
      listsPermit platform entry.allowedDomains entry.blockedDomains host)
  ceiling : ∀ resolved, ∀ n ∈ policy.bind (·.maxResults), maxResults baseline narrowed resolved ≤ n
  requested : ∀ resolved, ∀ n ∈ entry.maxResults, 0 < n → maxResults baseline narrowed resolved ≤ n
  unraised : ∀ resolved,
    maxResults baseline narrowed resolved ≤ maxResults baseline entry resolved

/-- A policy composed with a request only narrows it. -/
structure OnlyNarrows (platform : Platform) (policy : Option ResolvedWebSearchConfig)
    (requestedTools : List WebTool) (search : Option WebSearchEntry) (fetch : Option WebFetchEntry)
    (baseline : ℤ) : Prop where
  fetched : ∀ grant, applyWebAccessPolicy platform policy requestedTools search fetch baseline =
    .ok grant → ∀ host, grant.fetchPolicy.permits host = (workspacePermits platform policy host &&
      listsPermit platform (fetchAllowed (fetchSearch requestedTools search) fetch)
        (fetchBlocked (fetchSearch requestedTools search) fetch) host)
  searched : ∀ grant, applyWebAccessPolicy platform policy requestedTools search fetch baseline =
    .ok grant → ∀ entry ∈ search, ∃ narrowed, grant.searchToolEntry = some narrowed ∧
      SearchNarrowed platform policy baseline entry narrowed
  refused : applyWebAccessPolicy platform policy requestedTools search fetch baseline =
      .error .workspaceWebSearchDomainsExcluded ↔
    policy.bind (vetoed requestedTools) = none ∧
      (NoCommonHost platform (policy.bind (·.allowedDomains))
          (fetchAllowed (fetchSearch requestedTools search) fetch) ∨
        ∃ entry : WebSearchEntry, search = some entry ∧
          NoCommonHost platform (policy.bind (·.allowedDomains)) entry.allowedDomains)
  granted : policy.bind (vetoed requestedTools) = none →
    ¬ NoCommonHost platform (policy.bind (·.allowedDomains))
      (fetchAllowed (fetchSearch requestedTools search) fetch) →
    (∀ entry ∈ search,
      ¬ NoCommonHost platform (policy.bind (·.allowedDomains)) entry.allowedDomains) →
    ∃ grant, applyWebAccessPolicy platform policy requestedTools search fetch baseline = .ok grant
  vetoes : ∀ refusal, policy.bind (vetoed requestedTools) = some refusal →
    applyWebAccessPolicy platform policy requestedTools search fetch baseline = .error refusal
  read : ∀ message, applyWebAccessPolicy platform policy requestedTools search fetch baseline ≠
    .error (.domainRuleValidation message)
  agree : ∀ grant, applyWebAccessPolicy platform policy requestedTools search fetch baseline =
    .ok grant → .webFetch ∈ requestedTools → search.isSome → (fetch.bind (·.allowedDomains)).getD [] = [] →
      (fetch.bind (·.blockedDomains)).getD [] = [] → ∃ narrowed domains,
        grant.searchToolEntry = some narrowed ∧ searchPolicy platform narrowed = .ok domains ∧
          ∀ host, domains.permits host = grant.fetchPolicy.permits host

theorem workspacePermits_none (host : CanonicalHost) :
    workspacePermits platform none host = true := by
  simp [workspacePermits, listsPermit_iff, rulesOf, Covers, Allows]

theorem vetoed_ne {requestedTools : List WebTool} {policy : Option ResolvedWebSearchConfig}
    {refusal : WebAccessError} (h : policy.bind (vetoed requestedTools) = some refusal) :
    refusal ≠ .workspaceWebSearchDomainsExcluded ∧
      ∀ message, refusal ≠ .domainRuleValidation message := by
  obtain ⟨config, -, h⟩ := Option.bind_eq_some_iff.mp h
  unfold vetoed at h
  split_ifs at h <;> cases h <;> simp

section
variable {policy : Option ResolvedWebSearchConfig} {search : Option WebSearchEntry}
  {fetch : Option WebFetchEntry} (hstable : platform.Stable)
  (hpolicy : ∀ config ∈ policy, config.Stored platform)
  (hsearch : ∀ entry ∈ search, entry.Canonical platform)
  (hfetch : ∀ entry ∈ fetch, entry.Canonical platform)
include hstable hpolicy hsearch hfetch

theorem applyWebAccessPolicy_cases (requestedTools : List WebTool) (baseline : ℤ) :
    (∃ refusal, policy.bind (vetoed requestedTools) = some refusal ∧
      applyWebAccessPolicy platform policy requestedTools search fetch baseline = .error refusal) ∨
    policy.bind (vetoed requestedTools) = none ∧
      ((applyWebAccessPolicy platform policy requestedTools search fetch baseline =
          .error .workspaceWebSearchDomainsExcluded ∧
        (NoCommonHost platform (policy.bind (·.allowedDomains))
            (fetchAllowed (fetchSearch requestedTools search) fetch) ∨
          ∃ entry : WebSearchEntry, search = some entry ∧
            NoCommonHost platform (policy.bind (·.allowedDomains)) entry.allowedDomains)) ∨
      ∃ grant, applyWebAccessPolicy platform policy requestedTools search fetch baseline = .ok grant ∧
        ¬ NoCommonHost platform (policy.bind (·.allowedDomains))
          (fetchAllowed (fetchSearch requestedTools search) fetch) ∧
        (∀ host, grant.fetchPolicy.permits host = (workspacePermits platform policy host &&
          listsPermit platform (fetchAllowed (fetchSearch requestedTools search) fetch)
            (fetchBlocked (fetchSearch requestedTools search) fetch) host)) ∧ ∀ entry ∈ search,
          ¬ NoCommonHost platform (policy.bind (·.allowedDomains)) entry.allowedDomains ∧
          ∃ narrowed, grant.searchToolEntry = some narrowed ∧
            SearchNarrowed platform policy baseline entry narrowed) := by
  have hcanonical : ∀ config ∈ policy, config.Canonical platform := by
    intro config hconfig
    obtain ⟨⟨_, hallowed⟩, ⟨_, hblocked⟩, -⟩ := hpolicy config hconfig
    exact ⟨readDomainList_canonical hstable hallowed, readDomainList_canonical hstable hblocked⟩
  have hlists : CanonicalList platform (policy.bind (·.allowedDomains)) ∧
      CanonicalList platform (policy.bind (·.blockedDomains)) := by
    cases policy with
    | none => exact ⟨canonicalList_none, canonicalList_none⟩
    | some config => exact ⟨(hcanonical config rfl).allowed, (hcanonical config rfl).blocked⟩
  have hworkspace : workspaceDomainPolicy platform policy =
      .ok ⟨ruleSet platform (policy.bind (·.allowedDomains)),
        ruleSet platform (policy.bind (·.blockedDomains))⟩ := by
    cases policy with
    | none => rfl
    | some config =>
      rw [workspaceDomainPolicy, (hcanonical config rfl).allowed.canonicalizedRules_ok, ok_bind,
        (hcanonical config rfl).blocked.canonicalizedRules_ok]
      rfl
  have hfetchSearch : ∀ entry ∈ fetchSearch requestedTools search, entry.Canonical platform := by
    intro entry hentry
    unfold fetchSearch at hentry
    split_ifs at hentry
    · exact hsearch entry hentry
    · cases hentry
  -- the veto comes first, then the hosts of the fetch, then the entry of the search
  unfold applyWebAccessPolicy
  rw [hworkspace, ok_bind]
  cases hveto : policy.bind (vetoed requestedTools) with
  | some refusal => exact .inl ⟨refusal, rfl, rfl⟩
  | none =>
    refine .inr ⟨rfl, ?_⟩
    have hspec := fetchPolicy_spec hfetchSearch hfetch hlists.1 hlists.2
    unfold fetchSearch at hspec ⊢
    rcases hspec with ⟨herror, hnone⟩ | ⟨domains, hdomains, hsome, hpermits⟩
    · rw [herror]
      exact .inl ⟨rfl, .inl hnone⟩
    · rw [hdomains, ok_bind]
      cases search with
      | none =>
        refine .inr ⟨⟨none, domains⟩, ?_, hsome, hpermits, fun entry hentry => by cases hentry⟩
        cases policy <;> rfl
      | some entry =>
        cases policy with
        | none =>
          refine .inr ⟨⟨some entry, domains⟩, rfl, hsome, hpermits, fun entry' hentry => ?_⟩
          cases hentry
          obtain ⟨own, hown, hownPermits⟩ := searchPolicy_ok (hsearch entry rfl)
          refine ⟨fun hnone => hnone.1 rfl, entry, rfl, ⟨own, hown, fun host => ?_⟩,
            fun _ n hn => (by cases hn), fun resolved n hn hpos => ?_, fun _ => le_rfl⟩
          · rw [workspacePermits_none, Bool.true_and, hownPermits]
          · exact maxResults_le_requested hn hpos resolved
        | some config =>
          have hconfig := hcanonical config rfl
          dsimp only
          rcases narrowWebSearchToolEntry_spec hstable (hsearch entry rfl) hconfig baseline
            with ⟨hnarrowed, hnone⟩ | ⟨narrowed, own, hnarrowed, hnot, hown, hownPermits⟩
          · rw [hnarrowed]
            exact .inl ⟨rfl, .inr ⟨entry, rfl, hnone⟩⟩
          · rw [hnarrowed]
            refine .inr ⟨⟨some narrowed, domains⟩, rfl, hsome, hpermits, fun entry' hentry => ?_⟩
            cases hentry
            have hlimit := maxResults_narrowed (hpolicy config rfl).maxResults hnarrowed
            exact ⟨hnot, narrowed, rfl, ⟨own, hown, hownPermits⟩,
              fun resolved n hn => (hlimit resolved).1 n hn,
              fun resolved n hn hpos =>
                (hlimit resolved).2.trans (maxResults_le_requested hn hpos resolved),
              fun resolved => (hlimit resolved).2⟩

end

/-- **Composition only narrows**, for every stored policy and every admitted request. -/
theorem web_access_narrows (hstable : platform.Stable) (policy : Option ResolvedWebSearchConfig)
    (hpolicy : ∀ config ∈ policy, config.Stored platform) (search : Option WebSearchEntry)
    (hsearch : ∀ entry ∈ search, Admitted platform entry.allowedDomains entry.blockedDomains)
    (fetch : Option WebFetchEntry)
    (hfetch : ∀ entry ∈ fetch, Admitted platform entry.allowedDomains entry.blockedDomains)
    (requestedTools : List WebTool) (baseline : ℤ) :
    OnlyNarrows platform policy requestedTools search fetch baseline := by
  have hsearch' : ∀ entry ∈ search, entry.Canonical platform := by
    intro entry hentry
    obtain ⟨⟨_, hallowed⟩, _, hblocked⟩ := hsearch entry hentry
    exact ⟨canonicalList_of_admitted hstable hallowed, canonicalList_of_admitted hstable hblocked⟩
  have hfetch' : ∀ entry ∈ fetch, entry.Canonical platform := by
    intro entry hentry
    obtain ⟨⟨_, hallowed⟩, _, hblocked⟩ := hfetch entry hentry
    exact ⟨canonicalList_of_admitted hstable hallowed, canonicalList_of_admitted hstable hblocked⟩
  -- the request is vetoed, or its lists and the policy's share no host, or there is a grant
  rcases applyWebAccessPolicy_cases hstable hpolicy hsearch' hfetch' requestedTools baseline with
    ⟨refusal, hveto, herror⟩ | ⟨hveto, ⟨herror, hnone⟩ | ⟨grant, hok, hnot, hfetched, hsearched⟩⟩
  · obtain ⟨hne, hne'⟩ := vetoed_ne hveto
    refine ⟨fun grant hok => ?_, fun grant hok => ?_, ?_, fun hnone => ?_, fun refusal' hveto' => ?_,
      fun message => ?_, fun grant hok => ?_⟩
    · rw [herror] at hok
      cases hok
    · rw [herror] at hok
      cases hok
    · rw [herror, hveto]
      exact iff_of_false (fun he => hne (Except.error.inj he)) (by simp)
    · rw [hveto] at hnone
      cases hnone
    · rw [herror, Option.some.inj (hveto.symm.trans hveto')]
    · rw [herror]
      exact fun he => hne' message (Except.error.inj he)
    · rw [herror] at hok
      cases hok
  · refine ⟨fun grant hok => ?_, fun grant hok => ?_, iff_of_true herror ⟨hveto, hnone⟩,
      fun _ hfetch hsearch => ?_, fun refusal hveto' => ?_, fun message => ?_, fun grant hok => ?_⟩
    · rw [herror] at hok
      cases hok
    · rw [herror] at hok
      cases hok
    · rcases hnone with hnone | ⟨entry, hentry, hnone⟩
      · exact absurd hnone hfetch
      · exact absurd hnone (hsearch entry hentry)
    · rw [hveto] at hveto'
      cases hveto'
    · rw [herror]
      exact fun he => (by cases he)
    · rw [herror] at hok
      cases hok
  · have hgrant : ∀ grant', applyWebAccessPolicy platform policy requestedTools search fetch
        baseline = .ok grant' → grant = grant' := by
      intro grant' hok'
      exact Except.ok.inj (hok.symm.trans hok')
    refine ⟨fun grant' hok' => hgrant grant' hok' ▸ hfetched,
      fun grant' hok' entry hentry => hgrant grant' hok' ▸ (hsearched entry hentry).2,
      iff_of_false ?_ ?_, fun _ _ _ => ⟨grant, hok⟩, fun refusal hveto' => ?_, fun message => ?_, ?_⟩
    · rw [hok]
      exact fun he => (by cases he)
    · rintro ⟨-, hnone | ⟨entry, hentry, hnone⟩⟩
      · exact hnot hnone
      · exact (hsearched entry hentry).1 hnone
    · rw [hveto] at hveto'
      cases hveto'
    · rw [hok]
      exact fun he => (by cases he)
    · intro grant' hok' hrequested hsome hallowed hblocked
      obtain rfl := hgrant grant' hok'
      obtain ⟨entry, rfl⟩ := Option.isSome_iff_exists.mp hsome
      -- both tools then read the lists of the search tool
      obtain ⟨-, narrowed, hnarrowed, ⟨domains, hdomains, hpermits⟩, -⟩ := hsearched entry rfl
      refine ⟨narrowed, domains, hnarrowed, hdomains, fun host => ?_⟩
      have hboth : fetchSearch requestedTools (some entry) = some entry := if_pos hrequested
      have hlist : fetchAllowed (some entry) fetch = entry.allowedDomains := if_pos hallowed
      have hlist' : (fetchBlocked (some entry) fetch).getD [] = entry.blockedDomains.getD [] := by
        simp [fetchBlocked, hblocked]
      rw [hpermits, hfetched, hboth, hlist]
      simp only [listsPermit, hlist']

def documentationNames : Platform where
  urlparse := fun _ => none
  ipAddress := fun _ => none
  compressed := fun _ => ""
  getaddrinfo := fun _ _ => none
  httpxURL := fun _ => none
  copyWith := fun _ _ _ _ => none
  idnaEncode := fun value =>
    if value ∈ ["example.com", "docs.example.com"] then some value else none

theorem documentationNames_stable : documentationNames.Stable := by
  have hnames : ∀ value ascii, documentationNames.idnaEncode value = some ascii →
      value = ascii ∧ ascii ∈ ["example.com", "docs.example.com"] := by
    intro value ascii h
    obtain ⟨hmem, heq⟩ := Option.ite_none_right_eq_some.mp h
    cases heq
    exact ⟨rfl, hmem⟩
  refine ⟨fun text address h => (by cases h), fun value ascii candidate h hcandidate => ?_,
    fun value ascii h c hc => ?_⟩
  · obtain ⟨rfl, hmem⟩ := hnames value ascii h
    have hself : withoutRootDot value.toLower.toList = .ok value.toList := by
      rcases mem_pair.mp hmem with rfl | rfl <;> decide +kernel
    rw [hself] at hcandidate
    rw [← Except.ok.inj hcandidate, String.ofList_toList]
    exact h
  · obtain ⟨rfl, hmem⟩ := hnames value ascii h
    have hall : value.toList.all (fun c => c.isAlphanum || c == '-' || c == '.') = true := by
      rcases mem_pair.mp hmem with rfl | rfl <;> decide +kernel
    simpa [or_assoc] using all_eq_true.mp hall c hc

/-- A workspace that allows a domain, and a search within one of its subdomains. -/
def documentationPolicy : ResolvedWebSearchConfig where
  enabled := true
  allowedDomains := some ["example.com"]

def documentationSearch : WebSearchEntry where
  allowedDomains := some ["docs.example.com"]

theorem web_access_narrows_documentation :
    ∃ grant, applyWebAccessPolicy documentationNames (some documentationPolicy)
        [.webSearch, .webFetch] (some documentationSearch) none 5 = .ok grant ∧
      grant.fetchPolicy.permits { value := "docs.example.com" } = true ∧
      grant.fetchPolicy.permits { value := "example.com" } = false := by
  have hread : ∀ name ∈ ["example.com", "docs.example.com"],
      readDomainList documentationNames (.arr [.str name]) = .ok (some [name]) := by
    intro name hmem
    have hhost : canonicalHostOf documentationNames name = .ok name := by
      rcases List.mem_pair.mp hmem with rfl | rfl <;> decide +kernel
    simp [readDomainList, readDomain, hhost, Except.mapError, Distinct.firsts]
  have hnarrows : OnlyNarrows documentationNames (some documentationPolicy) [.webSearch, .webFetch]
      (some documentationSearch) none 5 := by
    refine web_access_narrows documentationNames_stable _ ?_ _ ?_ none (fun entry h => by cases h) _ 5
    · rintro config ⟨⟩
      exact ⟨⟨_, hread "example.com" (by simp)⟩, ⟨.null, rfl⟩, fun n h => by cases h⟩
    · rintro entry ⟨⟩
      exact ⟨⟨some (.arr [.str "docs.example.com"]), by
        rw [canonicalizeRequestDomains, hread "docs.example.com" (by simp)]
        · rfl
        · exact Json.noConfusion⟩, ⟨none, rfl⟩⟩
  have hcommon : ¬ NoCommonHost documentationNames (some ["example.com"])
      (some ["docs.example.com"]) := by
    rintro ⟨-, -, hnone⟩
    exact hnone { value := "docs.example.com" } ⟨⟨⟨"example.com", none⟩, by decide +kernel, rfl⟩,
      ⟨⟨"docs.example.com", none⟩, by decide +kernel, rfl⟩⟩
  obtain ⟨grant, hok⟩ := hnarrows.granted (by decide) hcommon (by rintro entry ⟨⟩; exact hcommon)
  refine ⟨grant, hok, ?_, ?_⟩
  · rw [hnarrows.fetched grant hok]
    decide +kernel
  · rw [hnarrows.fetched grant hok]
    decide +kernel

end Otari.Access
