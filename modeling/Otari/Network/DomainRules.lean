import Otari.Network.DomainPolicy

/-!
# Network — DomainRules — what rules cover

Rules cover hosts as a forest (`rules_forest`), so two lists intersect in what both cover
(`covers_intersect`).  A canonical name is read back as itself where the parsers outside are stable
(`Platform.Stable`), so a list may be canonicalized any number of times (`canonicalRules_covers`).
-/

namespace Otari.Network
open List
open Access (strip isSpace)
open Forest

def RuleCovers (rule host : CanonicalHost) : Prop := domainRuleMatches rule host = true

/-! ### The forest of rules -/

theorem ruleCovers_name {rule host : CanonicalHost} (hr : rule.ip = none) (hh : host.ip = none) :
    RuleCovers rule host ↔ ('.' :: rule.value.toList) <:+ ('.' :: host.value.toList) := by
  rw [RuleCovers, domainRuleMatches, hr, hh, suffix_cons_iff, List.cons.injEq, String.toList_inj,
    eq_comm (a := rule.value)]
  simp only [Option.isSome_none, Bool.or_self, Bool.false_eq_true, if_false, Bool.or_eq_true,
    decide_eq_true_eq, isSuffixOf_iff_suffix, true_and]

theorem ruleCovers_ip {rule host : CanonicalHost} (h : rule.ip ≠ none ∨ host.ip ≠ none) :
    RuleCovers rule host ↔ rule.ip = host.ip := by
  rw [RuleCovers, domainRuleMatches]
  cases hr : rule.ip <;> cases hh : host.ip <;> simp_all

theorem RuleCovers.isSome_eq {rule host : CanonicalHost} (h : RuleCovers rule host) :
    rule.ip.isSome = host.ip.isSome := by
  by_cases hip : rule.ip ≠ none ∨ host.ip ≠ none
  · rw [(ruleCovers_ip hip).mp h]
  · push Not at hip
    rw [hip.1, hip.2]

theorem rules_forest : IsForest RuleCovers where
  refl a := by
    by_cases ha : a.ip = none
    · exact (ruleCovers_name ha ha).mpr (suffix_refl _)
    · exact (ruleCovers_ip (.inl ha)).mpr rfl
  trans := by
    intro a b c hab hbc
    by_cases hb : b.ip = none
    · have ha : a.ip = none := by simpa [hb] using hab.isSome_eq
      have hc : c.ip = none := by simpa [hb] using hbc.isSome_eq.symm
      rw [ruleCovers_name ha hb] at hab
      rw [ruleCovers_name hb hc] at hbc
      exact (ruleCovers_name ha hc).mpr (hab.trans hbc)
    · have hab := (ruleCovers_ip (.inr hb)).mp hab
      have hbc := (ruleCovers_ip (.inl hb)).mp hbc
      exact (ruleCovers_ip (.inl (hab ▸ hb))).mpr (hab.trans hbc)
  inLine := by
    intro a b c hac hbc
    by_cases hc : c.ip = none
    · have ha : a.ip = none := by simpa [hc] using hac.isSome_eq
      have hb : b.ip = none := by simpa [hc] using hbc.isSome_eq
      rw [ruleCovers_name ha hc] at hac
      rw [ruleCovers_name hb hc] at hbc
      rw [ruleCovers_name ha hb, ruleCovers_name hb ha]
      exact suffix_or_suffix_of_suffix hac hbc
    · have hac := (ruleCovers_ip (.inr hc)).mp hac
      have hbc := (ruleCovers_ip (.inr hc)).mp hbc
      exact .inl ((ruleCovers_ip (.inl (hac ▸ hc))).mpr (hac.trans hbc.symm))

theorem narrowerRule_picks : Picks RuleCovers narrowerRule where
  narrower := by
    intro a b x hx
    unfold narrowerRule at hx
    split_ifs at hx with hab hba
    · exact .inr ⟨hab, (Option.some.inj hx).symm⟩
    · exact .inl ⟨hba, (Option.some.inj hx).symm⟩
  apart := by
    intro a b hnone
    unfold narrowerRule at hnone
    split_ifs at hnone with hab hba
    exact ⟨hab, hba⟩

/-! ### Canonical names -/

/-- The characters of a canonical name or address. -/
def plain (c : Char) : Bool := c.isDigit || c.isLower || c == '-' || c == '.' || c == ':'

/-- What the parsers outside do with their own output: the text of an address is read as that
address, and an encoded name is encoded as itself. -/
structure Platform.Stable (platform : Platform) : Prop where
  address : ∀ text address, platform.ipAddress text = some address →
    ¬ ('%' ∈ text.toList ∧ ':' ∈ text.toList) →
    platform.ipAddress (platform.compressed address) = some address ∧
      platform.compressed address ≠ "" ∧ (platform.compressed address).toList.all plain = true
  name : ∀ value ascii candidate, platform.idnaEncode value = some ascii →
    withoutRootDot ascii.toLower.toList = .ok candidate →
    platform.idnaEncode (String.ofList candidate) = some (String.ofList candidate)
  letters : ∀ value ascii, platform.idnaEncode value = some ascii →
    ∀ c ∈ ascii.toList, c.isAlphanum = true ∨ c = '-' ∨ c = '.'

variable {c : Char}

theorem plain_iff : plain c = true ↔ (48 ≤ c.toNat ∧ c.toNat ≤ 57) ∨
    (97 ≤ c.toNat ∧ c.toNat ≤ 122) ∨ c = '-' ∨ c = '.' ∨ c = ':' := by
  simp only [plain, Char.isDigit, Char.isLower, Bool.or_eq_true, Bool.and_eq_true, beq_iff_eq,
    decide_eq_true_eq, UInt32.le_iff_toNat_le, ge_iff_le, or_assoc]
  exact Iff.rfl

theorem toLower_of_plain (h : plain c = true) : c.toLower = c := by
  refine dif_neg fun hupper => ?_
  simp only [UInt32.le_iff_toNat_le, ge_iff_le] at hupper
  change 65 ≤ c.toNat ∧ c.toNat ≤ 90 at hupper
  rcases plain_iff.mp h with h | h | rfl | rfl | rfl
  · omega
  · omega
  · exact absurd hupper (by decide)
  · exact absurd hupper (by decide)
  · exact absurd hupper (by decide)

theorem plain_toLower (h : c.isAlphanum = true ∨ c = '-' ∨ c = '.') : plain c.toLower = true := by
  rcases h with h | rfl | rfl
  · by_cases hupper : c.val ≥ 'A'.val ∧ c.val ≤ 'Z'.val
    · have hlower : c.toLower.toNat = c.toNat + 32 := by
        rw [Char.toLower, dif_pos hupper]
        simp only [UInt32.le_iff_toNat_le, ge_iff_le] at hupper
        change 65 ≤ c.toNat ∧ c.toNat ≤ 90 at hupper
        change (c.val + 32).toNat = c.val.toNat + 32
        rw [UInt32.toNat_add]
        change (c.toNat + 32) % 4294967296 = c.toNat + 32
        omega
      simp only [UInt32.le_iff_toNat_le, ge_iff_le] at hupper
      change 65 ≤ c.toNat ∧ c.toNat ≤ 90 at hupper
      exact plain_iff.mpr (.inr (.inl (by omega)))
    · rw [Char.toLower, dif_neg hupper]
      have hnot : c.isUpper = false := by simpa [Char.isUpper] using hupper
      rw [Char.isAlphanum, Char.isAlpha, hnot, Bool.false_or, Bool.or_eq_true] at h
      rcases h with h | h <;> simp [plain, h]
  · decide
  · decide

theorem not_isSpace_of_plain (h : plain c = true) : isSpace c = false := by
  rcases plain_iff.mp h with h | h | rfl | rfl | rfl
  · simp [isSpace]
    omega
  · simp [isSpace]
    omega
  · decide
  · decide
  · decide

/-- The text of a canonical host. -/
structure PlainText (text : String) : Prop where
  nonempty : text ≠ ""
  plain : ∀ c ∈ text.toList, plain c = true

namespace PlainText
variable {text : String}

theorem not_mem (h : PlainText text) {c : Char} (hc : Network.plain c = false) : c ∉ text.toList := by
  intro hmem
  rw [h.plain c hmem] at hc
  cases hc

theorem containsControlCharacter_eq (h : PlainText text) :
    containsControlCharacter text = false := by
  rw [containsControlCharacter, any_eq_false]
  intro c hc
  simp only [Bool.or_eq_true, beq_iff_eq, decide_eq_true_eq, not_or, UInt32.lt_iff_toNat_lt, not_lt]
  change 32 ≤ c.toNat ∧ ¬ c.val = 0x7F
  have hne : c.toNat ≠ 127 → ¬ c.val = 0x7F := fun hne he => hne (congrArg UInt32.toNat he)
  rcases plain_iff.mp (h.plain c hc) with h | h | rfl | rfl | rfl
  · exact ⟨by omega, hne (by omega)⟩
  · exact ⟨by omega, hne (by omega)⟩
  · decide
  · decide
  · decide

theorem strip_eq (h : PlainText text) : strip text.toList = text.toList := by
  have hdrop : text.toList.dropWhile isSpace = text.toList := by
    cases hl : text.toList with
    | nil => rfl
    | cons c l =>
      refine dropWhile_cons_of_neg ?_
      rw [not_isSpace_of_plain (h.plain c (hl ▸ mem_cons_self))]
      exact Bool.false_ne_true
  rw [strip, hdrop]
  refine rdropWhile_eq_self_iff.mpr fun hne => ?_
  rw [not_isSpace_of_plain (h.plain _ (getLast_mem hne))]
  exact Bool.false_ne_true

theorem toLower_eq (h : PlainText text) : text.toLower = text := by
  rw [← String.toList_inj, String.toLower, String.toList_map]
  refine (map_congr_left fun c hc => ?_).trans (map_id _)
  exact toLower_of_plain (h.plain c hc)

end PlainText

/-! ### Canonical hosts -/

theorem withoutRootDot_ok {name candidate : List Char} (h : withoutRootDot name = .ok candidate) :
    candidate ≠ [] ∧ candidate ⊆ name ∧ withoutRootDot candidate = .ok candidate := by
  have hfix : ∀ l : List Char, l ≠ [] → ¬ ['.', '.'] <:+: l → ¬ ['.'] <:+ l →
      withoutRootDot l = .ok l := by
    intro l hne hdots hdot
    have hdots' : ¬ ['.', '.'] <:+ l := fun hs => hdots hs.isInfix
    simp only [withoutRootDot, isSuffixOf_iff_suffix]
    rw [if_neg hdots', if_neg hdot, if_neg (not_or.mpr ⟨hne, hdots⟩)]
  simp only [withoutRootDot, isSuffixOf_iff_suffix] at h
  split_ifs at h with hdots hdot hbad hbad
  · cases h
    obtain ⟨hne, hinner⟩ := not_or.mp hbad
    obtain ⟨l, rfl⟩ := hdot
    rw [dropLast_concat] at hne hinner ⊢
    refine ⟨hne, subset_append_left _ _, hfix l hne hinner ?_⟩
    rintro ⟨l', rfl⟩
    exact hdots ⟨l', by simp⟩
  · cases h
    obtain ⟨hne, hinner⟩ := not_or.mp hbad
    exact ⟨hne, List.Subset.refl _, hfix name hne hinner hdot⟩

section
variable {platform : Platform} (hstable : platform.Stable)
include hstable

theorem canonicalizeHost_address {text : String} {address : IPAddress}
    (h : platform.ipAddress text = some address)
    (hscope : ¬ ('%' ∈ text.toList ∧ ':' ∈ text.toList)) : PlainText (platform.compressed address) ∧
      canonicalizeHost platform (platform.compressed address) =
        .ok ⟨platform.compressed address, some address⟩ := by
  obtain ⟨hparsed, hne, hall⟩ := hstable.address text address h hscope
  have hplain : PlainText (platform.compressed address) := ⟨hne, all_eq_true.mp hall⟩
  refine ⟨hplain, ?_⟩
  have hpercent : '%' ∉ (platform.compressed address).toList := hplain.not_mem (by decide)
  rw [canonicalizeHost, if_neg (by simp [hne, hplain.containsControlCharacter_eq]),
    if_neg fun h => hpercent h.1, hparsed]

/-- **A canonical host is read back from its text.** -/
theorem canonicalizeHost_stable {value : String} {host : CanonicalHost}
    (h : canonicalizeHost platform value = .ok host) :
    PlainText host.value ∧ canonicalizeHost platform host.value = .ok host := by
  unfold canonicalizeHost at h
  split_ifs at h with hbad hscope
  cases hip : platform.ipAddress value with
  | some parsed =>
    simp only [hip] at h
    cases h
    exact canonicalizeHost_address hstable hip hscope
  | none =>
    cases hidna : platform.idnaEncode value with
    | none =>
      simp only [hip, hidna] at h
      cases h
    | some ascii =>
      cases hroot : withoutRootDot ascii.toLower.toList with
      | error e =>
        simp only [hip, hidna, hroot] at h
        cases h
      | ok candidate =>
        obtain ⟨hne, hsubset, hfix⟩ := withoutRootDot_ok hroot
        have hplain : PlainText (String.ofList candidate) := by
          refine ⟨fun he => hne ?_, fun c hc => ?_⟩
          · simpa using congrArg String.toList he
          · rw [String.toList_ofList] at hc
            have hmem := hsubset hc
            rw [String.toLower, String.toList_map] at hmem
            obtain ⟨d, hd, rfl⟩ := mem_map.mp hmem
            exact plain_toLower (hstable.letters value ascii hidna d hd)
        cases hmapped : platform.ipAddress (String.ofList candidate) with
        | some mapped =>
          have hok : (⟨platform.compressed mapped, some mapped⟩ : CanonicalHost) = host := by
            simpa [hip, hidna, hroot, hmapped, bind, Except.bind, pure, Except.pure] using h
          rw [← hok]
          refine canonicalizeHost_address hstable hmapped fun hboth => ?_
          exact hplain.not_mem (c := '%') (by decide) hboth.1
        | none =>
          have hok : (⟨String.ofList candidate, none⟩ : CanonicalHost) = host := by
            simpa [hip, hidna, hroot, hmapped, bind, Except.bind, pure, Except.pure] using h
          rw [← hok]
          refine ⟨hplain, ?_⟩
          have hpercent : '%' ∉ (String.ofList candidate).toList :=
            hplain.not_mem (by decide)
          have hidna' := hstable.name value ascii candidate hidna hroot
          have hlower : (String.ofList candidate).toLower.toList = candidate := by
            rw [hplain.toLower_eq, String.toList_ofList]
          rw [canonicalizeHost, if_neg (by
            simp [hplain.nonempty, hplain.containsControlCharacter_eq]),
            if_neg fun h => hpercent h.1, hmapped]
          simp [hidna', hlower, hfix, hmapped, bind, Except.bind, pure, Except.pure]

theorem canonicalizeDomainRule_stable {value : String} {rule : CanonicalHost}
    (h : canonicalizeDomainRule platform value = .ok rule) :
    PlainText rule.value ∧ canonicalizeDomainRule platform rule.value = .ok rule := by
  have hhost : ∃ text, canonicalizeHost platform text = .ok rule := by
    unfold canonicalizeDomainRule at h
    dsimp only at h
    split_ifs at h
    · exact ⟨_, h⟩
    · exact ⟨_, h⟩
  obtain ⟨text, htext⟩ := hhost
  obtain ⟨hplain, hfix⟩ := canonicalizeHost_stable hstable htext
  refine ⟨hplain, ?_⟩
  have hopened : rule.value.toList.head? ≠ some '[' := by
    intro hhead
    exact hplain.not_mem (c := '[') (by decide) (mem_of_head? hhead)
  have hclosed : rule.value.toList.getLast? ≠ some ']' := by
    intro hlast
    exact hplain.not_mem (c := ']') (by decide) (mem_of_getLast? hlast)
  have hsyntax : rule.value.toList.any (· ∈ ['/', '?', '#', '@']) = false := by
    rw [any_eq_false]
    intro c hc hmem
    have hplainChar := hplain.plain c hc
    simp only [mem_cons, not_mem_nil, or_false, decide_eq_true_eq] at hmem
    rcases hmem with rfl | rfl | rfl | rfl <;> exact absurd hplainChar (by decide)
  unfold canonicalizeDomainRule
  simp only [hopened, hclosed, hsyntax, hplain.nonempty, hplain.containsControlCharacter_eq]
  simpa using hfix

end

/-! ### Lists of rules -/

def Settled (platform : Platform) (rule : CanonicalHost) : Prop :=
  canonicalizeDomainRule platform rule.value = .ok rule

variable {platform : Platform}

theorem covers_firsts {rules : List CanonicalHost}
    (hsettled : ∀ rule ∈ rules, Settled platform rule) (host : CanonicalHost) :
    Covers RuleCovers (Distinct.firsts CanonicalHost.key rules) host ↔
      Covers RuleCovers rules host := by
  constructor
  · rintro ⟨rule, hrule, hcovers⟩
    exact ⟨rule, Distinct.mem_of_mem_firsts hrule, hcovers⟩
  · rintro ⟨rule, hrule, hcovers⟩
    obtain ⟨first, hfirst, hkey⟩ := @Distinct.exists_mem_firsts _ _ _ CanonicalHost.key _ _ hrule
    have hvalue : first.value = rule.value := (Prod.mk.inj hkey).1
    have hsame := hsettled first (Distinct.mem_of_mem_firsts hfirst)
    rw [Settled, hvalue, hsettled rule hrule] at hsame
    obtain rfl : rule = first := Except.ok.inj hsame
    exact ⟨rule, hfirst, hcovers⟩

theorem firsts_eq_nil_iff {α κ : Type*} [DecidableEq κ] {key : α → κ} {l : List α} :
    Distinct.firsts key l = [] ↔ l = [] := by
  cases l <;> simp [Distinct.firsts]

/-- The rules a list of canonical names stands for. -/
def rulesOf (platform : Platform) (values : List String) : List CanonicalHost :=
  values.filterMap fun value => (canonicalizeDomainRule platform value).toOption

/-- Every entry of a list is the text of a rule. -/
def Canonical (platform : Platform) (values : List String) : Prop :=
  ∀ value ∈ values, ∃ rule, canonicalizeDomainRule platform value = .ok rule ∧ rule.value = value

theorem mem_rulesOf {values : List String} {rule : CanonicalHost} : rule ∈ rulesOf platform values ↔
      ∃ value ∈ values, canonicalizeDomainRule platform value = .ok rule := by
  simp only [rulesOf, mem_filterMap]
  refine exists_congr fun value => and_congr_right fun _ => ?_
  cases canonicalizeDomainRule platform value <;> simp [Except.toOption]

section
variable {platform : Platform} {values : List String}

theorem Canonical.settled (h : Canonical platform values) :
    ∀ rule ∈ rulesOf platform values, Settled platform rule := by
  intro rule hrule
  obtain ⟨value, hvalue, hok⟩ := mem_rulesOf.mp hrule
  obtain ⟨rule', hok', hname⟩ := h value hvalue
  obtain rfl : rule = rule' := Except.ok.inj (hok.symm.trans hok')
  rw [Settled, hname]
  exact hok

theorem Canonical.rulesOf_eq_nil_iff (h : Canonical platform values) :
    rulesOf platform values = [] ↔ values = [] := by
  constructor
  · intro hnil
    rw [eq_nil_iff_forall_not_mem]
    intro value hvalue
    obtain ⟨rule, hok, -⟩ := h value hvalue
    have hmem := mem_rulesOf.mpr ⟨value, hvalue, hok⟩
    rw [hnil] at hmem
    cases hmem
  · rintro rfl
    rfl

/-- **Canonicalizing canonical names does not fail.** -/
theorem canonicalizeDomainRules_ok (h : Canonical platform values) :
    canonicalizeDomainRules platform values =
      .ok (Distinct.firsts CanonicalHost.key (rulesOf platform values)) := by
  have hmap : values.mapM (canonicalizeDomainRule platform) = .ok (rulesOf platform values) := by
    induction values with
    | nil => rfl
    | cons value values ih =>
      obtain ⟨rule, hok, -⟩ := h value mem_cons_self
      have ih := ih fun v hv => h v (mem_cons_of_mem _ hv)
      have hcons : rulesOf platform (value :: values) = rule :: rulesOf platform values := by
        rw [rulesOf, filterMap_cons, hok]
        rfl
      rw [mapM_cons, hok, ok_bind, ih, ok_bind, hcons]
      rfl
  rw [canonicalizeDomainRules, hmap]
  rfl

theorem readDomainList_canonical (hstable : platform.Stable) {value : Documents.Json}
    {domains : Option (List String)} (h : readDomainList platform value = .ok domains) :
    Canonical platform (domains.getD []) := by
  have hread : ∀ item host, readDomain platform item = .ok host →
      ∃ rule, canonicalizeDomainRule platform host = .ok rule ∧ rule.value = host := by
    intro item host hhost
    cases item with
    | str raw =>
      simp only [readDomain, canonicalHostOf] at hhost
      cases hrule : canonicalizeDomainRule platform (String.ofList
          (if (strip raw.toList).head? = some '.' then (strip raw.toList).tail
            else strip raw.toList)) with
      | error e =>
        rw [hrule] at hhost
        cases hhost
      | ok rule =>
        rw [hrule] at hhost
        cases hhost
        exact ⟨rule, (canonicalizeDomainRule_stable hstable hrule).2, rfl⟩
    | null => cases hhost
    | bool b => cases hhost
    | num q => cases hhost
    | arr items => cases hhost
    | obj fields => cases hhost
  unfold readDomainList at h
  split at h
  · cases h
    intro value hvalue
    cases hvalue
  · split_ifs at h
    obtain ⟨hosts, hhosts, h⟩ := bind_eq_ok.mp h
    cases h
    intro host hhost
    split_ifs at hhost
    · cases hhost
    · obtain ⟨item, -, hitem⟩ := exists_of_mem_mapM hhosts (Distinct.mem_of_mem_firsts hhost)
      exact hread item host hitem
  · cases h

end

/-! ### Composition -/

theorem covers_intersect {first second : List CanonicalHost}
    (hfirst : ∀ rule ∈ first, Settled platform rule)
    (hsecond : ∀ rule ∈ second, Settled platform rule) (host : CanonicalHost) :
    Covers RuleCovers (Distinct.firsts CanonicalHost.key
        (first.flatMap fun left => second.filterMap (narrowerRule left))) host ↔
      Covers RuleCovers first host ∧ Covers RuleCovers second host := by
  have hmeet : ∀ rule ∈ Forest.meet narrowerRule first second, Settled platform rule := by
    intro rule hrule
    obtain ⟨left, hleft, right, hright, hpick⟩ := mem_meet.mp hrule
    rcases narrowerRule_picks.narrower hpick with ⟨-, rfl⟩ | ⟨-, rfl⟩
    · exact hfirst _ hleft
    · exact hsecond _ hright
  exact (covers_firsts hmeet host).trans (covers_meet rules_forest narrowerRule_picks host)

/-- What an allow list allows: everything, where there is none. -/
def Allows (rules : List CanonicalHost) (host : CanonicalHost) : Prop :=
  rules = [] ∨ Covers RuleCovers rules host

theorem permits_iff (policy : DomainPolicy) (host : CanonicalHost) : policy.permits host = true ↔
      ¬ Covers RuleCovers policy.blocked host ∧ Allows policy.allowed host := by
  have hany : ∀ rules : List CanonicalHost,
      rules.any (domainRuleMatches · host) = true ↔ Covers RuleCovers rules host := by
    intro rules
    simp [Covers, RuleCovers]
  unfold DomainPolicy.permits
  rw [← hany, Allows, ← hany]
  cases policy.blocked.any (domainRuleMatches · host) <;> simp

theorem getD_orNone {α : Type*} (l : List α) : (orNone l).getD [] = l := by
  cases l <;> rfl

section
variable {platform : Platform} {first second : List CanonicalHost}
  (hfirst : ∀ rule ∈ first, Settled platform rule) (hsecond : ∀ rule ∈ second, Settled platform rule)
include hfirst hsecond

/-- **Two lists intersect in what both allow**, or no host is covered by both. -/
theorem intersectDomainAllowLists_spec :
    (intersectDomainAllowLists (orNone first) (orNone second) = none ↔ first ≠ [] ∧ second ≠ [] ∧
        ∀ host, ¬ (Covers RuleCovers first host ∧ Covers RuleCovers second host)) ∧
    ∀ allowed, intersectDomainAllowLists (orNone first) (orNone second) = some allowed →
      ∀ host, Allows (allowed.getD []) host ↔ Allows first host ∧ Allows second host := by
  by_cases hnil : first = []
  · subst hnil
    refine ⟨by simp [orNone, intersectDomainAllowLists], fun allowed hallowed host => ?_⟩
    obtain rfl : orNone second = allowed := Option.some.inj hallowed
    rw [getD_orNone]
    simp [Allows]
  by_cases hnil' : second = []
  · subst hnil'
    cases first with
    | nil => exact absurd rfl hnil
    | cons rule rules =>
      refine ⟨by simp [orNone, intersectDomainAllowLists], fun allowed hallowed host => ?_⟩
      obtain rfl : orNone (rule :: rules) = allowed := Option.some.inj hallowed
      rw [getD_orNone]
      simp [Allows]
  have hsome : ∀ {l : List CanonicalHost}, l ≠ [] → orNone l = some l := by
    intro l hl
    rw [orNone, if_neg (by simpa using hl)]
  have hcovers := covers_intersect hfirst hsecond
  rw [hsome hnil, hsome hnil']
  simp only [intersectDomainAllowLists, if_neg hnil, if_neg hnil']
  split_ifs with hempty
  · have hmeet := firsts_eq_nil_iff.mp hempty
    refine ⟨iff_of_true rfl ⟨hnil, hnil', ?_⟩, fun allowed hallowed => by cases hallowed⟩
    exact (meet_eq_nil_iff rules_forest narrowerRule_picks).mp hmeet
  · refine ⟨iff_of_false (by simp) fun hnone => hempty ?_, fun allowed hallowed host => ?_⟩
    · exact firsts_eq_nil_iff.mpr
        ((meet_eq_nil_iff rules_forest narrowerRule_picks).mpr hnone.2.2)
    · cases hallowed
      simp only [Allows, Option.getD_some, hempty, hnil, hnil', false_or]
      exact hcovers host

end

section
variable {platform : Platform} {first second : Option (List CanonicalHost)}
  (hfirst : ∀ rule ∈ first.getD [], Settled platform rule)
  (hsecond : ∀ rule ∈ second.getD [], Settled platform rule)
include hfirst hsecond

theorem settled_append : ∀ rule ∈ first.getD [] ++ second.getD [], Settled platform rule :=
  fun rule hrule => (mem_append.mp hrule).elim (hfirst rule) (hsecond rule)

theorem settled_union : ∀ rule ∈ unionDomainBlockLists first second, Settled platform rule :=
  fun rule hrule => settled_append hfirst hsecond rule (Distinct.mem_of_mem_firsts hrule)

theorem covers_union (host : CanonicalHost) :
    Covers RuleCovers (unionDomainBlockLists first second) host ↔
      Covers RuleCovers (first.getD []) host ∨ Covers RuleCovers (second.getD []) host := by
  rw [unionDomainBlockLists, ← Covers.append]
  exact covers_firsts (settled_append hfirst hsecond) host

end

end Otari.Network
