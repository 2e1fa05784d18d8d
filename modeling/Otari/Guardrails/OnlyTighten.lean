import Otari.Guardrails.Layers

/-!
# Guardrails — OnlyTighten — what the layers make of a profile

Every profile's effective entry is the caller's last entry of it with every mandate of it laid over,
in order (`mem_configs`): stricter on both axes than each of them, and otherwise the last mandate's.
So the mandates only tighten, and what the merge may lose is an earlier entry of a profile the
caller names more than once (`only_tightens_iff`).
-/

namespace Otari.Guardrails
open Documents

/-- The same check: all but how it is enforced. -/
structure SameCheck (a b : GuardrailConfig) : Prop where
  profile : a.profile = b.profile
  url : a.url = b.url
  directions : a.directions = b.directions
  validateKwargs : a.validateKwargs = b.validateKwargs

theorem SameCheck.refl (g : GuardrailConfig) : SameCheck g g := ⟨rfl, rfl, rfl, rfl⟩

theorem sameCheck_tightened (g below : GuardrailConfig) : SameCheck (tightened g below) g :=
  ⟨rfl, rfl, rfl, rfl⟩

/-- The same check, enforced at least as strictly. -/
structure AtLeast (a b : GuardrailConfig) : Prop extends SameCheck a b where
  mode : b.mode = .block → a.mode = .block
  onUnavailable : b.onUnavailable = .block → a.onUnavailable = .block

theorem AtLeast.refl (g : GuardrailConfig) : AtLeast g g :=
  ⟨SameCheck.refl g, id, id⟩

@[simp] theorem stricter_eq_block {own below : Enforcement} :
    stricter own below = .block ↔ own = .block ∨ below = .block := by
  unfold stricter
  split <;> simp_all

/-! ### Guardrails of one profile, laid over each other -/

/-- Mandated guardrails of one profile over its entry. -/
def laidAll (below : Option GuardrailConfig) (mandated : List GuardrailConfig) :
    Option GuardrailConfig :=
  mandated.foldl (fun below guardrail => some (laidOver below guardrail)) below

theorem laidAll_cons (below : Option GuardrailConfig) (g : GuardrailConfig)
    (gs : List GuardrailConfig) : laidAll below (g :: gs) = laidAll (some (laidOver below g)) gs :=
  rfl

/-- An axis on which the stricter setting wins. -/
def Tightens (axis : GuardrailConfig → Enforcement) : Prop :=
  ∀ g below, axis (tightened g below) = stricter (axis g) (axis below)

theorem tightens_mode : Tightens GuardrailConfig.mode := fun _ _ => rfl

theorem tightens_onUnavailable : Tightens GuardrailConfig.onUnavailable := fun _ _ => rfl

theorem laidOver_eq_block {axis : GuardrailConfig → Enforcement} (ht : Tightens axis)
    (below : Option GuardrailConfig) (g : GuardrailConfig) : axis (laidOver below g) = .block ↔
      (∃ b, below = some b ∧ axis b = .block) ∨ axis g = .block := by
  cases below with
  | none => simp [laidOver]
  | some b =>
    simp only [laidOver, Option.elim_some, ht g b, stricter_eq_block, Option.some.injEq,
      exists_eq_left']
    exact or_comm

variable {below : Option GuardrailConfig} {gs : List GuardrailConfig}

theorem laidAll_eq_block {axis : GuardrailConfig → Enforcement} (ht : Tightens axis)
    {e : GuardrailConfig} (h : laidAll below gs = some e) : axis e = .block ↔
      (∃ b, below = some b ∧ axis b = .block) ∨ ∃ g ∈ gs, axis g = .block := by
  induction gs generalizing below with
  | nil =>
    obtain rfl : below = some e := h
    simp
  | cons g gs ih =>
    rw [ih (laidAll_cons below g gs ▸ h)]
    simp only [Option.some.injEq, exists_eq_left', laidOver_eq_block ht, List.exists_mem_cons_iff]
    rw [or_assoc]

theorem exists_laidAll (h : below ≠ none ∨ gs ≠ []) : ∃ e, laidAll below gs = some e := by
  induction gs generalizing below with
  | nil => exact Option.ne_none_iff_exists'.mp (h.resolve_right (· rfl))
  | cons g gs ih => exact ih (.inl (Option.some_ne_none _))

theorem sameCheck_laidAll
    {e last : GuardrailConfig} (h : laidAll below gs = some e) (hlast : gs.getLast? = some last) :
    SameCheck e last := by
  obtain ⟨before, rfl⟩ := List.getLast?_eq_some_iff.mp hlast
  rw [laidAll, List.foldl_append] at h
  obtain rfl := Option.some.inj h
  cases before.foldl (fun below guardrail => some (laidOver below guardrail)) below with
  | none => exact SameCheck.refl last
  | some b => exact sameCheck_tightened last b

/-! ### The dictionary of the merge -/

def ofProfile (p : String) (gs : List GuardrailConfig) : List GuardrailConfig :=
  gs.filter (·.profile = p)

variable {g : GuardrailConfig}

@[simp] theorem mem_ofProfile {p : String} : g ∈ ofProfile p gs ↔ g ∈ gs ∧ g.profile = p := by
  simp [ofProfile]

theorem ofProfile_cons (p : String) (g : GuardrailConfig) (gs : List GuardrailConfig) :
    ofProfile p (g :: gs) = if g.profile = p then g :: ofProfile p gs else ofProfile p gs := by
  simp [ofProfile, List.filter_cons]

theorem get_overlayMandate (merged : List (String × GuardrailConfig)) (gs : List GuardrailConfig)
    (p : String) : get (overlayMandate merged gs) p = laidAll (get merged p) (ofProfile p gs) := by
  induction gs generalizing merged with
  | nil => rfl
  | cons g gs ih =>
    rw [overlayMandate, List.foldl_cons]
    refine (ih _).trans ?_
    rw [ofProfile_cons]
    split
    · rename_i hp
      subst hp
      rw [get_set_self, laidAll_cons]
    · rename_i hp
      rw [get_set_of_ne _ fun e => hp e.symm]

def lastRequested (requested : Option (List GuardrailConfig)) (p : String) :
    Option GuardrailConfig :=
  (ofProfile p (requested.getD [])).getLast?

theorem get_foldl_set (gs : List GuardrailConfig) (d : List (String × GuardrailConfig))
    (p : String) : get (gs.foldl (fun merged g => set merged g.profile g) d) p =
      (ofProfile p gs).getLast?.or (get d p) := by
  induction gs generalizing d with
  | nil => rfl
  | cons g gs ih =>
    rw [List.foldl_cons, ih, ofProfile_cons]
    split
    · rename_i hp
      subst hp
      rw [get_set_self, List.getLast?_cons]
      cases (ofProfile g.profile gs).getLast? <;> rfl
    · rename_i hp
      rw [get_set_of_ne _ fun e => hp e.symm]

theorem get_byProfile (requested : Option (List GuardrailConfig)) (p : String) :
    get (byProfile requested) p = lastRequested requested p := by
  rw [byProfile, get_foldl_set]
  exact Option.or_none

/-- A dictionary of guardrails under their own profiles. -/
structure Keyed (merged : List (String × GuardrailConfig)) : Prop where
  nodup : (merged.map Prod.fst).Nodup
  profile : ∀ entry ∈ merged, entry.2.profile = entry.1

variable {merged : List (String × GuardrailConfig)}

theorem Keyed.set (h : Keyed merged)
    {p : String} (hp : g.profile = p) : Keyed (set merged p g) where
  nodup := nodup_set h.nodup p g
  profile entry hentry := by
    rcases mem_set hentry with rfl | hentry
    · exact hp
    · exact h.profile entry hentry

theorem keyed_foldl_set (gs : List GuardrailConfig) {d : List (String × GuardrailConfig)}
    (h : Keyed d) : Keyed (gs.foldl (fun merged g => Documents.set merged g.profile g) d) := by
  induction gs generalizing d with
  | nil => exact h
  | cons g gs ih => exact ih (h.set rfl)

theorem keyed_byProfile (requested : Option (List GuardrailConfig)) : Keyed (byProfile requested) :=
  keyed_foldl_set _ ⟨List.nodup_nil, fun _ hentry => absurd hentry List.not_mem_nil⟩

theorem profile_laidOver (below : Option GuardrailConfig) (g : GuardrailConfig) :
    (laidOver below g).profile = g.profile := by
  cases below <;> rfl

theorem Keyed.overlayMandate (h : Keyed merged)
    (gs : List GuardrailConfig) : Keyed (overlayMandate merged gs) := by
  induction gs generalizing merged with
  | nil => exact h
  | cons g gs ih => exact ih (h.set (profile_laidOver _ g))

theorem Keyed.mem_values (h : Keyed merged)
    : g ∈ merged.map Prod.snd ↔ get merged g.profile = some g := by
  constructor
  · intro hg
    obtain ⟨entry, hentry, rfl⟩ := List.mem_map.mp hg
    rw [h.profile entry hentry]
    exact get_of_mem h.nodup hentry
  · intro hg
    exact List.mem_map_of_mem (mem_of_get hg)

theorem Keyed.nodup_profiles (h : Keyed merged) :
    ((merged.map Prod.snd).map GuardrailConfig.profile).Nodup := by
  have hsame : (merged.map Prod.snd).map GuardrailConfig.profile = merged.map Prod.fst := by
    rw [List.map_map]
    exact List.map_congr_left h.profile
  rw [hsame]
  exact h.nodup

/-! ### The merge -/

section
variable {plan requested : Option (List GuardrailConfig)}
  {organization : List ResolvedOrganizationGuardrail}

/-- Both mandating layers, the outermost last. -/
def mandates (plan : Option (List GuardrailConfig))
    (organization : List ResolvedOrganizationGuardrail) : List GuardrailConfig :=
  organization.map (·.config) ++ plan.getD []

theorem merged_overlayOrganization (organization : List ResolvedOrganizationGuardrail) (m : Merge) :
    (organization.foldl overlayOrganization m).merged =
      overlayMandate m.merged (organization.map (·.config)) := by
  induction organization generalizing m with
  | nil => rfl
  | cons entry organization ih => exact ih _

theorem credentials_overlayOrganization (organization : List ResolvedOrganizationGuardrail)
    (m : Merge) : (organization.foldl overlayOrganization m).credentials =
      organization.foldl (fun d entry =>
        setSome d entry.config.profile (entry.credential.filter (· ≠ ""))) m.credentials := by
  induction organization generalizing m with
  | nil => rfl
  | cons entry organization ih => exact ih _

theorem inProcess_overlayOrganization (organization : List ResolvedOrganizationGuardrail)
    (m : Merge) : (organization.foldl overlayOrganization m).inProcess =
      organization.foldl (fun d entry =>
        setSome d entry.config.profile entry.definitionId) m.inProcess := by
  induction organization generalizing m with
  | nil => rfl
  | cons entry organization ih => exact ih _

theorem claimed_policy (policy : List GuardrailConfig) (m : Merge) :
    (policy.foldl claimed m).merged = m.merged ∧ (policy.foldl claimed m).credentials =
        policy.foldl (fun d g => without [g.profile] d) m.credentials ∧
      (policy.foldl claimed m).inProcess =
        policy.foldl (fun d g => without [g.profile] d) m.inProcess := by
  induction policy generalizing m with
  | nil => exact ⟨rfl, rfl, rfl⟩
  | cons g policy ih => exact ih (claimed m g)

theorem configs_merge (h : mandates plan organization ≠ []) :
    (mergeGuardrailLayers plan requested organization).configs =
      some ((overlayMandate (byProfile requested) (mandates plan organization)).map Prod.snd) := by
  have hsome : (organization.isEmpty && (plan.getD []).isEmpty) = false := by
    by_contra hempty
    simp only [Bool.not_eq_false, Bool.and_eq_true, List.isEmpty_iff] at hempty
    exact h (by rw [mandates, hempty.1, hempty.2]; rfl)
  unfold mergeGuardrailLayers
  simp only [hsome, Bool.false_eq_true, if_false, (claimed_policy _ _).1,
    merged_overlayOrganization]
  rw [mandates, overlayMandate, overlayMandate, overlayMandate, List.foldl_append]

variable {e : GuardrailConfig}

/-- **The effective guardrails**: of each profile, the caller's last entry with the mandates laid
over it. -/
theorem mem_configs (h : mandates plan organization ≠ []) :
    e ∈ (mergeGuardrailLayers plan requested organization).configs.getD [] ↔
      laidAll (lastRequested requested e.profile)
        (ofProfile e.profile (mandates plan organization)) = some e := by
  rw [configs_merge h, Option.getD_some, ((keyed_byProfile requested).overlayMandate _).mem_values,
    get_overlayMandate, get_byProfile]

theorem configs_of_nothing (h : mandates plan organization = []) :
    mergeGuardrailLayers plan requested organization = { configs := requested } := by
  obtain ⟨horganization, hplan⟩ := List.append_eq_nil_iff.mp h
  simp [mergeGuardrailLayers, List.map_eq_nil_iff.mp horganization, hplan]

variable {g : GuardrailConfig}

theorem exists_effective (h : mandates plan organization ≠ [])
    (hg : g ∈ requested.getD [] ++ mandates plan organization) :
    ∃ e ∈ (mergeGuardrailLayers plan requested organization).configs.getD [],
      e.profile = g.profile ∧ laidAll (lastRequested requested g.profile)
        (ofProfile g.profile (mandates plan organization)) = some e := by
  obtain ⟨e, he⟩ : ∃ e, laidAll (lastRequested requested g.profile)
      (ofProfile g.profile (mandates plan organization)) = some e := by
    refine exists_laidAll ?_
    rcases List.mem_append.mp hg with hg | hg
    · refine .inl fun hnone => ?_
      have hmem : g ∈ ofProfile g.profile (requested.getD []) := mem_ofProfile.mpr ⟨hg, rfl⟩
      rw [List.getLast?_eq_none_iff.mp hnone] at hmem
      cases hmem
    · refine .inr fun hnil => ?_
      have hmem := mem_ofProfile.mpr ⟨hg, rfl⟩
      rw [hnil] at hmem
      cases hmem
  have hprofile : e.profile = g.profile := by
    cases hlast : (ofProfile g.profile (mandates plan organization)).getLast? with
    | none =>
      rw [List.getLast?_eq_none_iff.mp hlast] at he
      exact (mem_ofProfile.mp (List.mem_of_getLast? he)).2
    | some last =>
      rw [(sameCheck_laidAll he hlast).profile]
      exact (mem_ofProfile.mp (List.mem_of_getLast? hlast)).2
  exact ⟨e, (mem_configs h).mpr (by rw [hprofile]; exact he), hprofile, he⟩

theorem of_credential {p c : String}
    (h : get (mergeGuardrailLayers plan requested organization).credentials p = some c) :
    (∀ g ∈ plan.getD [], g.profile ≠ p) ∧
      ∃ entry ∈ organization, entry.config.profile = p ∧ entry.credential = some c := by
  unfold mergeGuardrailLayers at h
  dsimp only at h
  split at h
  · cases h
  · rw [(claimed_policy _ _).2.1] at h
    obtain ⟨hfree, h⟩ := get_foldl_without GuardrailConfig.profile h
    refine ⟨hfree, ?_⟩
    dsimp only at h
    rw [credentials_overlayOrganization] at h
    rcases get_foldl_setSome _ _ h with ⟨entry, hentry, hprofile, hvalue⟩ | h
    · exact ⟨entry, hentry, hprofile, (Option.filter_eq_some_iff.mp hvalue).1⟩
    · cases h

theorem of_inProcess {p d : String}
    (h : get (mergeGuardrailLayers plan requested organization).inProcess p = some d) :
    (∀ g ∈ plan.getD [], g.profile ≠ p) ∧
      ∃ entry ∈ organization, entry.config.profile = p ∧ entry.definitionId = some d := by
  unfold mergeGuardrailLayers at h
  dsimp only at h
  split at h
  · cases h
  · rw [(claimed_policy _ _).2.2] at h
    obtain ⟨hfree, h⟩ := get_foldl_without GuardrailConfig.profile h
    refine ⟨hfree, ?_⟩
    dsimp only at h
    rw [inProcess_overlayOrganization] at h
    rcases get_foldl_setSome _ _ h with hentry | h
    · exact hentry
    · cases h

/-- The layers only tighten: what each asks for is in the effective set, on each axis as strictly,
once for each profile where anything is mandated; a mandated check goes where its outermost layer
says; what the organization stored is kept for its own entries; and the caller's checks on other
profiles are as it asked. -/
structure OnlyTightens (plan requested : Option (List GuardrailConfig))
    (organization : List ResolvedOrganizationGuardrail) (effective : EffectiveGuardrails) :
    Prop where
  named : ∀ g ∈ requested.getD [] ++ mandates plan organization,
    ∃ e ∈ effective.configs.getD [], e.profile = g.profile
  mode : ∀ g ∈ requested.getD [] ++ mandates plan organization, g.mode = .block →
    ∃ e ∈ effective.configs.getD [], e.profile = g.profile ∧ e.mode = .block
  onUnavailable : ∀ g ∈ requested.getD [] ++ mandates plan organization,
    g.onUnavailable = .block →
    ∃ e ∈ effective.configs.getD [], e.profile = g.profile ∧ e.onUnavailable = .block
  once : mandates plan organization ≠ [] →
    ((effective.configs.getD []).map GuardrailConfig.profile).Nodup
  policyOwns : ∀ e ∈ effective.configs.getD [], (∃ g ∈ plan.getD [], g.profile = e.profile) →
    ∃ g ∈ plan.getD [], SameCheck e g
  organizationOwns : ∀ e ∈ effective.configs.getD [], (∀ g ∈ plan.getD [], g.profile ≠ e.profile) →
    (∃ entry ∈ organization, entry.config.profile = e.profile) →
    ∃ entry ∈ organization, SameCheck e entry.config
  credential : ∀ p c, get effective.credentials p = some c →
    (∃ e ∈ effective.configs.getD [], e.profile = p ∧ ∃ entry ∈ organization,
      SameCheck e entry.config) ∧
    (∀ g ∈ plan.getD [], g.profile ≠ p) ∧
    ∃ entry ∈ organization, entry.config.profile = p ∧ entry.credential = some c
  inProcess : ∀ p d, get effective.inProcess p = some d →
    (∃ e ∈ effective.configs.getD [], e.profile = p ∧ ∃ entry ∈ organization,
      SameCheck e entry.config) ∧
    (∀ g ∈ plan.getD [], g.profile ≠ p) ∧
    ∃ entry ∈ organization, entry.config.profile = p ∧ entry.definitionId = some d
  unmandated : ∀ g ∈ requested.getD [], (∀ m ∈ mandates plan organization, m.profile ≠ g.profile) →
    ∃ e ∈ effective.configs.getD [], AtLeast e g

/-- Of a profile the caller repeats, its last entry loses nothing of the earlier ones that no
mandate makes up for; or nothing is mandated. -/
def LastSuffices (plan requested : Option (List GuardrailConfig))
    (organization : List ResolvedOrganizationGuardrail) : Prop :=
  mandates plan organization = [] ∨
    ∀ g ∈ requested.getD [], ∀ last, lastRequested requested g.profile = some last →
      (g.mode = .block → last.mode = .block ∨
        ∃ m ∈ mandates plan organization, m.profile = g.profile ∧ m.mode = .block) ∧
      (g.onUnavailable = .block → last.onUnavailable = .block ∨
        ∃ m ∈ mandates plan organization, m.profile = g.profile ∧ m.onUnavailable = .block) ∧
      ((∀ m ∈ mandates plan organization, m.profile ≠ g.profile) → SameCheck last g)

theorem onlyTightens_of_nothing (h : mandates plan organization = []) :
    OnlyTightens plan requested organization { configs := requested } := by
  obtain ⟨horganization, hplan⟩ := List.append_eq_nil_iff.mp h
  obtain rfl := List.map_eq_nil_iff.mp horganization
  constructor
  case named => simpa [h] using fun g hg => ⟨g, hg, rfl⟩
  case mode => simpa [h] using fun g hg hb => ⟨g, hg, rfl, hb⟩
  case onUnavailable => simpa [h] using fun g hg hb => ⟨g, hg, rfl, hb⟩
  case once => exact fun hne => absurd h hne
  case policyOwns => simp [hplan]
  case organizationOwns => simp
  case credential => intro p c hc; cases hc
  case inProcess => intro p d hd; cases hd
  case unmandated => exact fun g hg _ => ⟨g, hg, AtLeast.refl g⟩

theorem sameCheck_effective (h : mandates plan organization ≠ [])
    (he : e ∈ (mergeGuardrailLayers plan requested organization).configs.getD []) :
    ((∃ g ∈ plan.getD [], g.profile = e.profile) → ∃ g ∈ plan.getD [], SameCheck e g) ∧
      ((∀ g ∈ plan.getD [], g.profile ≠ e.profile) →
        (∃ entry ∈ organization, entry.config.profile = e.profile) →
        ∃ entry ∈ organization, SameCheck e entry.config) := by
  have hlaid := (mem_configs h).mp he
  have hsplit : ofProfile e.profile (mandates plan organization) =
      ofProfile e.profile (organization.map (·.config)) ++ ofProfile e.profile (plan.getD []) :=
    List.filter_append ..
  constructor
  · rintro ⟨g, hg, hprofile⟩
    have hne : ofProfile e.profile (plan.getD []) ≠ [] :=
      List.ne_nil_of_mem (mem_ofProfile.mpr ⟨hg, hprofile⟩)
    obtain ⟨last, hlast⟩ := Option.ne_none_iff_exists'.mp (mt List.getLast?_eq_none_iff.mp hne)
    refine ⟨last, (mem_ofProfile.mp (List.mem_of_getLast? hlast)).1, sameCheck_laidAll hlaid ?_⟩
    rw [hsplit, List.getLast?_append, hlast]
    rfl
  · rintro hfree ⟨entry, hentry, hprofile⟩
    have hnil : ofProfile e.profile (plan.getD []) = [] :=
      List.filter_eq_nil_iff.mpr fun g hg => by simpa using hfree g hg
    have hne : ofProfile e.profile (organization.map (·.config)) ≠ [] :=
      List.ne_nil_of_mem (mem_ofProfile.mpr ⟨List.mem_map_of_mem hentry, hprofile⟩)
    obtain ⟨last, hlast⟩ := Option.ne_none_iff_exists'.mp (mt List.getLast?_eq_none_iff.mp hne)
    obtain ⟨hmem, -⟩ := mem_ofProfile.mp (List.mem_of_getLast? hlast)
    obtain ⟨own, hown, rfl⟩ := List.mem_map.mp hmem
    refine ⟨own, hown, sameCheck_laidAll hlaid ?_⟩
    rw [hsplit, hnil, List.append_nil, hlast]

variable {axis : GuardrailConfig → Enforcement}

theorem effective_eq_block (ht : Tightens axis)
    {last : GuardrailConfig} (hlast : lastRequested requested g.profile = some last)
    (he : laidAll (lastRequested requested g.profile)
      (ofProfile g.profile (mandates plan organization)) = some e) :
    axis e = .block ↔ axis last = .block ∨
      ∃ m ∈ mandates plan organization, m.profile = g.profile ∧ axis m = .block := by
  rw [laidAll_eq_block ht he, hlast]
  simp [and_assoc]

theorem effective_of_mandate (ht : Tightens axis)
    (hg : g ∈ mandates plan organization) (hblock : axis g = .block)
    (he : laidAll (lastRequested requested g.profile)
      (ofProfile g.profile (mandates plan organization)) = some e) : axis e = .block :=
  (laidAll_eq_block ht he).mpr (.inr ⟨g, mem_ofProfile.mpr ⟨hg, rfl⟩, hblock⟩)

theorem exists_lastRequested (hg : g ∈ requested.getD []) :
    ∃ last, lastRequested requested g.profile = some last := by
  refine Option.ne_none_iff_exists'.mp fun hnone => ?_
  have hmem := mem_ofProfile.mpr ⟨hg, rfl⟩
  rw [List.getLast?_eq_none_iff.mp hnone] at hmem
  cases hmem

theorem effective_of_layer (ht : Tightens axis) (h : mandates plan organization ≠ [])
    (hlast : ∀ g ∈ requested.getD [], ∀ last, lastRequested requested g.profile = some last →
      axis g = .block → axis last = .block ∨
        ∃ m ∈ mandates plan organization, m.profile = g.profile ∧ axis m = .block)
    (hg : g ∈ requested.getD [] ++ mandates plan organization) (hblock : axis g = .block) :
    ∃ e ∈ (mergeGuardrailLayers plan requested organization).configs.getD [],
      e.profile = g.profile ∧ axis e = .block := by
  obtain ⟨e, he, hprofile, hlaid⟩ := exists_effective h hg
  refine ⟨e, he, hprofile, ?_⟩
  rcases List.mem_append.mp hg with hown | hmandate
  · obtain ⟨last, hl⟩ := exists_lastRequested hown
    exact (effective_eq_block ht hl hlaid).mpr (hlast g hown last hl hblock)
  · exact effective_of_mandate ht hmandate hblock hlaid

theorem laidAll_unmandated (hfree : ∀ m ∈ mandates plan organization, m.profile ≠ g.profile) :
    laidAll (lastRequested requested g.profile)
      (ofProfile g.profile (mandates plan organization)) = lastRequested requested g.profile := by
  have hnil : ofProfile g.profile (mandates plan organization) = [] :=
    List.filter_eq_nil_iff.mpr fun m hm => by simpa using hfree m hm
  rw [hnil]
  rfl

theorem lastSuffices_of_onlyTightens (h : mandates plan organization ≠ [])
    (ht : OnlyTightens plan requested organization
      (mergeGuardrailLayers plan requested organization)) :
    LastSuffices plan requested organization := by
  refine .inr fun g hg last hlast => ⟨fun hb => ?_, fun hb => ?_, fun hfree => ?_⟩
  · obtain ⟨e, he, hprofile, hblock⟩ := ht.mode g (List.mem_append_left _ hg) hb
    have hlaid := (mem_configs h).mp he
    rw [hprofile] at hlaid
    exact (effective_eq_block tightens_mode hlast hlaid).mp hblock
  · obtain ⟨e, he, hprofile, hblock⟩ := ht.onUnavailable g (List.mem_append_left _ hg) hb
    have hlaid := (mem_configs h).mp he
    rw [hprofile] at hlaid
    exact (effective_eq_block tightens_onUnavailable hlast hlaid).mp hblock
  · obtain ⟨e, he, hsame⟩ := ht.unmandated g hg hfree
    have hlaid := (mem_configs h).mp he
    rw [hsame.profile, laidAll_unmandated hfree, hlast] at hlaid
    obtain rfl : last = e := Option.some.inj hlaid
    exact hsame.toSameCheck

theorem exists_owned (h : mandates plan organization ≠ []) {p : String}
    (hfree : ∀ g ∈ plan.getD [], g.profile ≠ p)
    (hnamed : ∃ entry ∈ organization, entry.config.profile = p) :
    ∃ e ∈ (mergeGuardrailLayers plan requested organization).configs.getD [],
      e.profile = p ∧ ∃ entry ∈ organization, SameCheck e entry.config := by
  obtain ⟨entry, hentry, rfl⟩ := hnamed
  have hmandate : entry.config ∈ mandates plan organization :=
    List.mem_append_left _ (List.mem_map_of_mem hentry)
  obtain ⟨e, he, hprofile, -⟩ :=
    exists_effective h (List.mem_append_right _ hmandate)
  exact ⟨e, he, hprofile, (sameCheck_effective h he).2 (hprofile ▸ hfree)
    ⟨entry, hentry, hprofile.symm⟩⟩

theorem onlyTightens_of_lastSuffices (h : mandates plan organization ≠ [])
    (hlast : LastSuffices plan requested organization) : OnlyTightens plan requested organization
      (mergeGuardrailLayers plan requested organization) := by
  have hlast := hlast.resolve_left h
  constructor
  case named =>
    intro g hg
    obtain ⟨e, he, hprofile, -⟩ := exists_effective h hg
    exact ⟨e, he, hprofile⟩
  case mode =>
    exact fun g hg hb => effective_of_layer tightens_mode h
      (fun g hg last hl => (hlast g hg last hl).1) hg hb
  case onUnavailable =>
    exact fun g hg hb => effective_of_layer tightens_onUnavailable h
      (fun g hg last hl => (hlast g hg last hl).2.1) hg hb
  case once =>
    intro _
    rw [configs_merge h]
    exact ((keyed_byProfile requested).overlayMandate _).nodup_profiles
  case policyOwns => exact fun e he => (sameCheck_effective h he).1
  case organizationOwns => exact fun e he => (sameCheck_effective h he).2
  case credential =>
    intro p c hc
    obtain ⟨hfree, entry, hentry, hprofile, hvalue⟩ := of_credential hc
    exact ⟨exists_owned h hfree ⟨entry, hentry, hprofile⟩, hfree, entry, hentry, hprofile, hvalue⟩
  case inProcess =>
    intro p d hd
    obtain ⟨hfree, entry, hentry, hprofile, hvalue⟩ := of_inProcess hd
    exact ⟨exists_owned h hfree ⟨entry, hentry, hprofile⟩, hfree, entry, hentry, hprofile, hvalue⟩
  case unmandated =>
    intro g hg hfree
    obtain ⟨e, he, hprofile, hlaid⟩ := exists_effective h (List.mem_append_left _ hg)
    obtain ⟨last, hl⟩ := exists_lastRequested hg
    rw [laidAll_unmandated hfree, hl] at hlaid
    obtain rfl : last = e := Option.some.inj hlaid
    obtain ⟨hmode, hunavailable, hsame⟩ := hlast g hg last hl
    refine ⟨last, he, hsame hfree, fun hb => ?_, fun hb => ?_⟩
    · exact (hmode hb).resolve_right fun ⟨m, hm, hp, _⟩ => hfree m hm hp
    · exact (hunavailable hb).resolve_right fun ⟨m, hm, hp, _⟩ => hfree m hm hp

/-- **The layers only tighten exactly when no earlier entry of a profile the caller repeats asks for
more than its last one**, the mandates of the profile included. -/
theorem only_tightens_iff (plan requested : Option (List GuardrailConfig))
    (organization : List ResolvedOrganizationGuardrail) :
    OnlyTightens plan requested organization (mergeGuardrailLayers plan requested organization) ↔
      LastSuffices plan requested organization := by
  by_cases h : mandates plan organization = []
  · rw [configs_of_nothing h]
    exact ⟨fun _ => .inl h, fun _ => onlyTightens_of_nothing h⟩
  · exact ⟨lastSuffices_of_onlyTightens h, onlyTightens_of_lastSuffices h⟩

end

/-- A caller that blocks on a profile and also observes it, and an organization that mandates
another: the block is lost. -/
theorem repeated_block_lost :
    ¬ ∀ plan requested organization, OnlyTightens plan requested organization
      (mergeGuardrailLayers plan requested organization) := by
  intro h
  obtain ⟨e, he, hprofile, hblock⟩ := (h none
    (some [{ profile := "pii", mode := .block }, { profile := "pii" }])
    [{ config := { profile := "injection" }, credential := none, definitionId := none }]).mode
    { profile := "pii", mode := .block } (by simp) rfl
  have hconfigs : (mergeGuardrailLayers none
      (some [{ profile := "pii", mode := .block }, { profile := "pii" }])
      [{ config := { profile := "injection" }, credential := none, definitionId := none }]).configs =
      some [{ profile := "pii" }, { profile := "injection" }] := by
    rfl
  rw [hconfigs] at he
  rcases List.mem_cons.mp he with rfl | he
  · cases hblock
  · obtain rfl := List.mem_singleton.mp he
    cases hblock

end Otari.Guardrails
