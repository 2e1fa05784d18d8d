import Otari.Access.AllowLists

/-!
# Access — SubsetExact — a list is within another when it permits no more

A validated entry is an instance and a model, the model plain or a stem and a trailing star
(`IsCanonical`), so what it matches is a predicate on the halves of a key (`matches_wild`,
`matches_plain`).  A plain entry matches one key, itself.  A wildcard is itself a key it matches, and
an entry that matches that key matches all the wildcard does, since no stem holds a star; so a list
that permits every key of an entry covers it by one of its own (`covers_iff`).
-/

namespace Otari.Access
open List hiding isEmpty_iff
open Pricing (Key partition selectorKey partition_append)

def IsCanonical (entry : Key) : Prop :=
  ∃ pre model, entry = selectorKey pre model ∧ pre ≠ [] ∧ (∀ c ∈ pre, c ≠ ':') ∧ model ≠ [] ∧
    ('*' ∈ model → ∃ stem, model = stem ++ ['*'] ∧ '*' ∉ stem)

/-! ### Validation -/

theorem of_splitSelector {selector pre model : Key} (h : splitSelector selector = some (pre, model)) :
    pre ≠ [] ∧ (∀ c ∈ pre, c ≠ ':') ∧ model ≠ [] := by
  unfold splitSelector at h
  obtain ⟨delimiter, hfind, h⟩ := Option.bind_eq_some_iff.mp h
  obtain ⟨-, before, after, rfl, hbefore⟩ := List.find?_eq_some_iff_append.mp hfind
  have hplain : ∀ c ∈ before, c ≠ ':' ∧ c ≠ '/' := fun c hc => by simpa using hbefore c hc
  have hdelimiter : ∀ c ∈ before, c ≠ delimiter := by
    rintro c hc rfl
    have hp := List.find?_some hfind
    simp [hplain c hc] at hp
  rw [partition_append hdelimiter] at h
  simp only [Option.bind_some] at h
  split at h
  · cases h
  · rename_i hne
    obtain ⟨rfl, rfl⟩ := Prod.mk.inj (Option.some.inj h)
    simp only [Bool.or_eq_true, List.isEmpty_iff, not_or] at hne
    exact ⟨hne.1, fun c hc => (hplain c hc).1, hne.2⟩

variable {config : GatewayConfig}

theorem isCanonical_of_validateEntry {entry canonical : Key}
    (h : validateEntry config entry = .ok canonical) : IsCanonical canonical := by
  unfold validateEntry at h
  dsimp only at h
  split at h
  · cases h
  · split at h
    · cases h
    · split at h
      · cases h
      · rename_i pre model hsplit
        split at h
        · cases h
        · split at h
          · cases h
          · rename_i hstar
            split at h
            · cases h
              obtain ⟨hpre, hplain, hmodel⟩ := of_splitSelector hsplit
              refine ⟨pre, model, rfl, hpre, hplain, hmodel, fun hmem => ?_⟩
              obtain ⟨hcount, hends⟩ : model.count '*' ≤ 1 ∧ endsWithStar model = true := by
                simpa [hmem] using hstar
              obtain ⟨stem, rfl⟩ := List.getLast?_eq_some_iff.mp (by simpa [endsWithStar] using hends)
              refine ⟨stem, rfl, fun hstem => ?_⟩
              have hpos := count_pos_iff.mpr hstem
              rw [count_append, count_singleton_self] at hcount
              omega
            · split at h <;> cases h

theorem isCanonical_of_validateEntries {entries done canonical : List Key}
    (h : validateEntries config done entries = .ok canonical)
    (hdone : ∀ entry ∈ done, IsCanonical entry) : ∀ entry ∈ canonical, IsCanonical entry := by
  induction entries generalizing done with
  | nil => cases h; exact hdone
  | cons entry entries ih =>
    unfold validateEntries at h
    cases hentry : validateEntry config entry with
    | error message => rw [hentry] at h; cases h
    | ok normalized =>
      rw [hentry] at h
      refine ih h ?_
      split
      · exact hdone
      · intro other hother
        rcases mem_append.mp hother with hother | hother
        · exact hdone other hother
        · rw [mem_singleton.mp hother]
          exact isCanonical_of_validateEntry hentry

theorem isCanonical_of_validate {given : Option (List Key)}
    {canonical : List Key} (h : validateAllowedModels config given = .ok (some canonical)) :
    ∀ entry ∈ canonical, IsCanonical entry := by
  cases given with
  | none => cases h
  | some entries =>
    cases hentries : validateEntries config [] entries with
    | error message => simp only [validateAllowedModels, hentries] at h; cases h
    | ok list =>
      simp only [validateAllowedModels, hentries] at h
      cases h
      exact isCanonical_of_validateEntries hentries fun _ hmem => absurd hmem not_mem_nil

/-! ### What an entry matches -/

theorem halves_selectorKey {pre : Key} (hpre : ∀ c ∈ pre, c ≠ ':') (model : Key) :
    halves (selectorKey pre model) = (pre, model) := by
  unfold halves selectorKey
  rw [partition_append hpre]
  rfl

@[simp] theorem endsWithStar_append (stem : Key) : endsWithStar (stem ++ ['*']) = true := by
  simp [endsWithStar]

theorem endsWithStar_of_plain {model : Key} (h : '*' ∉ model) : endsWithStar model = false := by
  by_contra hends
  simp only [Bool.not_eq_false, endsWithStar, decide_eq_true_eq] at hends
  exact h (mem_of_getLast? hends)

theorem matches_wild {pre stem : Key} (hne : pre ≠ []) (hpre : ∀ c ∈ pre, c ≠ ':') (key : Key) :
    entryMatches (selectorKey pre (stem ++ ['*'])) key = true ↔
      (halves key).1 = pre ∧ stem <+: (halves key).2 := by
  unfold entryMatches
  rw [halves_selectorKey hpre]
  dsimp only
  by_cases hkey : pre = (halves key).1
  · simp only [List.isEmpty_iff, hne, ← hkey, Bool.or_self, ne_eq, not_true_eq_false, if_false,
      true_and, endsWithStar_append, if_true, dropLast_concat]
    split
    · rename_i hstem
      obtain rfl : stem = [] := by simpa using hstem
      simp
    · exact List.isPrefixOf_iff_prefix
  · have hne' : ¬ (halves key).1 = pre := fun e => hkey e.symm
    simp only [ne_eq, hkey, not_false_eq_true, if_true, ite_self, Bool.false_eq_true, hne', false_and]

theorem matches_plain {pre model : Key} (hne : pre ≠ []) (hpre : ∀ c ∈ pre, c ≠ ':')
    (hstar : '*' ∉ model) (key : Key) :
    entryMatches (selectorKey pre model) key = true ↔ halves key = (pre, model) := by
  have hmodel : model ≠ ['*'] := by
    rintro rfl
    exact hstar (mem_singleton_self _)
  unfold entryMatches
  rw [halves_selectorKey hpre]
  dsimp only
  by_cases hkey : pre = (halves key).1
  · simp only [List.isEmpty_iff, hne, ← hkey, Bool.or_self, ne_eq, not_true_eq_false, if_false, hmodel,
      endsWithStar_of_plain hstar, Bool.false_eq_true, decide_eq_true_eq, Prod.ext_iff, true_and]
    exact eq_comm
  · have hne' : ¬ halves key = (pre, model) := fun e => hkey (congrArg Prod.fst e).symm
    simp only [ne_eq, hkey, not_false_eq_true, if_true, ite_self, Bool.false_eq_true, hne']

/-! ### Covering -/

theorem matches_of_matches_wild {entry pre stem : Key} (hentry : IsCanonical entry)
    (hpre : ∀ c ∈ pre, c ≠ ':') (h : entryMatches entry (selectorKey pre (stem ++ ['*'])) = true) :
    ∃ short, entry = selectorKey pre (short ++ ['*']) ∧ short <+: stem := by
  obtain ⟨pre', model, rfl, hne, hpre', -, hstar⟩ := hentry
  by_cases hmem : '*' ∈ model
  · obtain ⟨short, rfl, hshort⟩ := hstar hmem
    obtain ⟨hinstance, hstarts⟩ := (matches_wild hne hpre' _).mp h
    rw [halves_selectorKey hpre] at hinstance hstarts
    obtain rfl : pre = pre' := hinstance
    refine ⟨short, rfl, (prefix_concat_iff.mp hstarts).resolve_left ?_⟩
    rintro rfl
    exact hshort (by simp)
  · have hhalves := (matches_plain hne hpre' hmem _).mp h
    rw [halves_selectorKey hpre] at hhalves
    obtain ⟨-, rfl⟩ := Prod.mk.inj hhalves
    exact absurd (by simp) hmem

theorem covers_wild {parent : List Key} (hparent : ∀ entry ∈ parent, IsCanonical entry)
    {pre stem : Key} (hpre : ∀ c ∈ pre, c ≠ ':') :
    covers parent (selectorKey pre (stem ++ ['*'])) = true ↔
      ∃ short, selectorKey pre (short ++ ['*']) ∈ parent ∧ short <+: stem := by
  unfold covers
  rw [halves_selectorKey hpre]
  simp only [endsWithStar_append, if_true, dropLast_concat, any_eq_true]
  constructor
  · rintro ⟨candidate, hmem, h⟩
    obtain ⟨pre', model, rfl, -, hpre', -, hstar⟩ := hparent candidate hmem
    rw [halves_selectorKey hpre'] at h
    dsimp only at h
    split at h
    · cases h
    · rename_i hinstance
      obtain rfl : pre' = pre := by simpa using hinstance
      split at h
      · rename_i hmodel
        exact ⟨[], hmodel ▸ hmem, nil_prefix⟩
      · obtain ⟨hends, hstarts⟩ := Bool.and_eq_true_iff.mp h
        obtain ⟨short, rfl⟩ := List.getLast?_eq_some_iff.mp (by simpa [endsWithStar] using hends)
        rw [dropLast_concat] at hstarts
        exact ⟨short, hmem, List.isPrefixOf_iff_prefix.mp hstarts⟩
  · rintro ⟨short, hmem, hstarts⟩
    refine ⟨_, hmem, ?_⟩
    rw [halves_selectorKey hpre]
    simp only [ne_eq, not_true_eq_false, if_false, endsWithStar_append, dropLast_concat,
      List.isPrefixOf_iff_prefix.mpr hstarts, Bool.and_self, ite_self]

theorem isModelAllowed_some {entries : List Key} {key : Key} :
    isModelAllowed (some entries) key = true ↔ ∃ entry ∈ entries, entryMatches entry key = true := by
  simp [isModelAllowed]

/-- **A list covers an entry when it permits every key the entry matches.** -/
theorem covers_iff {parent : List Key} (hparent : ∀ entry ∈ parent, IsCanonical entry) {entry : Key}
    (hentry : IsCanonical entry) : covers parent entry = true ↔
      ∀ key, entryMatches entry key = true → isModelAllowed (some parent) key = true := by
  obtain ⟨pre, model, rfl, hne, hpre, hmodel, hstar⟩ := hentry
  by_cases hmem : '*' ∈ model
  · obtain ⟨stem, rfl, -⟩ := hstar hmem
    rw [covers_wild hparent hpre]
    constructor
    · rintro ⟨short, hin, hshort⟩ key hkey
      obtain ⟨hinstance, hstarts⟩ := (matches_wild hne hpre key).mp hkey
      exact isModelAllowed_some.mpr
        ⟨_, hin, (matches_wild hne hpre key).mpr ⟨hinstance, hshort.trans hstarts⟩⟩
    · intro h
      -- the wildcard, as a key
      have hself : entryMatches (selectorKey pre (stem ++ ['*'])) (selectorKey pre (stem ++ ['*'])) =
          true := by
        rw [matches_wild hne hpre, halves_selectorKey hpre]
        exact ⟨rfl, prefix_append ..⟩
      obtain ⟨candidate, hin, hmatch⟩ := isModelAllowed_some.mp (h _ hself)
      obtain ⟨short, rfl, hshort⟩ := matches_of_matches_wild (hparent candidate hin) hpre hmatch
      exact ⟨short, hin, hshort⟩
  · have hcovers : covers parent (selectorKey pre model) =
        isModelAllowed (some parent) (selectorKey pre model) := by
      unfold covers
      rw [halves_selectorKey hpre]
      simp only [endsWithStar_of_plain hmem, Bool.false_eq_true, if_false]
    rw [hcovers]
    constructor
    · intro h key hkey
      -- no other key has these halves
      have hhalves := (matches_plain hne hpre hmem key).mp hkey
      obtain ⟨candidate, hin, hmatch⟩ := isModelAllowed_some.mp h
      refine isModelAllowed_some.mpr ⟨candidate, hin, ?_⟩
      rw [← hmatch]
      unfold entryMatches
      rw [hhalves, halves_selectorKey hpre]
    · intro h
      exact h _ ((matches_plain hne hpre hmem _).mpr (halves_selectorKey hpre model))

/-- **The subset test is exact.** -/
theorem allowlist_subset_iff {config config' : GatewayConfig} {given given' : Option (List Key)}
    {child parent : Option (List Key)} {toolKeys : List Key}
    (hchild : validateAllowedModels config given = .ok child)
    (hparent : validateAllowedModels config' given' = .ok parent)
    (htools : ∀ list ∈ child, ∀ entry ∈ list, entry ∉ toolKeys) :
    isAllowlistSubset child parent toolKeys = true ↔
      ∀ key, isModelAllowed (effectiveAllowlist child parent) key = true →
        isModelAllowed parent key = true := by
  cases child with
  | none => exact ⟨fun _ _ => id, fun _ => rfl⟩
  | some child =>
    cases parent with
    | none => exact ⟨fun _ _ _ => rfl, fun _ => rfl⟩
    | some parent =>
      have hcovers : isAllowlistSubset (some child) (some parent) toolKeys = true ↔
          ∀ entry ∈ child, covers parent entry = true := by
        simp only [isAllowlistSubset, Option.elim_some, List.all_eq_true]
        refine forall₂_congr fun entry hmem => ?_
        rw [if_neg (htools child rfl entry hmem)]
      rw [hcovers]
      constructor
      · intro h key hkey
        obtain ⟨entry, hmem, hmatch⟩ := isModelAllowed_some.mp hkey
        exact (covers_iff (isCanonical_of_validate hparent)
          (isCanonical_of_validate hchild entry hmem)).mp (h entry hmem) key hmatch
      · intro h entry hmem
        exact (covers_iff (isCanonical_of_validate hparent)
          (isCanonical_of_validate hchild entry hmem)).mpr fun key hmatch =>
            h key (isModelAllowed_some.mpr ⟨entry, hmem, hmatch⟩)

/-- A key that asks for `openai:gpt-4*` under a user that has `openai:gpt-*`. -/
theorem allowlist_subset_iff_gpt :
    isAllowlistSubset (some ["openai:gpt-4*".toList]) (some ["openai:gpt-*".toList]) [] = true ↔
      ∀ key, isModelAllowed (effectiveAllowlist (some ["openai:gpt-4*".toList])
          (some ["openai:gpt-*".toList])) key = true →
        isModelAllowed (some ["openai:gpt-*".toList]) key = true :=
  @allowlist_subset_iff ⟨["openai".toList], [], [], [], [], []⟩
    ⟨["openai".toList], [], [], [], [], []⟩ (some [" openai/gpt-4*".toList])
    (some ["openai:gpt-*".toList]) _ _ _ (by decide) (by decide) (by simp)

end Otari.Access
