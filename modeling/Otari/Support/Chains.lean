import Mathlib

/-!
# Support — Chains — the nearest label up a chain

Each place has a next place, and is labelled, unlabelled or not there (`Links`).  The nearest label of
a place is that of the first labelled place up its chain (`Nearest`); a chain that leaves what is
there, or runs into itself, has none.

A walk up a chain knows of the places it passed that they are unlabelled and share the nearest label
of the place it is at (`Passed`).  So whatever the walk finds there is right for all of them, and where
it meets a place it passed there is nothing to find (`Passed.nearest_eq_none`).
-/

namespace Chains
open List
variable {K V : Type*}

/-- The label of each place, where the place is there, and the place after it. -/
structure Links (K V : Type*) where
  label : K → Option (Option V)
  next : K → K

/-- The label of the first labelled place up the chain. -/
inductive Nearest (links : Links K V) : K → V → Prop where
  | here {k : K} {v : V} (h : links.label k = some (some v)) : Nearest links k v
  | up {k : K} {v : V} (h : links.label k = some none) (t : Nearest links (links.next k) v) :
      Nearest links k v

variable {links : Links K V}

variable {k : K}

theorem Nearest.unique {v v' : V} (h : Nearest links k v) (h' : Nearest links k v') : v = v' := by
  induction h with
  | here h =>
    cases h' with
    | here h' =>
      rw [h] at h'
      cases h'
      rfl
    | up h' _ =>
      rw [h] at h'
      cases h'
  | up h _ ih =>
    cases h' with
    | here h' =>
      rw [h] at h'
      cases h'
    | up _ t' => exact ih t'

theorem Nearest.false_of_closed {places : List K} (hlabel : ∀ k ∈ places, links.label k = some none)
    (hnext : ∀ k ∈ places, links.next k ∈ places) {v : V} (h : Nearest links k v) : k ∉ places := by
  induction h with
  | here h =>
    intro hk
    rw [hlabel _ hk] at h
    cases h
  | up _ _ ih =>
    intro hk
    exact ih (hnext _ hk)

open Classical in
/-- The nearest label, where there is one. -/
noncomputable def nearest (links : Links K V) (k : K) : Option V :=
  if h : ∃ v, Nearest links k v then some h.choose else none

theorem nearest_eq_some {v : V} : nearest links k = some v ↔ Nearest links k v := by
  rw [nearest]
  split
  · rename_i h
    rw [Option.some.injEq]
    constructor
    · intro hv
      exact hv ▸ h.choose_spec
    · exact h.choose_spec.unique
  · rename_i h
    constructor
    · intro hv
      cases hv
    · intro hv
      exact (h ⟨v, hv⟩).elim

theorem nearest_eq_none : nearest links k = none ↔ ∀ v, ¬ Nearest links k v := by
  rw [Option.eq_none_iff_forall_ne_some]
  simp only [ne_eq, nearest_eq_some]

theorem nearest_of_label {v : V} (h : links.label k = some (some v)) : nearest links k = some v :=
  nearest_eq_some.mpr (.here h)

theorem nearest_of_missing (h : links.label k = none) : nearest links k = none := by
  rw [nearest_eq_none]
  intro v hv
  cases hv with
  | here h' =>
    rw [h] at h'
    cases h'
  | up h' _ =>
    rw [h] at h'
    cases h'

theorem nearest_of_unlabelled (h : links.label k = some none) :
    nearest links k = nearest links (links.next k) := by
  ext v
  rw [nearest_eq_some, nearest_eq_some]
  constructor
  · intro hv
    cases hv with
    | here h' =>
      rw [h] at h'
      cases h'
    | up _ t => exact t
  · exact Nearest.up h

/-! ### Walking up -/

theorem length_ahead_lt [BEq K] [LawfulBEq K] {places path : List K} {place : K} (hplace : place ∈ places)
    (hpath : place ∉ path) :
    (places.filter (· ∉ path ++ [place])).length < (places.filter (· ∉ path)).length := by
  classical
  have hsplit : places.filter (· ∉ path ++ [place]) =
      (places.filter (· ∉ path)).filter (· ≠ place) := by
    rw [filter_filter]
    refine filter_congr fun k _ => ?_
    simp [and_comm]
  have hmem : place ∈ places.filter (· ∉ path) := by
    rw [mem_filter]
    exact ⟨hplace, by simpa using hpath⟩
  rw [hsplit]
  refine lt_of_le_of_ne (length_filter_le _ _) fun heq => ?_
  have hall := length_filter_eq_length_iff.mp heq place hmem
  simp at hall

/-- What a walk knows of the places it passed on its way to `place`. -/
structure Passed (links : Links K V) (path : List K) (place : K) : Prop where
  unlabelled : ∀ k ∈ path, links.label k = some none
  next : ∀ k ∈ path, links.next k ∈ path ∨ links.next k = place
  same : ∀ k ∈ path, nearest links k = nearest links place

theorem Passed.start (place : K) : Passed links [] place :=
  ⟨by simp, by simp, by simp⟩

theorem Passed.push {path : List K} {place : K} (h : Passed links path place)
    (hlabel : links.label place = some none) :
    Passed links (path ++ [place]) (links.next place) := by
  have hup := nearest_of_unlabelled hlabel
  constructor
  · intro k hk
    rcases mem_append.mp hk with hk | hk
    · exact h.unlabelled k hk
    · rw [mem_singleton.mp hk]
      exact hlabel
  · intro k hk
    rcases mem_append.mp hk with hk | hk
    · rcases h.next k hk with hnext | hnext
      · exact .inl (mem_append_left _ hnext)
      · exact .inl (mem_append_right _ (by rw [hnext]; exact mem_singleton_self place))
    · rw [mem_singleton.mp hk]
      exact .inr rfl
  · intro k hk
    rcases mem_append.mp hk with hk | hk
    · rw [h.same k hk, hup]
    · rw [mem_singleton.mp hk, hup]

/-- **A walk that runs into its own path has nothing to find.** -/
theorem Passed.nearest_eq_none {path : List K} {place : K} (h : Passed links path place)
    (hplace : place ∈ path) : nearest links place = none := by
  have hclosed : ∀ k ∈ path, links.next k ∈ path := by
    intro k hk
    rcases h.next k hk with hnext | hnext
    · exact hnext
    · rw [hnext]
      exact hplace
  rw [Chains.nearest_eq_none]
  intro v hv
  exact hv.false_of_closed h.unlabelled hclosed hplace

end Chains
