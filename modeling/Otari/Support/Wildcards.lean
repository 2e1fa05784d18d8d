import Mathlib

/-!
# Support — Wildcards — literals placed in a text, leftmost first

A pattern is a list in which `wild` stands for any run of admitted elements (`Expands`).  Cut at its
wildcards it is a list of literal chunks, and what it expands to is the first of them, then the
middle ones anywhere in order (`Scattered`), then the last (`expands_iff`).

`find` looks a chunk up in a window of a text, from the left.  **No placement is lost**
(`scattered_of_find`): the leftmost place of a chunk leaves the longest rest, and what is scattered
in a suffix is scattered in the whole.  Where the chunk is nowhere, nothing is scattered
(`not_scattered_of_find`).
-/

namespace Wildcards
open List
variable {α : Type*}

/-! ### Patterns -/

/-- What a pattern expands to: each wildcard any run of admitted elements. -/
inductive Expands (wild : α) (admits : α → Prop) : List α → List α → Prop where
  | nil : Expands wild admits [] []
  | star {p t : List α} (filler : List α) (h : ∀ a ∈ filler, admits a)
      (rest : Expands wild admits p t) : Expands wild admits (wild :: p) (filler ++ t)
  | char {a : α} {p t : List α} (h : a ≠ wild) (rest : Expands wild admits p t) :
      Expands wild admits (a :: p) (a :: t)

namespace Expands
variable {wild : α} {admits : α → Prop} {p q s t : List α}

theorem eq_of_not_mem (h : wild ∉ p) (e : Expands wild admits p t) : t = p := by
  induction e with
  | nil => rfl
  | star filler _ _ _ => exact absurd mem_cons_self h
  | char _ _ ih => rw [ih fun hm => h (mem_cons_of_mem _ hm)]

theorem split (p : List α) {q t : List α} (h : Expands wild admits (p ++ q) t) :
    ∃ t₁ t₂, t = t₁ ++ t₂ ∧ Expands wild admits p t₁ ∧ Expands wild admits q t₂ := by
  induction p generalizing t with
  | nil => exact ⟨[], t, rfl, .nil, h⟩
  | cons a p ih =>
    rw [cons_append] at h
    cases h with
    | star filler hf rest =>
      obtain ⟨t₁, t₂, rfl, h₁, h₂⟩ := ih rest
      exact ⟨filler ++ t₁, t₂, (append_assoc ..).symm, .star filler hf h₁, h₂⟩
    | char ha rest =>
      obtain ⟨t₁, t₂, rfl, h₁, h₂⟩ := ih rest
      exact ⟨a :: t₁, t₂, rfl, .char ha h₁, h₂⟩

theorem admitted (hp : ∀ a ∈ p, a ≠ wild → admits a) (h : Expands wild admits p t) :
    ∀ a ∈ t, admits a := by
  induction h with
  | nil => exact fun a ha => absurd ha not_mem_nil
  | star filler hf _ ih =>
    intro a ha
    rcases mem_append.mp ha with ha | ha
    · exact hf a ha
    · exact ih (fun b hb => hp b (mem_cons_of_mem _ hb)) a ha
  | char ha _ ih =>
    intro b hb
    rcases mem_cons.mp hb with rfl | hb
    · exact hp b mem_cons_self ha
    · exact ih (fun c hc => hp c (mem_cons_of_mem _ hc)) b hb

/-- **A pattern read as a text.**  The wildcards of a text that a pattern expands to fall in the
pattern's own, so the pattern expands to whatever the text does. -/
theorem trans (hq : ∀ a ∈ q, a ≠ wild → admits a) (h₁ : Expands wild (fun _ => True) p q)
    (h₂ : Expands wild admits q s) : Expands wild admits p s := by
  induction h₁ generalizing s with
  | nil => exact h₂
  | @star p t filler _ _ ih =>
    obtain ⟨s₁, s₂, rfl, hs₁, hs₂⟩ := split filler h₂
    refine .star s₁ ?_ (ih (fun a ha => hq a (mem_append_right _ ha)) hs₂)
    exact hs₁.admitted fun a ha => hq a (mem_append_left _ ha)
  | char ha _ ih =>
    cases h₂ with
    | star _ _ _ => exact absurd rfl ha
    | char _ rest => exact .char ha (ih (fun a ha => hq a (mem_cons_of_mem _ ha)) rest)

theorem widen {admits' : α → Prop} (ht : ∀ a ∈ t, admits' a) (h : Expands wild admits p t) :
    Expands wild admits' p t := by
  induction h with
  | nil => exact .nil
  | star filler _ _ ih =>
    exact .star filler (fun a ha => ht a (mem_append_left _ ha))
      (ih fun a ha => ht a (mem_append_right _ ha))
  | char ha _ ih => exact .char ha (ih fun a hm => ht a (mem_cons_of_mem _ hm))

end Expands

/-! ### Chunks -/

/-- The chunks stand in the text in this order, no two overlapping. -/
def Scattered : List (List α) → List α → Prop
  | [], _ => True
  | chunk :: chunks, text => ∃ before after, text = before ++ chunk ++ after ∧ Scattered chunks after

variable {chunks : List (List α)} {text : List α}

theorem Scattered.append_left (before : List α)
    (h : Scattered chunks text) : Scattered chunks (before ++ text) := by
  cases chunks with
  | nil => trivial
  | cons chunk chunks =>
    obtain ⟨b, after, rfl, hafter⟩ := h
    exact ⟨before ++ b, after, by simp, hafter⟩

/-- **The leftmost place is as good as any.** -/
theorem scattered_cons_iff {chunk before after : List α}
    (hleft : ∀ b a, before ++ chunk ++ after = b ++ chunk ++ a → before.length ≤ b.length) :
    Scattered (chunk :: chunks) (before ++ chunk ++ after) ↔ Scattered chunks after := by
  constructor
  · rintro ⟨b, a, heq, ha⟩
    have hle := hleft b a heq
    -- the rest after a later place is a suffix of the rest after the leftmost one
    have hsuffix : a <:+ after := by
      have hown : a <:+ before ++ chunk ++ after := ⟨b ++ chunk, heq.symm⟩
      refine suffix_of_suffix_length_le hown ⟨before ++ chunk, rfl⟩ ?_
      have hlen := congrArg List.length heq
      simp only [length_append] at hlen
      omega
    obtain ⟨skipped, rfl⟩ := hsuffix
    exact ha.append_left skipped
  · exact fun h => ⟨before, after, rfl, h⟩

theorem scattered_nil_cons : Scattered ([] :: chunks) text ↔ Scattered chunks text := by
  have hleft : ∀ b a : List α, [] ++ [] ++ text = b ++ [] ++ a → ([] : List α).length ≤ b.length :=
    fun _ _ _ => Nat.zero_le _
  exact scattered_cons_iff hleft

/-! ### Cutting a pattern at its wildcards -/

/-- The chunks, with any filler between each two. -/
def Filled : List (List α) → List α → Prop
  | [], text => text = []
  | [chunk], text => text = chunk
  | chunk :: chunks, text => ∃ filler rest, text = chunk ++ filler ++ rest ∧ Filled chunks rest

theorem filled_cons {chunk : List α} (h : chunks ≠ []) : Filled (chunk :: chunks) text ↔
      ∃ filler rest, text = chunk ++ filler ++ rest ∧ Filled chunks rest := by
  cases chunks with
  | nil => exact absurd rfl h
  | cons _ _ => rfl

theorem filled_modifyHead {a : α} (h : chunks ≠ []) :
    Filled (chunks.modifyHead (a :: ·)) text ↔ ∃ rest, text = a :: rest ∧ Filled chunks rest := by
  match chunks, h with
  | [chunk], _ => exact ⟨fun e => ⟨chunk, e, rfl⟩, fun ⟨rest, e, hrest⟩ => e.trans (hrest ▸ rfl)⟩
  | chunk :: c :: chunks, _ =>
    rw [modifyHead_cons, filled_cons (cons_ne_nil _ _)]
    constructor
    · rintro ⟨filler, rest, rfl, hrest⟩
      exact ⟨chunk ++ filler ++ rest, rfl, filler, rest, rfl, hrest⟩
    · rintro ⟨_, rfl, filler, rest, rfl, hrest⟩
      exact ⟨filler, rest, rfl, hrest⟩

theorem filled_iff_scattered {first last : List α} {middle : List (List α)} :
    Filled (first :: (middle ++ [last])) text ↔
      ∃ between, text = first ++ between ++ last ∧ Scattered middle between := by
  have hne : ∀ l : List (List α), l ++ [last] ≠ [] := fun l => by simp
  induction middle generalizing first text with
  | nil =>
    rw [nil_append, filled_cons (cons_ne_nil _ _)]
    constructor
    · rintro ⟨filler, rest, rfl, rfl⟩
      exact ⟨filler, rfl, trivial⟩
    · rintro ⟨between, rfl, -⟩
      exact ⟨between, last, rfl, rfl⟩
  | cons chunk middle ih =>
    rw [filled_cons (hne _), cons_append]
    constructor
    · rintro ⟨filler, rest, rfl, hrest⟩
      obtain ⟨after, rfl, hafter⟩ := ih.mp hrest
      exact ⟨filler ++ chunk ++ after, by simp, filler, after, rfl, hafter⟩
    · rintro ⟨_, rfl, filler, after, rfl, hafter⟩
      exact ⟨filler, chunk ++ after ++ last, by simp, ih.mpr ⟨after, rfl, hafter⟩⟩

section
variable [DecidableEq α] {wild : α} {admits : α → Prop}

omit [DecidableEq α] in
theorem not_of_mem_splitOnP {p : α → Bool} {l piece : List α} (h : piece ∈ l.splitOnP p) :
    ∀ a ∈ piece, p a = false := by
  induction l generalizing piece with
  | nil =>
    rw [splitOnP_nil, mem_singleton] at h
    simp [h]
  | cons a l ih =>
    rw [splitOnP_cons_eq_if_modifyHead] at h
    split at h
    · rcases mem_cons.mp h with rfl | h
      · exact fun b hb => absurd hb not_mem_nil
      · exact ih h
    · rename_i ha
      cases hrest : l.splitOnP p with
      | nil => exact absurd hrest (splitOnP_ne_nil _ _)
      | cons first others =>
        rw [hrest, modifyHead_cons, mem_cons] at h
        rcases h with rfl | h
        · intro b hb
          rcases mem_cons.mp hb with rfl | hb
          · simpa using ha
          · exact ih (hrest ▸ mem_cons_self) b hb
        · exact ih (hrest ▸ mem_cons_of_mem _ h)

theorem not_mem_of_mem_splitOn {l piece : List α} (h : piece ∈ l.splitOn wild) : wild ∉ piece := by
  intro hmem
  rw [splitOn_eq_splitOnP] at h
  simpa using not_of_mem_splitOnP h wild hmem

/-- **What a pattern expands to is its chunks, filled.** -/
theorem expands_iff_filled {p t : List α} (ht : ∀ a ∈ t, admits a) :
    Expands wild admits p t ↔ Filled (p.splitOn wild) t := by
  induction p generalizing t with
  | nil =>
    rw [splitOn_nil]
    constructor
    · intro h
      cases h
      rfl
    · rintro rfl
      exact .nil
  | cons a p ih =>
    rw [splitOn_cons_eq_if_modifyHead]
    split
    · rename_i ha
      obtain rfl := eq_of_beq ha
      rw [filled_cons (splitOn_ne_nil _ _)]
      constructor
      · intro h
        cases h with
        | star filler hf rest =>
          exact ⟨filler, _, rfl, (ih fun b hb => ht b (mem_append_right _ hb)).mp rest⟩
        | char hne _ => exact absurd rfl hne
      · rintro ⟨filler, rest, rfl, hrest⟩
        exact .star filler (fun b hb => ht b (by simp [hb]))
          ((ih fun b hb => ht b (by simp [hb])).mpr hrest)
    · rename_i ha
      have hne : a ≠ wild := fun e => ha (beq_iff_eq.mpr e)
      rw [filled_modifyHead (splitOn_ne_nil _ _)]
      constructor
      · intro h
        cases h with
        | star _ _ _ => exact absurd rfl hne
        | char _ rest =>
          exact ⟨_, rfl, (ih fun b hb => ht b (mem_cons_of_mem _ hb)).mp rest⟩
      · rintro ⟨rest, rfl, hrest⟩
        exact .char hne ((ih fun b hb => ht b (mem_cons_of_mem _ hb)).mpr hrest)

end

/-! ### Leftmost placement -/

/-- The part of a text from `start` to `stop`. -/
def window (text : List α) (start stop : ℕ) : List α := (text.take stop).drop start

section
variable {chunk text : List α} {start stop : ℕ}

theorem prefix_drop_of_window {before after : List α} (hstop : stop ≤ text.length)
    (hstart : start ≤ stop) (h : window text start stop = before ++ chunk ++ after) :
    chunk <+: text.drop (start + before.length) ∧ start + before.length + chunk.length ≤ stop := by
  have hlen := congrArg List.length h
  simp only [window, length_drop, length_take, length_append] at hlen
  refine ⟨?_, by omega⟩
  have hdrop : (text.take stop).drop (start + before.length) = chunk ++ after := by
    rw [← drop_drop, ← window, h, append_assoc, drop_left]
  have hstands : (text.take stop).drop (start + before.length) <+: text.drop (start + before.length) := by
    rw [drop_take]
    exact take_prefix _ _
  exact ((prefix_append chunk after).trans (hdrop ▸ prefix_refl _)).trans hstands

variable {i : ℕ}

theorem window_eq_of_prefix (hstart : start ≤ i) (hstop : i + chunk.length ≤ stop)
    (h : chunk <+: text.drop i) : window text start stop =
      (text.take i).drop start ++ chunk ++ window text (i + chunk.length) stop := by
  obtain ⟨after, hafter⟩ := h
  have hi : (text.take stop).drop i = chunk ++ window text (i + chunk.length) stop := by
    rw [window, ← drop_drop, drop_take, ← hafter, take_append, drop_append]
    rw [take_of_length_le (by omega), drop_length, Nat.sub_self, drop_zero,
      nil_append]
  have htake : (text.take i).drop start = (window text start stop).take (i - start) := by
    rw [window, ← drop_take, take_take, min_eq_left (by omega)]
  have hdrop : (text.take stop).drop i = (window text start stop).drop (i - start) := by
    rw [window, drop_drop, Nat.add_sub_cancel' hstart]
  rw [append_assoc, ← hi, htake, hdrop, take_append_drop]

variable [DecidableEq α]

/-- The first place of a chunk in the window from `start` to `stop` of a text. -/
def find (chunk text : List α) (start stop : ℕ) : Option ℕ :=
  (List.range' start (stop + 1 - chunk.length - start)).find? fun i =>
    decide (chunk <+: text.drop i)

theorem find_eq_some (h : find chunk text start stop = some i) :
    start ≤ i ∧ i + chunk.length ≤ stop ∧ chunk <+: text.drop i ∧
      ∀ j, start ≤ j → j < i → ¬ chunk <+: text.drop j := by
  obtain ⟨hi, hmem, hfirst⟩ := List.find?_range'_eq_some.mp h
  have hrange := mem_range'_1.mp hmem
  exact ⟨hrange.1, by omega, of_decide_eq_true hi, fun j hj hlt => by simpa using hfirst j hj hlt⟩

theorem find_eq_none (h : find chunk text start stop = none) (hi : start ≤ i)
    (hstop : i + chunk.length ≤ stop) : ¬ chunk <+: text.drop i := by
  have := List.find?_eq_none.mp h i (mem_range'_1.mpr (by omega))
  simpa using this

theorem scattered_of_find {chunks : List (List α)} (hstop : stop ≤ text.length)
    (hstart : start ≤ stop) (h : find chunk text start stop = some i) :
    Scattered (chunk :: chunks) (window text start stop) ↔
      Scattered chunks (window text (i + chunk.length) stop) := by
  obtain ⟨hle, hend, hstands, hfirst⟩ := find_eq_some h
  have hwindow := window_eq_of_prefix hle hend hstands
  rw [hwindow]
  refine scattered_cons_iff fun b a heq => ?_
  rw [← hwindow] at heq
  obtain ⟨hb, -⟩ := prefix_drop_of_window hstop hstart heq
  by_contra hlt
  have hlen : ((text.take i).drop start).length ≤ i - start := by
    rw [length_drop, length_take]
    omega
  exact hfirst (start + b.length) (by omega) (by omega) hb

theorem not_scattered_of_find {chunks : List (List α)} (hstop : stop ≤ text.length)
    (hstart : start ≤ stop) (h : find chunk text start stop = none) :
    ¬ Scattered (chunk :: chunks) (window text start stop) := by
  rintro ⟨before, after, heq, -⟩
  obtain ⟨hstands, hend⟩ := prefix_drop_of_window hstop hstart heq
  exact find_eq_none h (by omega) hend hstands

end

end Wildcards
