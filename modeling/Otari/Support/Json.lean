import Mathlib

/-!
# Support — Json — documents, their dictionaries and lenient readers

A JSON value (`Json`), the dictionary of an object as an association list in document order
(`Fields`), and a reader that goes on past what it cannot read (`Noted`): a value, and the notes
made on the way to it.

A write to a dictionary keeps the place of a key it has and appends one it has not (`set`), as an
insertion-ordered dictionary does; `get_set_self` and `get_set_of_ne` are all a reader sees of it.
-/

namespace Documents
open List

/-- A JSON value, its numbers exact. -/
inductive Json where
  | null
  | bool (b : Bool)
  | num (q : ℚ)
  | str (s : String)
  | arr (items : List Json)
  | obj (fields : List (String × Json))

/-- The entries of an object, in the document's order. -/
abbrev Fields := List (String × Json)

/-! ### Dictionaries -/

section
variable {α : Type*}

/-- `dict[key] = value`. -/
def set : List (String × α) → String → α → List (String × α)
  | [], key, value => [(key, value)]
  | entry :: rest, key, value =>
    if entry.1 = key then (key, value) :: rest else entry :: set rest key value

/-- The entries under other keys. -/
def without (keys : List String) (d : List (String × α)) : List (String × α) :=
  d.filter fun entry => entry.1 ∉ keys

/-- `dict.get`. -/
def get (d : List (String × α)) (key : String) : Option α :=
  d.lookup key

/-- A write where there is a value to write. -/
def setSome (d : List (String × α)) (key : String) : Option α → List (String × α)
  | some value => set d key value
  | none => d

/-- `dict.update`. -/
def update (d e : List (String × α)) : List (String × α) :=
  e.foldl (fun d entry => set d entry.1 entry.2) d

@[simp] theorem get_nil (key : String) : get ([] : List (String × α)) key = none := rfl

theorem get_cons (entry : String × α) (d : List (String × α)) (key : String) :
    get (entry :: d) key = if entry.1 = key then some entry.2 else get d key := by
  obtain ⟨k, value⟩ := entry
  unfold get
  rw [lookup_cons]
  by_cases h : k = key
  · subst h
    simp
  · have hne : (key == k) = false := by simpa using fun e : key = k => h e.symm
    rw [hne, if_neg h]

@[simp] theorem get_cons_self (key : String) (value : α) (d : List (String × α)) :
    get ((key, value) :: d) key = some value := by
  rw [get_cons, if_pos rfl]

variable {key : String}

theorem get_cons_of_ne {other : String} (h : other ≠ key) (value : α)
    (d : List (String × α)) : get ((other, value) :: d) key = get d key := by
  rw [get_cons, if_neg h]

@[simp] theorem get_set_self (d : List (String × α)) (key : String) (value : α) :
    get (set d key value) key = some value := by
  induction d with
  | nil => exact get_cons_self key value []
  | cons entry rest ih =>
    unfold set
    split
    · exact get_cons_self key value rest
    · rename_i h
      rw [get_cons, if_neg h, ih]

theorem get_set_of_ne (d : List (String × α)) {other : String} (h : other ≠ key) (value : α) :
    get (set d key value) other = get d other := by
  induction d with
  | nil => rw [set, get_cons_of_ne h.symm]
  | cons entry rest ih =>
    unfold set
    split
    · rename_i he
      rw [get_cons_of_ne h.symm, get_cons, if_neg fun e => h (e.symm.trans he)]
    · rw [get_cons, get_cons, ih]

theorem get_without (keys : List String) (d : List (String × α)) (key : String) :
    get (without keys d) key = if key ∈ keys then none else get d key := by
  induction d with
  | nil => simp [without]
  | cons entry rest ih =>
    have hcons : without keys (entry :: rest) =
        if entry.1 ∈ keys then without keys rest else entry :: without keys rest := by
      unfold without
      rw [filter_cons]
      by_cases h : entry.1 ∈ keys <;> simp [h]
    rw [hcons, get_cons]
    by_cases h : entry.1 ∈ keys
    · rw [if_pos h, ih]
      by_cases hk : key ∈ keys
      · rw [if_pos hk, if_pos hk]
      · have hne : entry.1 ≠ key := fun e => hk (e ▸ h)
        rw [if_neg hk, if_neg hk, if_neg hne]
    · rw [if_neg h, get_cons, ih]
      by_cases he : entry.1 = key
      · rw [if_pos he, if_pos he, if_neg (he ▸ h)]
      · rw [if_neg he, if_neg he]

theorem get_setSome (d : List (String × α)) (key other : String) (value : Option α) :
    get (setSome d key value) other = if other = key then value.or (get d key) else get d other := by
  cases value with
  | none => by_cases h : other = key <;> simp [setSome, h]
  | some value =>
    by_cases h : other = key
    · subst h
      simp [setSome]
    · rw [setSome, get_set_of_ne d h, if_neg h]

theorem get_append (d e : List (String × α)) (key : String) :
    get (d ++ e) key = (get d key).or (get e key) := by
  induction d with
  | nil => rfl
  | cons entry rest ih =>
    rw [cons_append, get_cons, get_cons, ih]
    split <;> rfl

variable {d : List (String × α)}

theorem mem_set {value : α} {entry : String × α}
    (h : entry ∈ set d key value) : entry = (key, value) ∨ entry ∈ d := by
  induction d with
  | nil => exact .inl (mem_singleton.mp h)
  | cons first rest ih =>
    unfold set at h
    split at h
    · rcases mem_cons.mp h with h | h
      · exact .inl h
      · exact .inr (mem_cons_of_mem _ h)
    · rcases mem_cons.mp h with h | h
      · exact .inr (h ▸ mem_cons_self)
      · exact (ih h).imp_right (mem_cons_of_mem _)

theorem get_eq_none_of_not_mem (h : key ∉ d.map Prod.fst) : get d key = none := by
  induction d with
  | nil => rfl
  | cons entry rest ih =>
    rw [map_cons, mem_cons, not_or] at h
    rw [get_cons, if_neg fun e => h.1 e.symm, ih h.2]

theorem mem_of_get {value : α} (h : get d key = some value) : (key, value) ∈ d := by
  obtain ⟨before, after, rfl, -⟩ := lookup_eq_some_iff.mp h
  simp

theorem get_of_mem (h : (d.map Prod.fst).Nodup) {entry : String × α}
    (hmem : entry ∈ d) : get d entry.1 = some entry.2 := by
  induction d with
  | nil => cases hmem
  | cons first rest ih =>
    rw [map_cons, nodup_cons] at h
    rcases mem_cons.mp hmem with rfl | hrest
    · exact get_cons_self ..
    · have hne : first.1 ≠ entry.1 := fun he => h.1 (he ▸ mem_map_of_mem hrest)
      rw [get_cons_of_ne hne, ih h.2 hrest]

theorem nodup_set (h : (d.map Prod.fst).Nodup) (key : String) (value : α) :
    ((set d key value).map Prod.fst).Nodup := by
  induction d with
  | nil => exact nodup_singleton key
  | cons first rest ih =>
    rw [map_cons, nodup_cons] at h
    unfold set
    split
    · rename_i he
      rw [map_cons, nodup_cons]
      exact ⟨he ▸ h.1, h.2⟩
    · rename_i he
      rw [map_cons, nodup_cons]
      refine ⟨fun hmem => ?_, ih h.2⟩
      obtain ⟨entry, hentry, hfirst⟩ := mem_map.mp hmem
      rcases mem_set hentry with rfl | hin
      · exact he hfirst.symm
      · exact h.1 (hfirst ▸ mem_map_of_mem hin)

theorem get_foldl_setSome {ι : Type*} (field : ι → String) (value : ι → Option α) {l : List ι}
    {v : α} (h : get (l.foldl (fun d i => setSome d (field i) (value i)) d) key = some v) :
    (∃ i ∈ l, field i = key ∧ value i = some v) ∨ get d key = some v := by
  induction l generalizing d with
  | nil => exact .inr h
  | cons i l ih =>
    rcases ih h with ⟨j, hj, hfield, hvalue⟩ | hget
    · exact .inl ⟨j, mem_cons_of_mem _ hj, hfield, hvalue⟩
    · rw [get_setSome] at hget
      split at hget
      · rename_i hkey
        rcases Option.or_eq_some_iff.mp hget with hvalue | ⟨-, hthere⟩
        · exact .inl ⟨i, mem_cons_self, hkey.symm, hvalue⟩
        · exact .inr (hkey ▸ hthere)
      · exact .inr hget

theorem get_foldl_without {ι : Type*} (field : ι → String) {l : List ι} {v : α}
    (h : get (l.foldl (fun d i => without [field i] d) d) key = some v) :
    (∀ i ∈ l, field i ≠ key) ∧ get d key = some v := by
  induction l generalizing d with
  | nil => exact ⟨fun i hi => absurd hi not_mem_nil, h⟩
  | cons i l ih =>
    obtain ⟨hrest, hget⟩ := ih h
    rw [get_without] at hget
    split at hget
    · cases hget
    · rename_i hkey
      refine ⟨fun j hj => ?_, hget⟩
      rcases mem_cons.mp hj with rfl | hj
      · exact fun e => hkey (mem_singleton.mpr e.symm)
      · exact hrest j hj

variable {e : List (String × α)}

theorem get_update (d : List (String × α)) (h : (e.map Prod.fst).Nodup)
    (key : String) : get (update d e) key = (get e key).or (get d key) := by
  induction e generalizing d with
  | nil => rfl
  | cons entry rest ih =>
    rw [map_cons, nodup_cons] at h
    rw [update, foldl_cons]
    refine (ih _ h.2).trans ?_
    rw [get_cons]
    by_cases hk : entry.1 = key
    · subst hk
      rw [if_pos rfl, get_set_self, get_eq_none_of_not_mem h.1]
      rfl
    · rw [if_neg hk, get_set_of_ne d fun e => hk e.symm]

theorem update_eq_append (h : ((d ++ e).map Prod.fst).Nodup) : update d e = d ++ e := by
  induction e generalizing d with
  | nil => exact (append_nil d).symm
  | cons entry rest ih =>
    have hnew : ∀ {d : List (String × α)}, entry.1 ∉ d.map Prod.fst →
        set d entry.1 entry.2 = d ++ [entry] := by
      intro d
      induction d with
      | nil => exact fun _ => rfl
      | cons first others ih =>
        intro hmem
        rw [map_cons, mem_cons, not_or] at hmem
        rw [set, if_neg fun e => hmem.1 e.symm, ih hmem.2, cons_append]
    have hsplit : d ++ entry :: rest = (d ++ [entry]) ++ rest := by simp
    have hentry : entry.1 ∉ d.map Prod.fst := by
      rw [map_append, nodup_append] at h
      exact fun hmem => h.2.2 _ hmem _ (by simp) rfl
    rw [update, foldl_cons, hnew hentry]
    exact (ih (hsplit ▸ h)).trans hsplit.symm

theorem update_nil (h : (e.map Prod.fst).Nodup) : update [] e = e :=
  update_eq_append h

theorem get_map_self {f : String → α} {keys : List String} (h : key ∈ keys) :
    get (keys.map fun key => (key, f key)) key = some (f key) := by
  induction keys with
  | nil => cases h
  | cons first rest ih =>
    rw [map_cons, get_cons]
    split
    · rename_i heq
      exact congrArg (fun key => some (f key)) heq
    · rename_i hne
      exact ih ((mem_cons.mp h).resolve_left fun e => hne e.symm)

end

/-! ### Lenient readers -/

/-- What was read, and the notes made in reading it. -/
structure Noted (ν α : Type) where
  value : α
  notes : List ν := []

namespace Noted

variable {ν α β : Type}

/-- Reads on with what was read. -/
def andThen (x : Noted ν α) (f : α → Noted ν β) : Noted ν β :=
  ⟨(f x.value).value, x.notes ++ (f x.value).notes⟩

instance instMonad : Monad (Noted ν) where
  pure a := ⟨a, []⟩
  bind := andThen

/-- One note, and a value in place of what could not be read. -/
def note (n : ν) (value : α) : Noted ν α := ⟨value, [n]⟩

@[simp] theorem value_pure (a : α) : (pure a : Noted ν α).value = a := rfl

@[simp] theorem notes_pure (a : α) : (pure a : Noted ν α).notes = [] := rfl

@[simp] theorem value_bind (x : Noted ν α) (f : α → Noted ν β) :
    (x >>= f).value = (f x.value).value := rfl

@[simp] theorem notes_bind (x : Noted ν α) (f : α → Noted ν β) :
    (x >>= f).notes = x.notes ++ (f x.value).notes := rfl

/-- Nothing was noted. -/
def Clean (x : Noted ν α) : Prop := x.notes = []

@[simp] theorem clean_pure (a : α) : Clean (pure a : Noted ν α) := rfl

@[simp] theorem not_clean_note (n : ν) (a : α) : ¬ Clean (note n a) := fun h => by cases h

@[simp] theorem clean_bind (x : Noted ν α) (f : α → Noted ν β) :
    Clean (x >>= f) ↔ Clean x ∧ Clean (f x.value) :=
  append_eq_nil_iff

def each (f : α → Noted ν β) : List α → Noted ν (List β)
  | [] => pure []
  | a :: rest => do
    let b ← f a
    let bs ← each f rest
    return b :: bs

variable (f : α → Noted ν β)

@[simp] theorem value_each (l : List α) : (each f l).value = l.map fun a => (f a).value := by
  induction l with
  | nil => rfl
  | cons a rest ih =>
    rw [each, value_bind, value_bind, ih]
    rfl

@[simp] theorem notes_each (l : List α) : (each f l).notes = l.flatMap fun a => (f a).notes := by
  induction l with
  | nil => rfl
  | cons a rest ih =>
    rw [each, notes_bind, notes_bind, ih]
    simp

@[simp] theorem clean_each (l : List α) : Clean (each f l) ↔ ∀ a ∈ l, Clean (f a) := by
  unfold Clean
  rw [notes_each, flatMap_eq_nil_iff]

/-- Reads a value that is there. -/
def optional (f : α → Noted ν β) : Option α → Noted ν (Option β)
  | none => pure none
  | some a => do return some (← f a)

@[simp] theorem value_optional (a : Option α) :
    (optional f a).value = a.map fun a => (f a).value := by
  cases a <;> rfl

@[simp] theorem clean_optional (a : Option α) : Clean (optional f a) ↔ ∀ b ∈ a, Clean (f b) := by
  cases a with
  | none => simp [optional]
  | some a => simp [optional]

end Noted

end Documents
