import Mathlib

/-!
# Support — Index — rows by key, read in batches

A read of many keys fills a dictionary from rows fetched batch by batch.  `put` keeps the last row
of a key and `push` all of them, and what either leaves under a key is a scan of the rows for it
(`foldl_put`, `foldl_push`).  Since the batches share no key, that scan only sees the batch the key
is in (`scan_batches`).
-/

namespace Index
open List
variable {α κ : Type*} [DecidableEq κ]

/-- The rows of one key, in order. -/
def scan (key : α → κ) (k : κ) (rows : List α) : List α :=
  rows.filter fun row => key row = k

/-- `d[key] = row`. -/
def put (key : α → κ) (d : κ → Option α) (row : α) : κ → Option α :=
  Function.update d (key row) (some row)

/-- `d.setdefault(key, []).append(row)`. -/
def push (key : α → κ) (d : κ → List α) (row : α) : κ → List α :=
  Function.update d (key row) (d (key row) ++ [row])

theorem scan_cons (key : α → κ) (k : κ) (row : α) (rows : List α) :
    scan key k (row :: rows) = if key row = k then row :: scan key k rows else scan key k rows := by
  unfold scan
  rw [filter_cons]
  simp only [decide_eq_true_eq]

theorem scan_append (key : α → κ) (k : κ) (rows rows' : List α) :
    scan key k (rows ++ rows') = scan key k rows ++ scan key k rows' :=
  filter_append ..

theorem scan_eq_nil {key : α → κ} {k : κ} {rows : List α} (h : ∀ row ∈ rows, key row ≠ k) :
    scan key k rows = [] :=
  filter_eq_nil_iff.mpr fun row hrow => by simpa using h row hrow

theorem foldl_put (key : α → κ) (rows : List α) (d : κ → Option α) (k : κ) :
    rows.foldl (put key) d k = (scan key k rows).getLast?.or (d k) := by
  induction rows generalizing d with
  | nil => rfl
  | cons row rows ih =>
    rw [foldl_cons, ih, scan_cons, put]
    by_cases hk : key row = k
    · rw [if_pos hk, ← hk, Function.update_self, List.getLast?_cons]
      cases (scan key (key row) rows).getLast? <;> rfl
    · rw [if_neg hk, Function.update_of_ne (Ne.symm hk)]

theorem foldl_push (key : α → κ) (rows : List α) (d : κ → List α) (k : κ) :
    rows.foldl (push key) d k = d k ++ scan key k rows := by
  induction rows generalizing d with
  | nil => simp [scan]
  | cons row rows ih =>
    rw [foldl_cons, ih, scan_cons, push]
    by_cases hk : key row = k
    · rw [if_pos hk, ← hk, Function.update_self, append_assoc, singleton_append]
    · rw [if_neg hk, Function.update_of_ne (Ne.symm hk)]

theorem foldl_update_mem {β γ : Type*} {f : β → κ} (hf : Function.Injective f) (g : β → γ)
    {l : List β} (d : κ → γ) {b : β} (hb : b ∈ l) :
    l.foldl (fun d c => Function.update d (f c) (g c)) d (f b) = g b := by
  induction l using List.reverseRecOn with
  | nil => cases hb
  | append_singleton l c ih =>
    rw [foldl_append, foldl_cons, foldl_nil]
    by_cases hbc : b = c
    · rw [hbc, Function.update_self]
    · rw [Function.update_of_ne fun e => hbc (hf e)]
      refine ih ((mem_append.mp hb).resolve_right fun h => hbc ?_)
      exact mem_singleton.mp h

theorem foldl_update_of_ne {β γ : Type*} {f : β → κ} (g : β → γ) {l : List β} (d : κ → γ) {k : κ}
    (hk : ∀ b ∈ l, f b ≠ k) : l.foldl (fun d c => Function.update d (f c) (g c)) d k = d k := by
  induction l generalizing d with
  | nil => rfl
  | cons c l ih =>
    rw [foldl_cons, ih _ fun b hb => hk b (mem_cons_of_mem _ hb),
      Function.update_of_ne (hk c mem_cons_self).symm]

/-! ### Batches -/

/-- `keys[start : start + n]` for every `start` in `range(0, len(keys), n)`. -/
def batches (n : ℕ) (keys : List κ) : List (List κ) :=
  (List.range ((keys.length + n - 1) / n)).map fun i => (keys.drop (i * n)).take n

omit [DecidableEq κ] in
theorem flatten_batches_upTo (n : ℕ) (keys : List κ) (m : ℕ) :
    ((List.range m).map fun i => (keys.drop (i * n)).take n).flatten = keys.take (m * n) := by
  induction m with
  | zero => simp
  | succ m ih =>
    rw [range_succ, map_append, flatten_append, ih, Nat.succ_mul, take_add]
    simp

omit [DecidableEq κ] in
theorem flatten_batches {n : ℕ} (hn : 0 < n) (keys : List κ) : (batches n keys).flatten = keys := by
  unfold batches
  rw [flatten_batches_upTo, take_of_length_le]
  have h := Nat.lt_div_mul_add hn (a := keys.length + n - 1)
  omega

theorem scan_batches {key : α → κ} {k : κ} {bs : List (List κ)} (hnd : bs.flatten.Nodup)
    {read : List κ → List α} (hread : ∀ b ∈ bs, ∀ row ∈ read b, key row ∈ b) {b : List κ}
    (hb : b ∈ bs) (hk : k ∈ b) : scan key k (bs.flatMap read) = scan key k (read b) := by
  induction bs with
  | nil => cases hb
  | cons c bs ih =>
    rw [flatten_cons, nodup_append] at hnd
    obtain ⟨-, hnd, hdisj⟩ := hnd
    rw [flatMap_cons, scan_append]
    rcases mem_cons.mp hb with rfl | hb
    · have hrest : scan key k (bs.flatMap read) = [] := scan_eq_nil fun row hrow e => by
        obtain ⟨c, hc, hrow⟩ := mem_flatMap.mp hrow
        have hkc := hread c (mem_cons_of_mem _ hc) row hrow
        exact hdisj k hk _ (mem_flatten.mpr ⟨c, hc, hkc⟩) e.symm
      rw [hrest, append_nil]
    · have hhead : scan key k (read c) = [] := scan_eq_nil fun row hrow e => by
        have hkc := hread c mem_cons_self row hrow
        exact hdisj _ hkc k (mem_flatten.mpr ⟨b, hb, hk⟩) e
      rw [hhead, nil_append]
      exact ih hnd (fun c hc => hread c (mem_cons_of_mem _ hc)) hb

end Index
