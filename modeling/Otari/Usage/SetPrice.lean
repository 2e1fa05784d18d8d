import Otari.Support.Transactions
import Otari.Usage.RowUsage

/-!
# Usage — SetPrice — repricing a selection of rows

`set_usage_price` of `services/usage_admin_service.py`: the rows a selection matches are walked a page
at a time, in the order of their ids, each page's changes flushed before the next is read; the whole
is committed once.

**Each matched row is repriced exactly once, whatever the selection says of a row repriced, and where
it fails no row is changed** (`ends_setUsagePrice`).  With the usage of a stored row this settles what
repricing is to do (`repricesAsReported_iff`).
-/

namespace Otari.Usage
open List
open Metered (PricingError priceBillableUsage)
open Transactions Raising Raising.Program

variable {Id Other Error : Type}

/-! ### One row -/

/-- The row repriced, and whether its amount changed; a row no rate prices is left. -/
def outcome (request : SetPriceRequest) (row : StoredRow Id Other) : StoredRow Id Other × Bool :=
  (reprice request row).toOption.getD (row, false)

theorem outcome_cases (request : SetPriceRequest) (row : StoredRow Id Other) :
    outcome request row = (row, false) ∨
      (outcome request row).2 = true ∧ (outcome request row).1.id = row.id := by
  rw [outcome, reprice]
  cases priceBillableUsage (manualPricing request row) (rowUsage row) with
  | error e => exact .inl rfl
  | ok priced =>
    rw [ok_bind]
    split
    · exact .inl rfl
    · exact .inr ⟨rfl, rfl⟩

@[simp] theorem outcome_id (request : SetPriceRequest) (row : StoredRow Id Other) :
    (outcome request row).1.id = row.id := by
  rcases outcome_cases request row with h | ⟨-, h⟩
  · rw [h]
  · exact h

variable {row : StoredRow Id Other}

theorem outcome_of_ok {result : StoredRow Id Other × Bool}
    (h : reprice request row = .ok result) : outcome request row = result := by
  rw [outcome, h]
  rfl

/-! ### The walk -/

/-- `_REPRICE_CHUNK`. -/
def repriceChunk : ℕ := 500

/-- The statements of the walk. -/
inductive Statement where
  | page
  | flush
  | commit
  | rollback

/-- What the walk raises of its own. -/
inductive Unpriced where
  | pricing (e : PricingError)
  | outOfFuel

/-- `UsageSetPriceResult`, and the ids of the rows recomputed. -/
structure Walked (Id : Type) where
  matched : ℕ := 0
  updated : ℕ := 0
  unchanged : ℕ := 0
  recomputed : List Id := []

abbrev Walk (Id Other Error α : Type) := Tx Error Unpriced (List (StoredRow Id Other)) α

variable [LinearOrder Id]

/-- The rows that match past the last id, in the order of their ids. -/
def ahead (conditions : StoredRow Id Other → Bool) (lastId : Id) (table : List (StoredRow Id Other)) :
    List (StoredRow Id Other) :=
  Select.orderBy (·.id) (table.filter fun row => conditions row && decide (lastId < row.id))

def page (conditions : StoredRow Id Other → Bool) (lastId : Id) (table : List (StoredRow Id Other)) :
    List (StoredRow Id Other) :=
  (ahead conditions lastId table).take repriceChunk

def flush (changes table : List (StoredRow Id Other)) : List (StoredRow Id Other) :=
  table.map fun row => (changes.find? fun change => change.id = row.id).getD row

/-- What a program outside the session comes to. -/
def lift {α : Type} : Except PricingError α → Walk Id Other Error α
  | .ok a => pure a
  | .error e => raise (.raised (.pricing e))

section
variable (server : Server Statement Error) (conditions : StoredRow Id Other → Bool)
  (request : SetPriceRequest)

/-- The loop of `set_usage_price`. -/
def walk : ℕ → Id → Walked Id → Walk Id Other Error (Walked Id)
  | 0, _, _ => raise (.raised .outOfFuel)
  | fuel + 1, lastId, walked => do
    let rows ← query server .page (page conditions lastId)
    match rows.getLast? with
    | none => return walked
    | some last =>
      let repriced ← lift (rows.mapM (reprice request))
      execute server .flush (flush ((repriced.filter (·.2)).map (·.1)))
      walk fuel last.id
        { matched := walked.matched + rows.length
          updated := walked.updated + repriced.countP (·.2)
          unchanged := walked.unchanged + repriced.countP (!·.2)
          recomputed := walked.recomputed ++ rows.map (·.id) }

/-- `set_usage_price`, over as many pages as there may be. -/
def setUsagePrice [OrderBot Id] : Walk Id Other Error (Walked Id) := fun s =>
  onDatabaseError
    (do
      let walked ← walk server conditions request (s.current.length + 1) ⊥ {}
      commit server .commit
      return walked)
    (fun d => do
      rollback server .rollback
      raise (.database d)) s

end

/-! ### A table of rows -/

/-- The rows of a table, told apart by their ids. -/
structure UsageTable (Id Other : Type) [LinearOrder Id] [OrderBot Id] where
  rows : List (StoredRow Id Other)
  distinct : (rows.map (·.id)).Nodup
  named : ∀ row ∈ rows, ⊥ < row.id

/-- The table once the rows that match are repriced, as far as an id. -/
def repricedThrough (conditions : StoredRow Id Other → Bool) (request : SetPriceRequest) (lastId : Id)
    (table : List (StoredRow Id Other)) : List (StoredRow Id Other) :=
  table.map fun row =>
    if conditions row ∧ row.id ≤ lastId then (outcome request row).1 else row

/-- The table once every row that matches is repriced. -/
def repricedAll (conditions : StoredRow Id Other → Bool) (request : SetPriceRequest)
    (table : List (StoredRow Id Other)) : List (StoredRow Id Other) :=
  table.map fun row => if conditions row then (outcome request row).1 else row

variable {conditions : StoredRow Id Other → Bool} {request : SetPriceRequest} {lastId : Id}

/-! ### The rows ahead -/

variable {table : List (StoredRow Id Other)}

theorem mem_ahead :
    row ∈ ahead conditions lastId table ↔ row ∈ table ∧ conditions row = true ∧ lastId < row.id := by
  rw [ahead, Select.mem_orderBy, mem_filter, Bool.and_eq_true, decide_eq_true_iff]

theorem ahead_repricedThrough (table : List (StoredRow Id Other)) :
    ahead conditions lastId (repricedThrough conditions request lastId table) =
      ahead conditions lastId table := by
  have hkeeps : ∀ row : StoredRow Id Other, conditions row = true → lastId < row.id →
      (if conditions row ∧ row.id ≤ lastId then (outcome request row).1 else row) = row :=
    fun row _ hahead => if_neg fun h => absurd h.2 hahead.not_ge
  unfold ahead repricedThrough
  congr 1
  induction table with
  | nil => rfl
  | cons row rest ih =>
    rw [map_cons, filter_cons, filter_cons, ih]
    by_cases hmatch : conditions row = true ∧ row.id ≤ lastId
    · -- behind the id, as it is itself
      have hbehind : ¬ lastId < row.id := hmatch.2.not_gt
      simp [hmatch, hbehind]
    · rw [if_neg hmatch]

theorem pairwise_ahead (conditions : StoredRow Id Other → Bool) (lastId : Id)
    (hdistinct : (table.map (·.id)).Nodup) :
    (ahead conditions lastId table).Pairwise fun a b => a.id < b.id := by
  have hnodup : (ahead conditions lastId table).Pairwise fun a b => a.id ≠ b.id := by
    have htable : table.Pairwise fun a b => a.id ≠ b.id := pairwise_map.mp hdistinct
    exact (htable.filter _).perm (perm_insertionSort _ _).symm fun h => h.symm
  exact (Select.pairwise_orderBy _ _).imp₂ (fun _ _ hle hne => lt_of_le_of_ne hle hne) hnodup

theorem ahead_of_page (hdistinct : (table.map (·.id)).Nodup)
    {rows rest : List (StoredRow Id Other)} {last : StoredRow Id Other}
    (hahead : ahead conditions lastId table = rows ++ rest) (hlast : rows.getLast? = some last) :
    ahead conditions last.id table = rest := by
  have hsorted := pairwise_ahead conditions lastId hdistinct
  have hmem := mem_of_getLast? hlast
  have hpast : lastId < last.id :=
    (mem_ahead.mp (hahead ▸ mem_append_left rest hmem)).2.2
  rw [hahead, pairwise_append] at hsorted
  obtain ⟨hrows, hrest, hcross⟩ := hsorted
  -- both in the order of the ids, with the same members
  refine List.Perm.eq_of_pairwise 
    (fun a b _ _ hab hba => absurd hab hba.not_gt) (pairwise_ahead _ _ hdistinct) hrest ?_
  have hnodup : ∀ {l : List (StoredRow Id Other)}, l.Pairwise (fun a b => a.id < b.id) → l.Nodup :=
    fun h => h.imp fun hlt heq => by rw [heq] at hlt; exact lt_irrefl _ hlt
  refine (perm_ext_iff_of_nodup (hnodup (pairwise_ahead _ _ hdistinct)) (hnodup hrest)).mpr fun row => ?_
  have hrow : row ∈ rows ++ rest ↔ row ∈ table ∧ conditions row = true ∧ lastId < row.id := by
    rw [← hahead, mem_ahead]
  rw [mem_ahead]
  constructor
  · rintro ⟨htable, hmatch, hlater⟩
    rcases mem_append.mp (hrow.mpr ⟨htable, hmatch, hpast.trans hlater⟩) with h | h
    · obtain ⟨front, rfl⟩ := List.getLast?_eq_some_iff.mp hlast
      rcases mem_append.mp h with hfront | hsame
      · exact absurd ((pairwise_append.mp hrows).2.2 row hfront last (by simp)) hlater.not_gt
      · rw [mem_singleton.mp hsame] at hlater
        exact absurd hlater (lt_irrefl _)
    · exact h
  · intro h
    obtain ⟨htable, hmatch, -⟩ := hrow.mp (mem_append_right rows h)
    exact ⟨htable, hmatch, hcross last hmem row h⟩

/-! ### One page -/

def changes (request : SetPriceRequest) (rows : List (StoredRow Id Other)) :
    List (StoredRow Id Other) :=
  ((rows.map (outcome request)).filter (·.2)).map (·.1)

variable {change : StoredRow Id Other}

omit [LinearOrder Id] in
theorem mem_changes {rows : List (StoredRow Id Other)} : change ∈ changes request rows ↔
      ∃ row ∈ rows, (outcome request row).2 = true ∧ (outcome request row).1 = change := by
  simp only [changes, mem_map, mem_filter]
  constructor
  · rintro ⟨_, ⟨⟨row, hrow, rfl⟩, hchanged⟩, rfl⟩
    exact ⟨row, hrow, hchanged, rfl⟩
  · rintro ⟨row, hrow, hchanged, rfl⟩
    exact ⟨_, ⟨⟨row, hrow, rfl⟩, hchanged⟩, rfl⟩

omit [LinearOrder Id] in
theorem change_of_mem {rows : List (StoredRow Id Other)} (hdistinct : (table.map (·.id)).Nodup)
    (hrows : ∀ row ∈ rows, row ∈ table) (hrow : row ∈ table)
    (hchange : change ∈ changes request rows) (hid : change.id = row.id) :
    row ∈ rows ∧ (outcome request row).1 = change := by
  obtain ⟨found, hfound, -, rfl⟩ := mem_changes.mp hchange
  rw [outcome_id] at hid
  obtain rfl := inj_on_of_nodup_map hdistinct (hrows found hfound) hrow hid
  exact ⟨hfound, rfl⟩

theorem changed_of_mem {rows : List (StoredRow Id Other)} (hdistinct : (table.map (·.id)).Nodup)
    (hrows : ∀ row ∈ rows, row ∈ table) (hrow : row ∈ rows) :
    ((changes request rows).find? fun change => change.id = row.id).getD row =
      (outcome request row).1 := by
  cases hfind : (changes request rows).find? fun change => change.id = row.id with
  | some change =>
    exact (change_of_mem hdistinct hrows (hrows row hrow) (mem_of_find?_eq_some hfind)
      (by simpa using List.find?_some hfind)).2.symm
  | none =>
    rcases outcome_cases request row with hsame | ⟨hchanged, hid⟩
    · rw [hsame]
      rfl
    · -- a row that changed is among the changes
      have hchange := mem_changes.mpr ⟨row, hrow, hchanged, rfl⟩
      have hno := List.find?_eq_none.mp hfind _ hchange
      simp at hno

theorem changed_of_not_mem (request : SetPriceRequest) {rows : List (StoredRow Id Other)}
    (hdistinct : (table.map (·.id)).Nodup) (hrows : ∀ row ∈ rows, row ∈ table)
    (hrow : row ∈ table) (hnot : row ∉ rows) :
    ((changes request rows).find? fun change => change.id = row.id) = none := by
  rw [List.find?_eq_none]
  intro change hchange hid
  exact hnot (change_of_mem hdistinct hrows hrow hchange (by simpa using hid)).1

theorem mem_of_page (hdistinct : (table.map (·.id)).Nodup)
    {rows rest : List (StoredRow Id Other)} {last : StoredRow Id Other}
    (hahead : ahead conditions lastId table = rows ++ rest) (hlast : rows.getLast? = some last)
    (hrow : row ∈ table) :
    row ∈ rows ↔ conditions row = true ∧ lastId < row.id ∧ row.id ≤ last.id := by
  have hafter := ahead_of_page hdistinct hahead hlast
  have hsorted := pairwise_ahead conditions lastId hdistinct
  rw [hahead, pairwise_append] at hsorted
  constructor
  · intro h
    obtain ⟨-, hmatch, hlater⟩ := mem_ahead.mp (hahead ▸ mem_append_left rest h)
    refine ⟨hmatch, hlater, not_lt.mp fun hbeyond => ?_⟩
    have hrest : row ∈ rest := hafter ▸ mem_ahead.mpr ⟨hrow, hmatch, hbeyond⟩
    exact absurd (hsorted.2.2 row h row hrest) (lt_irrefl _)
  · rintro ⟨hmatch, hlater, hupto⟩
    have hin : row ∈ rows ++ rest := hahead ▸ mem_ahead.mpr ⟨hrow, hmatch, hlater⟩
    refine (mem_append.mp hin).resolve_right fun hrest => ?_
    exact absurd (mem_ahead.mp (hafter.symm ▸ hrest)).2.2 hupto.not_gt

/-- **A page is flushed**: the table is repriced as far as its last row. -/
theorem flush_changes (hdistinct : (table.map (·.id)).Nodup)
    {rows rest : List (StoredRow Id Other)} {last : StoredRow Id Other}
    (hahead : ahead conditions lastId table = rows ++ rest) (hlast : rows.getLast? = some last) :
    flush (changes request rows) (repricedThrough conditions request lastId table) =
      repricedThrough conditions request last.id table := by
  have hrows : ∀ row ∈ rows, row ∈ table := fun row h =>
    (mem_ahead.mp (hahead ▸ mem_append_left rest h)).1
  have hpast : lastId < last.id :=
    (mem_ahead.mp (hahead ▸ mem_append_left rest (mem_of_getLast? hlast))).2.2
  rw [flush, repricedThrough, repricedThrough, map_map]
  refine map_congr_left fun row hrow => ?_
  have hpage := mem_of_page hdistinct hahead hlast hrow
  rw [Function.comp_apply]
  by_cases hin : row ∈ rows
  · obtain ⟨hmatch, hlater, hupto⟩ := hpage.mp hin
    rw [if_neg fun h => absurd h.2 hlater.not_ge, if_pos ⟨hmatch, hupto⟩,
      changed_of_mem hdistinct hrows hin]
  · have hnone := changed_of_not_mem request hdistinct hrows hrow hin
    by_cases hbehind : conditions row = true ∧ row.id ≤ lastId
    · rw [if_pos hbehind, if_pos ⟨hbehind.1, hbehind.2.trans hpast.le⟩, outcome_id, hnone]
      rfl
    · have hbeyond : ¬ (conditions row = true ∧ row.id ≤ last.id) := fun h =>
        hin (hpage.mpr ⟨h.1, not_le.mp fun hle => hbehind ⟨h.1, hle⟩, h.2⟩)
      rw [if_neg hbehind, if_neg hbeyond, hnone]
      rfl

/-! ### The whole walk -/

/-- What is told once further rows are walked. -/
def Walked.past (walked : Walked Id) (request : SetPriceRequest) (rows : List (StoredRow Id Other)) :
    Walked Id where
  matched := walked.matched + rows.length
  updated := walked.updated + rows.countP fun row => (outcome request row).2
  unchanged := walked.unchanged + rows.countP fun row => !(outcome request row).2
  recomputed := walked.recomputed ++ rows.map (·.id)

omit [LinearOrder Id] in
theorem Walked.past_append (walked : Walked Id) (request : SetPriceRequest)
    (rows rest : List (StoredRow Id Other)) :
    walked.past request (rows ++ rest) = (walked.past request rows).past request rest := by
  simp only [past, length_append, countP_append, map_append, append_assoc,
    Nat.add_assoc]

/-- What a walk that stops raises: an error of the database, or of a row that cannot be priced. -/
def Stops (conditions : StoredRow Id Other → Bool) (request : SetPriceRequest)
    (table : List (StoredRow Id Other)) (e : Failure Error Unpriced) : Prop :=
  (∃ d, e = .database d) ∨ ∃ row ∈ table, conditions row = true ∧
    ∃ unpriced, reprice request row = .error unpriced ∧ e = .raised (.pricing unpriced)

omit [LinearOrder Id] in
theorem mapM_reprice (request : SetPriceRequest) (rows : List (StoredRow Id Other)) :
    rows.mapM (reprice request) = .ok (rows.map (outcome request)) ∧
        (∀ row ∈ rows, reprice request row = .ok (outcome request row)) ∨
      ∃ row ∈ rows, ∃ e, reprice request row = .error e ∧ rows.mapM (reprice request) = .error e := by
  induction rows with
  | nil => exact .inl ⟨rfl, fun row h => absurd h not_mem_nil⟩
  | cons row rest ih =>
    rw [mapM_cons]
    cases hrow : reprice request row with
    | error e => exact .inr ⟨row, mem_cons_self, e, hrow, rfl⟩
    | ok result =>
      obtain rfl := outcome_of_ok hrow
      rcases ih with ⟨hrest, hall⟩ | ⟨found, hfound, e, he, hrest⟩
      · refine .inl ⟨?_, forall_mem_cons.mpr ⟨hrow, hall⟩⟩
        rw [hrest]
        rfl
      · refine .inr ⟨found, mem_cons_of_mem _ hfound, e, he, ?_⟩
        rw [hrest]
        rfl

theorem repricedThrough_of_ahead (h : ahead conditions lastId table = []) :
    repricedThrough conditions request lastId table = repricedAll conditions request table := by
  refine map_congr_left fun row hrow => ?_
  have hbehind : conditions row = true → row.id ≤ lastId := fun hmatch =>
    not_lt.mp fun hlater => by
      have hmem := mem_ahead.mpr ⟨hrow, hmatch, hlater⟩
      rw [h] at hmem
      cases hmem
  by_cases hmatch : conditions row = true
  · rw [if_pos ⟨hmatch, hbehind hmatch⟩, if_pos hmatch]
  · rw [if_neg fun h => hmatch h.1, if_neg hmatch]

/-- **The walk**: it reprices what is ahead, a page at a time. -/
theorem ends_walk {server : Server Statement Error}
    (hdistinct : (table.map (·.id)).Nodup) {c : List (StoredRow Id Other)} (fuel : ℕ) (lastId : Id)
    (walked : Walked Id) {s : Session (List (StoredRow Id Other))}
    (hfuel : (ahead conditions lastId table).length < fuel)
    (hs : s.Open c (repricedThrough conditions request lastId table)) :
    (walk server conditions request fuel lastId walked).Ends s
      (fun result s' => s'.Open c (repricedAll conditions request table) ∧
        result = walked.past request (ahead conditions lastId table) ∧
        ∀ row ∈ ahead conditions lastId table, reprice request row = .ok (outcome request row))
      fun e s' => s'.committed = c ∧ Stops conditions request table e := by
  -- on the pages left: each call walks the rows after `lastId`, the rest being repriced already
  induction fuel generalizing lastId walked s with
  | zero => omega
  | succ fuel ih =>
    have hfails : ∀ l d (s' : Session (List (StoredRow Id Other))),
        Fails (fun d s' => s'.committed = c ∧ server.Raises l d) d s' →
          s'.committed = c ∧ Stops conditions request table d :=
      fun l _ _ ⟨d, heq, hkept, _⟩ => ⟨hkept, .inl ⟨d, heq⟩⟩
    rw [walk, ends_bind]
    refine (ends_query hs _).mono (fun rows s₁ ⟨hrows, hs₁⟩ => ?_) (hfails _)
    have hpage : ahead conditions lastId table = rows ++ (ahead conditions lastId table).drop
        repriceChunk := by
      rw [hrows, page, ahead_repricedThrough, take_append_drop]
    cases hlast : rows.getLast? with
    | none =>
      have hnone : ahead conditions lastId table = [] := by
        have hempty := List.getLast?_eq_none_iff.mp hlast
        rw [hrows, page, ahead_repricedThrough, take_eq_nil_iff] at hempty
        exact hempty.resolve_left (by decide)
      rw [repricedThrough_of_ahead hnone] at hs₁
      rw [hnone]
      exact ⟨hs₁, by simp [Walked.past], fun row h => absurd h not_mem_nil⟩
    | some last =>
      dsimp only
      rw [ends_bind]
      rcases mapM_reprice request rows with ⟨hok, hall⟩ | ⟨row, hrow, e, herror, hstop⟩
      · rw [hok, lift, ends_pure, ends_bind]
        refine (ends_execute hs₁ _).mono (fun _ s₂ hs₂ => ?_) (hfails _)
        have hflush := @flush_changes _ _ _ _ request _ _ hdistinct _ _ _ hpage hlast
        rw [changes] at hflush
        rw [hflush] at hs₂
        have hrest := ahead_of_page hdistinct hpage hlast
        have hpast := walked.past_append request rows (ahead conditions last.id table)
        rw [← hrest] at hpage
        -- a page that has a row leaves fewer rows ahead, so the fuel is enough
        have hshorter : (ahead conditions last.id table).length < fuel := by
          rw [hpage, length_append] at hfuel
          have := length_pos_of_mem (mem_of_getLast? hlast)
          omega
        refine (ih last.id _ hshorter hs₂).mono (fun result s₃ ⟨hs₃, hresult, hahead⟩ => ?_)
          fun _ _ h => h
        refine ⟨hs₃, ?_, ?_⟩
        · rw [hresult, hpage, hpast]
          simp only [Walked.past, countP_map, Function.comp_def]
        · rw [hpage]
          exact forall_mem_append.mpr ⟨hall, hahead⟩
      · obtain ⟨hin, hmatch, -⟩ := mem_ahead.mp (hpage ▸ mem_append_left _ hrow)
        rw [hstop, lift, ends_raise]
        exact ⟨hs₁.1, .inr ⟨row, hin, hmatch, e, herror, rfl⟩⟩

/-! ### The call -/

/-- What a call leaves of a table: each row that matches is repriced, once. -/
structure Repriced [OrderBot Id] (conditions : StoredRow Id Other → Bool) (request : SetPriceRequest)
    (table : UsageTable Id Other) (walked : Walked Id) (s : Session (List (StoredRow Id Other))) :
    Prop where
  landed : s.At (repricedAll conditions request table.rows)
  priced : ∀ row ∈ table.rows, conditions row = true →
    reprice request row = .ok (outcome request row)
  once : walked.recomputed.Perm ((table.rows.filter conditions).map (·.id))
  matched : walked.matched = (table.rows.filter conditions).length
  updated : walked.updated =
    (table.rows.filter conditions).countP fun row => (outcome request row).2
  unchanged : walked.updated + walked.unchanged = walked.matched

/-- What a call that fails leaves: the table, unless its commit landed and the answer was lost. -/
def LeavesTable [OrderBot Id] (server : Server Statement Error) (conditions : StoredRow Id Other → Bool)
    (request : SetPriceRequest) (table : UsageTable Id Other) (e : Failure Error Unpriced)
    (s : Session (List (StoredRow Id Other))) : Prop :=
  Stops conditions request table.rows e ∧
    (s.committed = table.rows ∨ ∃ n d, server.reply .commit n = .landed d)

section
variable [OrderBot Id]

theorem repricedThrough_bot (table : UsageTable Id Other) :
    repricedThrough conditions request ⊥ table.rows = table.rows := by
  rw [repricedThrough, map_congr_left (g := id), map_id]
  intro row hrow
  exact if_neg fun h => absurd (table.named row hrow) h.2.not_gt

theorem perm_ahead_bot (table : UsageTable Id Other) :
    (ahead conditions ⊥ table.rows).Perm (table.rows.filter conditions) := by
  refine (perm_insertionSort _ _).trans (List.Perm.of_eq (filter_congr fun row hrow => ?_))
  rw [decide_eq_true (table.named row hrow), Bool.and_true]

theorem repriced_of_walk {table : UsageTable Id Other} {s : Session (List (StoredRow Id Other))}
    (hs : s.At (repricedAll conditions request table.rows))
    (hpriced : ∀ row ∈ ahead conditions ⊥ table.rows,
      reprice request row = .ok (outcome request row)) : Repriced conditions request table
      (({} : Walked Id).past request (ahead conditions ⊥ table.rows)) s where
  landed := hs
  priced := fun row hrow hmatch =>
    hpriced row (mem_ahead.mpr ⟨hrow, hmatch, table.named row hrow⟩)
  once := by simpa [Walked.past] using (perm_ahead_bot table).map (·.id)
  matched := by simpa [Walked.past] using (perm_ahead_bot table).length_eq
  updated := by simpa [Walked.past] using (perm_ahead_bot table).countP_eq _
  unchanged := by
    simp only [Walked.past, Nat.zero_add]
    rw [length_eq_countP_add_countP fun row => (outcome request row).2]
    congr 2
    funext row
    cases (outcome request row).2 <;> rfl

/-- **The call**: each row that matches is repriced exactly once, or the call fails and the table is
left. -/
theorem ends_setUsagePrice (server : Server Statement Error) (conditions : StoredRow Id Other → Bool)
    (request : SetPriceRequest) (table : UsageTable Id Other) :
    (setUsagePrice server conditions request).Ends (Session.start table.rows)
      (Repriced conditions request table) (LeavesTable server conditions request table) := by
  have hopen : (Session.start table.rows).Open table.rows
      (repricedThrough conditions request ⊥ table.rows) := by
    rw [repricedThrough_bot]
    exact Session.at_start _
  have hfuel : (ahead conditions ⊥ table.rows).length < table.rows.length + 1 := by
    rw [(perm_ahead_bot table).length_eq]
    exact Nat.lt_succ_of_le (length_filter_le _ _)
  -- a rollback leaves what is committed
  have hback : ∀ (d : Error) (s : Session (List (StoredRow Id Other))),
      (s.committed = table.rows ∨ ∃ n d, server.reply .commit n = .landed d) →
      (do rollback server .rollback; raise (.database d) :
        Walk Id Other Error (Walked Id)).Ends s (Repriced conditions request table)
        (LeavesTable server conditions request table) := by
    intro d s hs
    rw [ends_bind]
    refine ends_rollback.mono (fun _ s' hs' => ?_) fun e s' hs' => ?_
    · exact ⟨.inl ⟨d, rfl⟩, hs.imp_left fun h => hs'.1.trans h⟩
    · obtain ⟨d', he, hs', -⟩ := hs'
      exact ⟨.inl ⟨d', he⟩, hs.imp_left fun h => hs'.1.trans h⟩
  show (onDatabaseError (do
      let walked ← walk server conditions request (table.rows.length + 1) ⊥ {}
      commit server .commit
      return walked) _).Ends _ _ _
  rw [onDatabaseError, ends_rescue, ends_bind]
  refine (ends_walk table.distinct _ ⊥ {} hfuel hopen).mono (fun walked s hs => ?_) fun e s hs => ?_
  · obtain ⟨hs, hwalked, hpriced⟩ := hs
    rw [ends_bind]
    refine (ends_commit_landed hs).mono (fun _ s' hs' => ?_) fun e s' hs' => ?_
    · rw [ends_pure, hwalked]
      exact repriced_of_walk hs' hpriced
    · obtain ⟨d, he, hs'⟩ := hs'
      rw [he]
      exact hback d s' (hs'.imp (fun h => h.1) fun h => h.2.imp fun _ h => ⟨d, h⟩)
  · obtain ⟨hkept, hstops⟩ := hs
    rcases hstops with ⟨d, rfl⟩ | hrow
    · exact hback d s (.inl hkept)
    · obtain ⟨-, -, -, unpriced, -, rfl⟩ := id hrow
      exact ⟨.inr hrow, .inl hkept⟩

end

/-! ### Repricing as reported -/

/-- What repricing is to do of a report and the rate that priced it, and of any selection. -/
structure RepricesAsReported (importer : Pricing.Importer) (event : Pricing.ExternalUsageEvent)
    (pricing : Pricing.ModelPricing) : Prop where
  /-- A row comes to what its report does, at every rate. -/
  recovers : ∀ row, Pricing.buildRow importer event (some pricing) = .ok row →
    ∀ (recorded : Bool) (Id Other : Type) (id : Id) (other : Other) (rate : Metered.Pricing),
      priceBillableUsage rate (rowUsage (stored row recorded id other)) =
        priceBillableUsage rate (Pricing.buildUsage event)
  leaves : LeavesCost importer event pricing
  once : ∀ (Id Other Error : Type) [LinearOrder Id] [OrderBot Id] (server : Server Statement Error)
    (conditions : StoredRow Id Other → Bool) (request : SetPriceRequest)
    (table : UsageTable Id Other),
    (setUsagePrice server conditions request).Ends (Session.start table.rows)
      (Repriced conditions request table) (LeavesTable server conditions request table)

/-- **Repricing recovers how a row was reported**, except where the rate's key and the row's read
Claude's 1-hour cache writes apart. -/
theorem repricesAsReported_iff {importer : Pricing.Importer} {event : Pricing.ExternalUsageEvent}
    {pricing : Pricing.ModelPricing} :
    RepricesAsReported importer event pricing ↔ HourAlike event pricing := by
  constructor
  · exact fun h => leavesCost_iff.mp h.leaves
  · intro h
    refine ⟨fun row hrow recorded Id Other id other rate => ?_, leavesCost_iff.mpr h, ?_⟩
    · rw [rowUsage_stored hrow]
    · exact fun Id Other Error _ _ => ends_setUsagePrice

/-! ### A legacy key -/

/-- A million 1-hour cache writes of a model an instance named for its vendor serves. -/
def proxied : Pricing.ExternalUsageEvent where
  sourceEventId := "e".toList
  timestamp := 0
  provider := "claude-proxy".toList
  model := "glm".toList
  cacheWriteTokens := 1000000
  cacheWrite1hTokens := 1000000
  provider_ne := by decide

/-- Its price, under the key's legacy spelling. -/
def proxyPrice : Pricing.ModelPricing where
  modelKey := "claude-proxy/glm".toList
  effectiveAt := 0
  columns :=
    { inputPricePerMillion := 1
      outputPricePerMillion := 1
      cacheWritePricePerMillion := some 1 }

def proxyRates : Metered.Rates where
  inputPricePerMillion := 1
  outputPricePerMillion := 1
  cacheReadPricePerMillion := none
  cacheWritePricePerMillion := some 1
  cacheWrite1hPricePerMillion := some 2

/-- The legacy spelling is read as a Claude model's, and the row's own is not: repriced at the very
rates, the row comes to half. -/
theorem proxied_not_repricesAsReported :
    ¬ RepricesAsReported ⟨['s'], ['u'], none, 1⟩ proxied proxyPrice := by
  intro h
  have hrates : Metered.effectiveRates proxyPrice.rate.toPricing
      (Pricing.buildUsage proxied).totalInputTokens = .ok proxyRates := by decide +kernel
  rcases leavesCost_iff.mp h.leaves proxyRates hrates with hkey | hamount
  · exact absurd hkey (by decide +kernel)
  · exact absurd (hourSame_iff.mp hamount) (by decide +kernel)

end Otari.Usage
