import Otari.Pricing.CatalogCodec

/-!
# Pricing — CatalogRoundTrip — the stored catalog reads back as it was

A value that fits a reader (`Fits`) reads back from its document: a field left at its default is not
written and reads as the default, and any other reads back by its own reader.  Every catalog of the
types the classes declare fits.
-/

namespace Otari.CatalogCodec
open List
open Documents (get update without get_nil get_cons_self get_cons_of_ne get_eq_none_of_not_mem
  get_of_mem)

variable {ν : Type} [DecidableEq ν]

/-! ### Equality -/

mutual

theorem eq_of_same : ∀ {v w : Value ν}, same v w → v = w
  | .null, w, h => by cases w <;> simp_all [same]
  | .bool _, w, h => by cases w <;> simp_all [same]
  | .number _, w, h => by cases w <;> simp_all [same]
  | .str _, w, h => by cases w <;> simp_all [same]
  | .tuple items, w, h => by
    cases w with
    | tuple others => exact congrArg Value.tuple (eq_of_sameItems (by simpa [same] using h))
    | _ => simp [same] at h
  | .mapping entries, w, h => by
    cases w with
    | mapping others => exact congrArg Value.mapping (eq_of_sameEntries (by simpa [same] using h))
    | _ => simp [same] at h
  | .object cls fields, w, h => by
    cases w with
    | object other others =>
      simp only [same, Bool.and_eq_true, decide_eq_true_eq] at h
      rw [h.1, eq_of_sameEntries h.2]
    | _ => simp [same] at h

theorem eq_of_sameItems : ∀ {items others : List (Value ν)}, sameItems items others → items = others
  | [], others, h => by cases others <;> simp_all [sameItems]
  | item :: rest, others, h => by
    cases others with
    | nil => simp [sameItems] at h
    | cons other others =>
      simp only [sameItems, Bool.and_eq_true] at h
      rw [eq_of_same h.1, eq_of_sameItems h.2]

theorem eq_of_sameEntries :
    ∀ {entries others : List (String × Value ν)}, sameEntries entries others → entries = others
  | [], others, h => by cases others <;> simp_all [sameEntries]
  | (key, item) :: rest, others, h => by
    rcases others with _ | ⟨⟨key', other⟩, others⟩
    · simp [sameEntries] at h
    · simp only [sameEntries, Bool.and_eq_true, decide_eq_true_eq] at h
      rw [h.1.1, eq_of_same h.1.2, eq_of_sameEntries h.2]

end

variable [OfNat ν 0]

/-! ### Frozen documents -/

mutual

@[simp] theorem encoded_frozen : ∀ raw : Document ν, encoded (frozen raw) = raw
  | .null => rfl
  | .bool _ => rfl
  | .number _ => rfl
  | .str _ => rfl
  | .list items => by rw [frozen, encoded, encodedItems_frozen items]
  | .dict entries => by rw [frozen, encoded, encodedEntries_frozen entries]

theorem encodedItems_frozen : ∀ items : List (Document ν), encodedItems (frozenItems items) = items
  | [] => rfl
  | item :: rest => by rw [frozenItems, encodedItems, encoded_frozen item, encodedItems_frozen rest]

theorem encodedEntries_frozen :
    ∀ entries : List (String × Document ν), encodedEntries (frozenMapping entries) = entries
  | [] => rfl
  | (key, item) :: rest => by
    rw [frozenMapping, encodedEntries, encoded_frozen item, encodedEntries_frozen rest]

end

/-! ### Values that fit a reader -/

inductive Fits : Reader → Value ν → Prop where
  | plain (raw : Document ν) : Fits .plain (frozen raw)
  /-- An object of a class: its fields, each at its default or fit for its reader. -/
  | one {cls : Class} {fields : List (String × Value ν)}
      (names : fields.map Prod.fst = (cls.fields : List (String × Option (Value ν))).map Prod.fst)
      (fit : ∀ field ∈ fields, atDefault cls field.1 field.2 = false →
        Fits (cls.reader field.1) field.2) : Fits (.one cls) (.object cls fields)
  | each {cls : Class} {items : List (Value ν)} (fit : ∀ item ∈ items, Fits (.one cls) item) :
      Fits (.each cls) (.tuple items)
  | keyed {cls : Class} {entries : List (String × Value ν)}
      (fit : ∀ entry ∈ entries, Fits (.one cls) entry.2) : Fits (.keyed cls) (.mapping entries)

def written (cls : Class) (fields : List (String × Value ν)) : List (String × Value ν) :=
  fields.filter fun field => !atDefault cls field.1 field.2

variable {cls : Class} {fields : List (String × Value ν)}

theorem loadFields_encodedFields (h : ∀ field ∈ fields, atDefault cls field.1 field.2 = false →
      load (cls.reader field.1) (encoded field.2) = .ok field.2) :
    loadFields cls (encodedFields cls fields) = .ok (written cls fields) := by
  induction fields with
  | nil => rfl
  | cons field rest ih =>
    have hrest := ih fun other hother => h other (mem_cons_of_mem _ hother)
    by_cases hdefault : atDefault cls field.1 field.2
    · rw [encodedFields, if_pos hdefault, hrest, written, written,
        filter_cons_of_neg (by simpa using hdefault)]
    · have hload := h field mem_cons_self (by simpa using hdefault)
      rw [encodedFields, if_neg hdefault, loadFields, hload, hrest, written, written,
        filter_cons_of_pos (by simpa using hdefault)]
      rfl

theorem loadItems_encodedItems {items : List (Value ν)}
    (h : ∀ item ∈ items, load (.one cls) (encoded item) = .ok item) :
    loadItems cls (encodedItems items) = .ok items := by
  induction items with
  | nil => rfl
  | cons item rest ih =>
    rw [encodedItems, loadItems, h item mem_cons_self,
      ih fun other hother => h other (mem_cons_of_mem _ hother)]
    rfl

theorem loadEntries_encodedEntries {entries : List (String × Value ν)}
    (h : ∀ entry ∈ entries, load (.one cls) (encoded entry.2) = .ok entry.2) :
    loadEntries cls (encodedEntries entries) = .ok entries := by
  induction entries with
  | nil => rfl
  | cons entry rest ih =>
    rw [encodedEntries, loadEntries, h entry mem_cons_self,
      ih fun other hother => h other (mem_cons_of_mem _ hother)]
    rfl

/-! ### Objects -/

omit [DecidableEq ν] in
theorem nodup_fields (cls : Class) :
    ((cls.fields : List (String × Option (Value ν))).map Prod.fst).Nodup := by
  cases cls <;> simp [Class.fields, required, absent, empty, unset, zero]

theorem given_written
    (names : fields.map Prod.fst = (cls.fields : List (String × Option (Value ν))).map Prod.fst)
    {declared : String × Option (Value ν)} (hdeclared : declared ∈ cls.fields)
    {field : String × Value ν} (hfield : field ∈ fields) (hname : declared.1 = field.1) :
    given (written cls fields) declared = .ok field := by
  have hnodup : (fields.map Prod.fst).Nodup := names ▸ nodup_fields cls
  have hkept : ((written cls fields).map Prod.fst).Nodup :=
    hnodup.sublist (filter_sublist.map _)
  by_cases hdefault : atDefault cls field.1 field.2
  · -- a field that is not written has the default the class declares
    have hnone : get (written cls fields) declared.1 = none := by
      refine get_eq_none_of_not_mem fun hmem => ?_
      obtain ⟨other, hother, hsame⟩ := mem_map.mp hmem
      obtain ⟨hin, hkeep⟩ := mem_filter.mp hother
      have hget := get_of_mem hnodup hin
      rw [hsame, hname, get_of_mem hnodup hfield] at hget
      rw [hsame, hname, ← Option.some.inj hget, hdefault] at hkeep
      cases hkeep
    have hvalue : declared.2 = some field.2 := by
      unfold atDefault at hdefault
      rw [← hname, get_of_mem (nodup_fields cls) hdeclared] at hdefault
      rcases hd : declared.2 with _ | value
      · simp [hd] at hdefault
      · rw [hd] at hdefault
        exact congrArg some (eq_of_same hdefault).symm
    rw [given, hnone, Option.none_or, hvalue, hname]
  · have hin : field ∈ written cls fields := mem_filter.mpr ⟨hfield, by simpa using hdefault⟩
    have hget := get_of_mem hkept hin
    rw [given, hname, hget, Option.some_or]

omit [DecidableEq ν] [OfNat ν 0] in
theorem mapM_of_names {α β ε : Type} {f : String × α → Except ε (String × β)}
    {l : List (String × α)} {l' : List (String × β)} (names : l'.map Prod.fst = l.map Prod.fst)
    (h : ∀ a ∈ l, ∀ b ∈ l', a.1 = b.1 → f a = .ok b) : l.mapM f = .ok l' := by
  induction l generalizing l' with
  | nil =>
    obtain rfl : l' = [] := map_eq_nil_iff.mp names
    rfl
  | cons a rest ih =>
    rcases l' with _ | ⟨b, rest'⟩
    · cases names
    · obtain ⟨hname, hnames⟩ := List.cons.inj names
      have hfirst := h a mem_cons_self b mem_cons_self hname.symm
      have hrest := ih hnames fun a' ha b' hb =>
        h a' (mem_cons_of_mem _ ha) b' (mem_cons_of_mem _ hb)
      rw [mapM_cons, hfirst, hrest]
      rfl

theorem construct_written
    (names : fields.map Prod.fst = (cls.fields : List (String × Option (Value ν))).map Prod.fst) :
    construct cls (written cls fields) = .ok (.object cls fields) := by
  have hknown : (written cls fields).all fun entry =>
      entry.1 ∈ (cls.fields : List (String × Option (Value ν))).map Prod.fst := by
    refine all_eq_true.mpr fun entry hentry => decide_eq_true ?_
    rw [← names]
    exact mem_map_of_mem (mem_filter.mp hentry).1
  unfold construct
  dsimp only
  rw [if_pos hknown, mapM_of_names names fun declared hd field hf => given_written names hd hf]
  rfl

/-- **A value reads back from its document.** -/
theorem load_encoded {reader : Reader} {v : Value ν} (h : Fits reader v) :
    load reader (encoded v) = .ok v := by
  induction h with
  | plain raw =>
    rw [encoded_frozen]
    cases raw <;> rfl
  | one names _ ih =>
    rw [encoded, load, loadFields_encodedFields ih]
    exact construct_written names
  | each _ ih =>
    rw [encoded, load, loadItems_encodedItems ih]
    rfl
  | keyed _ ih =>
    rw [encoded, load, loadEntries_encodedEntries ih]
    rfl

end Otari.CatalogCodec
