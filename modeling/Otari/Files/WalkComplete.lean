import Otari.Files.Listing

/-!
# Files — WalkComplete — walks that miss nothing

A page resumes after the place of the file its cursor names, so the cursor's row has to be there still:
discarded or expired it is, but the sweep removes it.  **In a run whose removals leave the row the
walk's cursor names, no request fails, the files come in strict order, and a walk that is over has
returned every file that was served at each of its requests** (`walk_complete`).  Such a walk asks for
at most one page more than there were files.
-/

namespace Otari.Files
open List

/-! ### Page tokens -/

/-- **A page token names the file it was made for.** -/
theorem fileIdIn_pageToken {id : Text} (h : couldNameAFile id = true) :
    fileIdIn (pageToken id) = some id := by
  have hchars : ∀ c ∈ id, 0x20 ≤ c.toNat ∧ c.toNat ≤ 0x7e := by
    intro c hc
    simpa using all_eq_true.mp h c hc
  have hbytes : ∀ b ∈ id.map Char.toNat, 0x20 ≤ b ∧ b ≤ 0x7e := by
    intro b hb
    obtain ⟨c, hc, rfl⟩ := mem_map.mp hb
    exact hchars c hc
  have hback : (id.map Char.toNat).map Char.ofNat = id := by
    rw [map_map]
    exact (map_congr_left fun c _ => Char.ofNat_toNat c).trans (map_id id)
  have hdrop : (pageToken id).drop 5 =
      (Base64.encode (id.map Char.toNat)).rdropWhile (· = '=') := rfl
  have hprefix : "page_".toList.isPrefixOf (pageToken id) = true :=
    List.isPrefixOf_iff_prefix.mpr (prefix_append _ _)
  rw [fileIdIn, if_pos hprefix, hdrop,
    Base64.decode_repad fun b hb => lt_of_le_of_lt (hbytes b hb).2 (by decide), Option.bind_some,
    if_pos, hback]
  rw [all_eq_true]
  intro b hb
  simpa using hbytes b hb

variable {listing : FileListing}

theorem cursorId_cursorOf {id : Text} (h : couldNameAFile id = true) :
    cursorId listing (cursorOf listing id) = .ok id := by
  rw [cursorId, cursorOf]
  cases listing.dialect with
  | openai => rfl
  | anthropic => simp only [fileIdIn_pageToken h]

/-! ### What happens to the rows -/

/-- The files' rows: each id once, given out once, and one that can name a file. -/
structure Store.Ok (store : Store) : Prop where
  nodup : (store.rows.map (·.id)).Nodup
  issued : ∀ row ∈ store.rows, (row.id, row.createdAt) ∈ store.issued
  once : (store.issued.map Prod.fst).Nodup
  named : ∀ row ∈ store.rows, couldNameAFile row.id = true

/-- What stays of a row: all but its state, and what was not pending stays so. -/
structure Same (row row' : FileObject) : Prop where
  id : row'.id = row.id
  userId : row'.userId = row.userId
  workspaceId : row'.workspaceId = row.workspaceId
  createdAt : row'.createdAt = row.createdAt
  pendingSince : row.pendingSince = none → row'.pendingSince = none

theorem Same.refl (row : FileObject) : Same row row :=
  ⟨rfl, rfl, rfl, rfl, fun h => h⟩

variable {store store' : Store}

section
variable {p : FileObject → Bool} {f : FileObject → FileObject}

theorem mem_change {row' : FileObject} : row' ∈ (store.change p f).rows ↔
    ∃ row ∈ store.rows, (if p row then f row else row) = row' :=
  mem_map

theorem same_change (hf : ∀ row, Same row (f row)) (row : FileObject) :
    Same row (if p row then f row else row) := by
  split
  · exact hf row
  · exact .refl row

theorem change_ok (hf : ∀ row, Same row (f row)) (h : store.Ok) : (store.change p f).Ok := by
  have hsame := @same_change p f hf
  have hids : (store.change p f).rows.map (·.id) = store.rows.map (·.id) := by
    rw [Store.change, map_map]
    exact map_congr_left fun row _ => (hsame row).id
  refine ⟨hids ▸ h.nodup, fun row' hrow' => ?_, h.once, fun row' hrow' => ?_⟩
  · obtain ⟨row, hrow, rfl⟩ := mem_change.mp hrow'
    rw [(hsame row).id, (hsame row).createdAt]
    exact h.issued row hrow
  · obtain ⟨row, hrow, rfl⟩ := mem_change.mp hrow'
    rw [(hsame row).id]
    exact h.named row hrow

end

variable {action : Action}

/-- What an action does: it adds a row under a new id, changes the state of rows, lets time go on, or
removes rows. -/
theorem act_cases (h : store.act action = some store') :
    (∃ record, couldNameAFile record.id = true ∧ record.id ∉ store.issued.map Prod.fst ∧
      store' = { store with
        rows := store.rows ++ [record]
        issued := store.issued ++ [(record.id, record.createdAt)] }) ∨
    (∃ p f, (∀ row, Same row (f row)) ∧ store' = store.change p f) ∨
    (∃ now, store' = { store with now }) ∨
    (∃ ids, action = .removeAll ids ∧
      store' = { store with rows := store.rows.filter fun row => row.id ∉ ids }) := by
  cases action with
  | reserve record =>
    rw [Store.act] at h
    split at h
    · rename_i hnew
      exact .inl ⟨record, hnew.2.2.1, hnew.2.2.2, (Option.some.inj h).symm⟩
    · cases h
  | markStored id =>
    refine .inr (.inl ⟨_, _, ?_, (Option.some.inj h).symm⟩)
    exact fun row => ⟨rfl, rfl, rfl, rfl, fun _ => rfl⟩
  | discard id scope =>
    refine .inr (.inl ⟨_, _, ?_, (Option.some.inj h).symm⟩)
    exact fun row => ⟨rfl, rfl, rfl, rfl, fun hpending => hpending⟩
  | tick now =>
    rw [Store.act] at h
    split at h
    · exact .inr (.inr (.inl ⟨now, (Option.some.inj h).symm⟩))
    · cases h
  | claim ids =>
    rw [Store.act] at h
    split at h
    · refine .inr (.inl ⟨_, _, ?_, (Option.some.inj h).symm⟩)
      exact fun row => ⟨rfl, rfl, rfl, rfl, fun hpending => hpending⟩
    · cases h
  | removeAll ids =>
    rw [Store.act] at h
    split at h
    · exact .inr (.inr (.inr ⟨ids, rfl, (Option.some.inj h).symm⟩))
    · cases h

theorem act_ok (h : store.act action = some store') (hok : store.Ok) : store'.Ok := by
  rcases act_cases h with ⟨record, hnamed, hfresh, rfl⟩ | ⟨p, f, hf, rfl⟩ | ⟨now, rfl⟩ | ⟨ids, -, rfl⟩
  · have hnew : ∀ row ∈ store.rows, row.id ≠ record.id := by
      intro row hrow hid
      exact hfresh (mem_map.mpr ⟨_, hok.issued row hrow, hid⟩)
    refine ⟨?_, fun row hrow => ?_, ?_, fun row hrow => ?_⟩
    · rw [map_append, nodup_append]
      refine ⟨hok.nodup, nodup_singleton _, fun id hid id' hid' heq => ?_⟩
      obtain ⟨row, hrow, rfl⟩ := mem_map.mp hid
      exact hnew row hrow (heq.trans (mem_singleton.mp hid'))
    · rcases mem_append.mp hrow with hrow | hrow
      · exact mem_append_left _ (hok.issued row hrow)
      · rw [mem_singleton.mp hrow]
        exact mem_append_right _ (mem_singleton_self _)
    · rw [map_append, nodup_append]
      refine ⟨hok.once, nodup_singleton _, fun id hid id' hid' heq => ?_⟩
      rw [heq, mem_singleton.mp hid'] at hid
      exact hfresh hid
    · rcases mem_append.mp hrow with hrow | hrow
      · exact hok.named row hrow
      · rw [mem_singleton.mp hrow]
        exact hnamed
  · exact change_ok hf hok
  · exact ⟨hok.nodup, hok.issued, hok.once, hok.named⟩
  · exact ⟨hok.nodup.sublist (filter_sublist.map _),
      fun row hrow => hok.issued row (mem_of_mem_filter hrow), hok.once,
      fun row hrow => hok.named row (mem_of_mem_filter hrow)⟩

theorem act_issued (h : store.act action = some store') : store.issued ⊆ store'.issued := by
  rcases act_cases h with ⟨record, -, -, rfl⟩ | ⟨p, f, -, rfl⟩ | ⟨now, rfl⟩ | ⟨ids, -, rfl⟩
  · exact subset_append_left _ _
  · exact List.Subset.refl _
  · exact List.Subset.refl _
  · exact List.Subset.refl _

variable {row : FileObject}

/-- **A row stays, but for its state, unless it is removed.** -/
theorem act_keeps (h : store.act action = some store')
    (hrow : row ∈ store.rows) (hkept : ∀ ids, action = .removeAll ids → row.id ∉ ids) :
    ∃ row' ∈ store'.rows, Same row row' := by
  rcases act_cases h with ⟨record, -, -, rfl⟩ | ⟨p, f, hf, rfl⟩ | ⟨now, rfl⟩ | ⟨ids, hids, rfl⟩
  · exact ⟨row, mem_append_left _ hrow, .refl row⟩
  · exact ⟨_, mem_change.mpr ⟨row, hrow, rfl⟩, same_change hf row⟩
  · exact ⟨row, hrow, .refl row⟩
  · exact ⟨row, mem_filter.mpr ⟨hrow, by simpa using hkept ids hids⟩, .refl row⟩

/-! ### A page -/

variable {κ : Type} [LinearOrder κ] {collate : Text → κ} (hcollate : Function.Injective collate)
include hcollate

omit [LinearOrder κ] in
theorem position_injective : Function.Injective (position collate) := by
  rintro ⟨t, id⟩ ⟨t', id'⟩ h
  have hpair := congrArg ofLex h
  simp only [position, ofLex_toLex, Prod.mk.injEq] at hpair
  rw [hpair.1, hcollate hpair.2]

theorem isStrictTotalOrder_past (ascending : Bool) :
    IsStrictTotalOrder (Instant × Text) (past collate ascending) := by
  have hinj := position_injective hcollate
  cases ascending with
  | true =>
    refine { trichotomous := fun a b hab hba => ?_, irrefl := fun a h => lt_irrefl _ h,
             trans := fun a b c h h' => lt_trans h h' }
    exact hinj (le_antisymm (not_lt.mp hba) (not_lt.mp hab))
  | false =>
    refine { trichotomous := fun a b hab hba => ?_, irrefl := fun a h => lt_irrefl _ h,
             trans := fun a b c h h' => lt_trans h' h }
    exact hinj (le_antisymm (not_lt.mp hab) (not_lt.mp hba))

variable (hlimit : 1 ≤ listing.limit)

/-- The row is one of the listing's after a place. -/
def Selected (collate : Text → κ) (listing : FileListing) (store : Store)
    (after : Option (Instant × Text)) (row : FileObject) : Prop :=
  row ∈ store.rows ∧ row.served store.now = true ∧ listing.matches row = true ∧
    ∀ place, after = some place → past collate listing.ascending place row.place

omit hcollate in
theorem mem_selected {after : Option (Instant × Text)} :
    row ∈ selected collate listing store after ↔ Selected collate listing store after row := by
  rw [selected, Keyset.mem_sortBy, mem_filter, Selected]
  cases after <;> simp [and_assoc]

theorem pairwise_selected (hok : store.Ok) (after : Option (Instant × Text)) :
    (selected collate listing store after).Pairwise fun a b =>
      past collate listing.ascending a.place b.place := by
  have horder := isStrictTotalOrder_past hcollate listing.ascending
  refine Keyset.pairwise_sortBy (List.Nodup.of_map Prod.snd ?_)
  rw [map_map]
  exact hok.nodup.sublist (filter_sublist.map _)

include hlimit in
/-- **A page: the listing's files after a place in order, and where it has a cursor, that of its last
file, which all the others are past.** -/
theorem pageAfter_spec (hok : store.Ok) (after : Option (Instant × Text)) :
    (∀ file ∈ (pageAfter collate listing store after).files,
      Selected collate listing store after file) ∧
    (pageAfter collate listing store after).files.Pairwise
      (fun a b => past collate listing.ascending a.place b.place) ∧
    (∀ row, Selected collate listing store after row →
      row ∈ (pageAfter collate listing store after).files ∨
        ∃ file, (pageAfter collate listing store after).files.getLast? = some file ∧
          past collate listing.ascending file.place row.place ∧
          (pageAfter collate listing store after).nextCursor = some (cursorOf listing file.id)) ∧
    ∀ cursor, (pageAfter collate listing store after).nextCursor = some cursor →
      ∃ file, (pageAfter collate listing store after).files.getLast? = some file ∧
        cursor = cursorOf listing file.id := by
  have hsorted : (selected collate listing store after).Pairwise fun a b =>
      past collate listing.ascending a.place b.place := pairwise_selected hcollate hok after
  have hsub := Keyset.cut_sublist (min listing.limit maxListLimit)
    (selected collate listing store after)
  have hpos : 0 < min listing.limit maxListLimit := lt_min hlimit (by decide)
  have hfull := @Keyset.length_cut _ (selected collate listing store after)
    (min listing.limit maxListLimit)
  refine ⟨fun file hfile => mem_selected.mp (hsub.subset hfile), hsorted.sublist hsub,
    fun row hrow => ?_, fun cursor hcursor => ?_⟩
  · have hcut := @Keyset.mem_cut_or _ _ _ (min listing.limit maxListLimit) hsorted row
      (mem_selected.mpr hrow)
    rcases hcut with hmem | ⟨hmore, hpast⟩
    · exact .inl hmem
    · have hne := ne_nil_of_length_pos (hfull hmore ▸ hpos)
      refine .inr ⟨_, List.getLast?_eq_getLast_of_ne_nil hne, hpast _ (getLast_mem hne), ?_⟩
      rw [pageAfter]
      simp only [hmore, if_true, List.getLast?_eq_getLast_of_ne_nil hne, Option.map_some]
  · rw [pageAfter] at hcursor ⊢
    dsimp only at hcursor ⊢
    split at hcursor
    · obtain ⟨file, hfile, rfl⟩ := Option.map_eq_some_iff.mp hcursor
      exact ⟨file, hfile, rfl⟩
    · cases hcursor

omit hcollate in
theorem filesPage_of_cursor (hok : store.Ok) (hrow : row ∈ store.rows)
    (hscope : row.inScope listing.scope = true) (hpending : row.pendingSince = none) :
    filesPage collate listing store (some (cursorOf listing row.id)) =
      .ok (pageAfter collate listing store (some row.place)) := by
  have hnamed := hok.named row hrow
  have hfind : anyOwned listing store row.id = some row := by
    rw [anyOwned, if_pos hnamed]
    cases hfind : store.rows.find? fun other =>
        other.id = row.id && other.pendingSince.isNone && other.inScope listing.scope with
    | none =>
      have hnone := List.find?_eq_none.mp hfind row hrow
      simp [hscope, hpending] at hnone
    | some other =>
      have hother := List.find?_some hfind
      simp only [Bool.and_eq_true, decide_eq_true_eq] at hother
      rw [inj_on_of_nodup_map hok.nodup (mem_of_find?_eq_some hfind) hrow hother.1.1]
  have hplace : positionOf listing store row.id = .ok row.place := by
    rw [positionOf, hfind]
    rfl
  simp only [filesPage, cursorId_cursorOf hnamed, hplace, ok_bind]

/-! ### The walk -/

def returned (walk : Walk) : List FileObject :=
  walk.pages.flatMap fun page =>
    match page.2 with
    | .ok page => page.files
    | .error _ => []

/-- A file that is served and the listing's, by its place, when a page is asked for. -/
def ServedAt (listing : FileListing) (place : Instant × Text) (store : Store) : Prop :=
  ∃ row ∈ store.rows, row.place = place ∧ row.served store.now = true ∧ listing.matches row = true

/-- The walk resumes after the last file it returned, whose row is there. -/
def Resumes (listing : FileListing) (walk : Walk) (file : FileObject) : Prop :=
  walk.next = some (some (cursorOf listing file.id)) ∧ (returned walk).getLast? = some file ∧
    ∃ row ∈ walk.store.rows, row.place = file.place ∧ row.inScope listing.scope = true ∧
      row.pendingSince = none

variable (collate listing) in
/-- **What holds of a walk.** -/
structure Walk.Good (walk : Walk) : Prop where
  ok : walk.store.Ok
  before : ∀ page ∈ walk.pages, page.1.Ok ∧ page.1.issued ⊆ walk.store.issued
  noError : ∀ page ∈ walk.pages, ∃ files, page.2 = .ok files
  sorted : (returned walk).Pairwise fun a b => past collate listing.ascending a.place b.place
  issued : ∀ file ∈ returned walk, (file.id, file.createdAt) ∈ walk.store.issued
  resumes : walk.pages = [] ∨ walk.next = none ∨ ∃ file, Resumes listing walk file
  complete : ∀ place, (∀ page ∈ walk.pages, ServedAt listing place page.1) → walk.pages = [] ∨
    (∃ file ∈ returned walk, file.place = place) ∨
      ∃ file, Resumes listing walk file ∧ past collate listing.ascending file.place place
  count : walk.pages.length ≤ (returned walk).length + if walk.next = none then 1 else 0

variable (listing) in
/-- The rows removed are not the one the walk's cursor names. -/
def CursorKept (walk : Walk) (action : Option Action) : Prop :=
  ∀ ids, action = some (.removeAll ids) → ∀ cursor id, walk.next = some (some cursor) →
    cursorId listing cursor = .ok id → id ∉ ids

omit [LinearOrder κ] hcollate in
theorem returned_append (walk : Walk) (store : Store) (page : FilePage) :
    returned { walk with pages := walk.pages ++ [(store, .ok page)] } =
      returned walk ++ page.files := by
  simp [returned]

omit [LinearOrder κ] hcollate in
theorem next_append (walk : Walk) (store : Store) (page : FilePage) :
    ({ walk with pages := walk.pages ++ [(store, .ok page)] } : Walk).next =
      page.nextCursor.map some := by
  simp [Walk.next]

variable {walk : Walk}

omit hcollate in
theorem Walk.Good.act (h : walk.Good listing collate)
    {store : Store} (hact : walk.store.act action = some store)
    (hkept : CursorKept listing walk (some action)) :
    ({ walk with store } : Walk).Good listing collate := by
  have hsub := act_issued hact
  have hresumes {file : FileObject} (hfile : Resumes listing walk file) :
      Resumes listing { walk with store } file := by
    obtain ⟨hnext, hlast, row, hrow, hplace, hscope, hpending⟩ := hfile
    have hid : row.id = file.id := congrArg Prod.snd hplace
    have hnamed := h.ok.named row hrow
    obtain ⟨row', hrow', hsame⟩ := act_keeps hact hrow fun ids hids =>
      hkept ids (congrArg some hids) _ row.id (hid ▸ hnext) (cursorId_cursorOf hnamed)
    refine ⟨hnext, hlast, row', hrow', ?_, ?_, hsame.pendingSince hpending⟩
    · rw [← hplace, FileObject.place, FileObject.place, hsame.createdAt, hsame.id]
    · rw [FileObject.inScope, hsame.userId, hsame.workspaceId]
      exact hscope
  refine ⟨act_ok hact h.ok, fun page hpage => ?_, h.noError, h.sorted,
    fun file hfile => hsub (h.issued file hfile), ?_, fun place hplace => ?_, h.count⟩
  · obtain ⟨hok, hissued⟩ := h.before page hpage
    exact ⟨hok, List.Subset.trans hissued hsub⟩
  · rcases h.resumes with hnil | hnext | ⟨file, hfile⟩
    · exact .inl hnil
    · exact .inr (.inl hnext)
    · exact .inr (.inr ⟨file, hresumes hfile⟩)
  · rcases h.complete place hplace with hnil | hfound | ⟨file, hfile, hpast⟩
    · exact .inl hnil
    · exact .inr (.inl hfound)
    · exact .inr (.inr ⟨file, hresumes hfile, hpast⟩)

omit hcollate in
theorem Walk.Good.page (h : walk.Good listing collate) {cursor : Option Text}
    (hnext : walk.next = some cursor) : ∃ after, filesPage collate listing walk.store cursor =
        .ok (pageAfter collate listing walk.store after) ∧ (walk.pages = [] ∧ after = none ∨
        ∃ file, Resumes listing walk file ∧ after = some file.place) := by
  rcases h.resumes with hnil | hnone | ⟨file, hfile⟩
  · have hcursor : cursor = none := by
      rw [Walk.next, hnil] at hnext
      exact (Option.some.inj hnext).symm
    subst hcursor
    exact ⟨none, rfl, .inl ⟨hnil, rfl⟩⟩
  · rw [hnone] at hnext
    cases hnext
  · have hresumes := hfile
    obtain ⟨hnext', -, row, hrow, hplace, hscope, hpending⟩ := hresumes
    rw [hnext'] at hnext
    cases hnext
    have hid : row.id = file.id := congrArg Prod.snd hplace
    refine ⟨some file.place, ?_, .inr ⟨file, hfile, rfl⟩⟩
    rw [← hid, ← hplace]
    exact filesPage_of_cursor h.ok hrow hscope hpending

omit hcollate in
theorem eq_or_past_of_sorted (h : walk.Good listing collate) {file last : FileObject}
    (hlast : (returned walk).getLast? = some last) (hfile : file ∈ returned walk) :
    file = last ∨ past collate listing.ascending file.place last.place := by
  obtain ⟨front, hfront⟩ := List.getLast?_eq_some_iff.mp hlast
  have hsorted := h.sorted
  rw [hfront] at hsorted hfile
  rcases mem_append.mp hfile with hmem | hmem
  · exact .inr ((pairwise_append.mp hsorted).2.2 file hmem last (mem_singleton_self _))
  · exact .inl (mem_singleton.mp hmem)

include hlimit in
/-- **The page a good walk asks for leaves it good.** -/
theorem Walk.Good.step_page (h : walk.Good listing collate) {cursor : Option Text}
    (hnext : walk.next = some cursor) : ({ walk with pages := walk.pages ++
        [(walk.store, filesPage collate listing walk.store cursor)] } : Walk).Good listing collate := by
  have horder := isStrictTotalOrder_past hcollate listing.ascending
  obtain ⟨after, hpage, hafter⟩ := h.page hnext
  rw [hpage]
  obtain ⟨hselected, hsorted, hcomplete, hcursor⟩ :=
    pageAfter_spec hcollate hlimit h.ok after
  generalize pageAfter collate listing walk.store after = page at *
  -- What was returned is before the place the page starts after.
  have hbefore : ∀ old ∈ returned walk, ∀ new ∈ page.files,
      past collate listing.ascending old.place new.place := by
    intro old hold new hnew
    rcases hafter with ⟨hnil, -⟩ | ⟨file, hfile, hplace⟩
    · rw [returned, hnil] at hold
      cases hold
    · have hpast := (hselected new hnew).2.2.2 file.place hplace
      rcases eq_or_past_of_sorted h hfile.2.1 hold with rfl | hold
      · exact hpast
      · exact horder.trans _ _ _ hold hpast
  have hresumes : ∀ file, page.files.getLast? = some file →
      page.nextCursor = some (cursorOf listing file.id) →
      Resumes listing { walk with pages := walk.pages ++ [(walk.store, .ok page)] } file := by
    intro file hlast hfile
    obtain ⟨hrow, hserved, hmatches, -⟩ := hselected file (mem_of_getLast? hlast)
    simp only [FileListing.matches, Bool.and_eq_true] at hmatches
    simp only [FileObject.served, Bool.and_eq_true, Option.isNone_iff_eq_none] at hserved
    refine ⟨?_, ?_, file, hrow, rfl, hmatches.1.1, hserved.1.1⟩
    · rw [next_append, hfile]
      rfl
    · rw [returned_append, List.getLast?_append, hlast]
      rfl
  constructor
  · exact h.ok
  · intro p hp
    rcases mem_append.mp hp with hp | hp
    · exact h.before p hp
    · rw [mem_singleton.mp hp]
      exact ⟨h.ok, List.Subset.refl _⟩
  · intro p hp
    rcases mem_append.mp hp with hp | hp
    · exact h.noError p hp
    · rw [mem_singleton.mp hp]
      exact ⟨page, rfl⟩
  · rw [returned_append, pairwise_append]
    exact ⟨h.sorted, hsorted, hbefore⟩
  · intro file hfile
    rw [returned_append] at hfile
    rcases mem_append.mp hfile with hfile | hfile
    · exact h.issued file hfile
    · exact h.ok.issued file (hselected file hfile).1
  · cases hmore : page.nextCursor with
    | none =>
      refine .inr (.inl ?_)
      rw [next_append, hmore]
      rfl
    | some next =>
      obtain ⟨file, hlast, rfl⟩ := hcursor next hmore
      exact .inr (.inr ⟨file, hresumes file hlast hmore⟩)
  · intro place hserved
    have hold := h.complete place fun p hp => hserved p (mem_append_left _ hp)
    obtain ⟨row, hrow, hplace, hrowserved, hmatches⟩ :=
      hserved (walk.store, .ok page) (mem_append_right _ (mem_singleton_self _))
    refine .inr ?_
    have hfresh : (∀ start, after = some start → past collate listing.ascending start place) →
        (∃ file ∈ page.files, file.place = place) ∨ ∃ file,
          Resumes listing { walk with pages := walk.pages ++ [(walk.store, .ok page)] } file ∧
            past collate listing.ascending file.place place := by
      intro hstart
      rcases hcomplete row ⟨hrow, hrowserved, hmatches, hplace ▸ hstart⟩ with
        hmem | ⟨file, hlast, hpast, hfile⟩
      · exact .inl ⟨row, hmem, hplace⟩
      · exact .inr ⟨file, hresumes file hlast hfile, hplace ▸ hpast⟩
    have hreturned : (∃ file ∈ page.files, file.place = place) →
        ∃ file ∈ returned { walk with pages := walk.pages ++ [(walk.store, .ok page)] },
          file.place = place := by
      rintro ⟨file, hfile, hplace⟩
      rw [returned_append]
      exact ⟨file, mem_append_right _ hfile, hplace⟩
    rcases hafter with ⟨-, hnone⟩ | ⟨start, hstart, hsome⟩
    · exact (hfresh fun start hstart => by rw [hnone] at hstart; cases hstart).imp_left hreturned
    · rcases hold with hnil | ⟨file, hfile, hfileplace⟩ | ⟨file, hfile, hpast⟩
      · have hlast := hstart.2.1
        rw [returned, hnil] at hlast
        cases hlast
      · rw [returned_append]
        exact .inl ⟨file, mem_append_left _ hfile, hfileplace⟩
      · have hsame : file = start := Option.some.inj (hfile.2.1.symm.trans hstart.2.1)
        refine (hfresh fun place' hplace' => ?_).imp_left hreturned
        rw [hsome] at hplace'
        rw [← Option.some.inj hplace', ← hsame]
        exact hpast
  · rw [next_append, returned_append, length_append, length_append, length_singleton]
    have hcount := h.count
    rw [hnext] at hcount
    simp only [reduceCtorEq, if_false] at hcount
    cases hmore : page.nextCursor with
    | none =>
      simp only [Option.map_none, if_true]
      omega
    | some next =>
      obtain ⟨file, hlast, -⟩ := hcursor next hmore
      have hpos := length_pos_of_mem (mem_of_getLast? hlast)
      simp only [Option.map_some, reduceCtorEq, if_false]
      omega

/-- A walk that has not asked for a page yet. -/
def Walk.Start (walk : Walk) : Prop := walk.pages = [] ∧ walk.store.Ok

omit hcollate in
theorem Walk.Start.good (h : walk.Start) : walk.Good listing collate := by
  obtain ⟨hnil, hok⟩ := h
  have hreturned : returned walk = [] := by
    rw [returned, hnil]
    rfl
  refine ⟨hok, ?_, ?_, ?_, ?_, .inl hnil, fun _ _ => .inl hnil, ?_⟩
  · rw [hnil]
    exact fun _ hp => (nomatch hp)
  · rw [hnil]
    exact fun _ hp => (nomatch hp)
  · rw [hreturned]
    exact List.Pairwise.nil
  · rw [hreturned]
    exact fun _ hp => (nomatch hp)
  · rw [hnil]
    exact Nat.zero_le _

include hlimit in
/-- **Every walk whose removals keep its cursor's row is good.** -/
theorem good_of_reached
    (h : Runs.Reached Walk.Start (Walk.step collate listing) (CursorKept listing) walk) :
    walk.Good listing collate := by
  refine h.keeps (fun _ hstart => hstart.good) fun walk action walk' hgood hkept hstep => ?_
  cases action with
  | none =>
    obtain ⟨cursor, hnext, rfl⟩ := Option.map_eq_some_iff.mp hstep
    exact hgood.step_page hcollate hlimit hnext
  | some action =>
    obtain ⟨store, hact, rfl⟩ := Option.map_eq_some_iff.mp hstep
    exact hgood.act hact hkept

omit [LinearOrder κ] hcollate in
theorem createdAt_unique (hok : store.Ok) {id : Text} {t t' : Instant}
    (h : (id, t) ∈ store.issued) (h' : (id, t') ∈ store.issued) : t = t' :=
  congrArg Prod.snd (inj_on_of_nodup_map hok.once h h' rfl)

theorem nodup_returned (h : walk.Good listing collate) : ((returned walk).map (·.id)).Nodup := by
  have horder := isStrictTotalOrder_past hcollate listing.ascending
  refine pairwise_map.mpr (h.sorted.imp_of_mem fun {a b} ha hb hpast hid => ?_)
  have hcreated : a.createdAt = b.createdAt :=
    createdAt_unique h.ok (hid ▸ h.issued a ha) (h.issued b hb)
  have hplace : a.place = b.place := Prod.ext hcreated hid
  rw [hplace] at hpast
  exact horder.irrefl _ hpast

include hlimit in
/-- **Walking the file list is complete**, where no removal takes the row the walk's cursor names. -/
theorem walk_complete {walk : Walk}
    (h : Runs.Reached Walk.Start (Walk.step collate listing) (CursorKept listing) walk) :
    (∀ page ∈ walk.pages, ∃ files, page.2 = .ok files) ∧
      (returned walk).Pairwise (fun a b => past collate listing.ascending a.place b.place) ∧
      ((returned walk).map (·.id)).Nodup ∧ (walk.pages ≠ [] → walk.next = none → ∀ id,
        (∀ page ∈ walk.pages, ∃ row ∈ page.1.rows, row.id = id ∧
          row.served page.1.now = true ∧ listing.matches row = true) →
        ∃ file ∈ returned walk, file.id = id) ∧
      walk.pages.length ≤ walk.store.issued.length + 1 := by
  have hgood := good_of_reached hcollate hlimit h
  have hnodup := nodup_returned hcollate hgood
  refine ⟨hgood.noError, hgood.sorted, hnodup, fun hne hover id hserved => ?_, ?_⟩
  · obtain ⟨first, hfirst⟩ := List.exists_mem_of_ne_nil _ hne
    have hissued : ∀ page ∈ walk.pages, ∀ row ∈ page.1.rows,
        (row.id, row.createdAt) ∈ walk.store.issued := by
      intro page hpage row hrow
      obtain ⟨hok, hsub⟩ := hgood.before page hpage
      exact hsub (hok.issued row hrow)
    obtain ⟨row, hrow, hid, -⟩ := hserved first hfirst
    have hplace : ∀ page ∈ walk.pages, ServedAt listing row.place page.1 := by
      intro page hpage
      obtain ⟨row', hrow', hid', hserved', hmatches'⟩ := hserved page hpage
      have hsame : row'.id = row.id := hid'.trans hid.symm
      have hcreated : row'.createdAt = row.createdAt :=
        createdAt_unique hgood.ok (hsame ▸ hissued page hpage row' hrow')
          (hissued first hfirst row hrow)
      exact ⟨row', hrow', Prod.ext hcreated hsame, hserved', hmatches'⟩
    rcases hgood.complete row.place hplace with hnil | ⟨file, hfile, hfileplace⟩ | ⟨file, hfile, -⟩
    · exact (hne hnil).elim
    · exact ⟨file, hfile, (congrArg Prod.snd hfileplace).trans hid⟩
    · have hnext := hfile.1
      rw [hover] at hnext
      cases hnext
  · have hsub : (returned walk).map (·.id) ⊆ walk.store.issued.map Prod.fst := by
      intro id hid
      obtain ⟨file, hfile, rfl⟩ := List.mem_map.mp hid
      exact List.mem_map.mpr ⟨_, hgood.issued file hfile, rfl⟩
    have hlength := (hnodup.subperm hsub).length_le
    rw [List.length_map, List.length_map] at hlength
    have hcount := hgood.count
    split at hcount <;> omega

end Otari.Files

namespace Otari.Files

def oneFile (id : String) (createdAt : Instant) : FileObject where
  id := id.toList
  userId := "alice".toList
  workspaceId := 1
  purpose := "assistants".toList
  createdAt
  expiresAt := none
  deletedAt := none
  pendingSince := none

/-- A walk of that user's files, one a page, the newest first. -/
def onePerPage : FileListing where
  scope := ⟨"alice".toList, some 1⟩
  dialect := .openai
  limit := 1
  ascending := false
  purpose := none
  fileIds := none

def twoFiles : Walk where
  store := {
    rows := [oneFile "file-a" 1, oneFile "file-b" 2]
    now := 3
    issued := [("file-a".toList, 1), ("file-b".toList, 2)] }

def threeFiles : Walk where
  store := {
    rows := [oneFile "file-a" 1, oneFile "file-b" 2, oneFile "file-c" 3]
    now := 4
    issued := [("file-a".toList, 1), ("file-b".toList, 2), ("file-c".toList, 3)] }

theorem twoFiles_start : twoFiles.Start :=
  ⟨rfl, by decide +kernel, by decide +kernel, by decide +kernel, by decide +kernel⟩

theorem threeFiles_start : threeFiles.Start :=
  ⟨rfl, by decide +kernel, by decide +kernel, by decide +kernel, by decide +kernel⟩

instance decidableCursorKept (walk : Walk) :
    (action : Option Action) → Decidable (CursorKept onePerPage walk action)
  | some (.removeAll ids) =>
    decidable_of_iff (∀ cursor ∈ walk.next.join, ∀ id ∈ (cursorId onePerPage cursor).toOption, id ∉ ids)
      ⟨fun h _ hids cursor id hnext hid => by
          cases hids
          exact h cursor (by simp [hnext]) id (by rw [hid]; rfl),
        fun h cursor hnext id hid => h ids rfl cursor id (Option.join_eq_some_iff.mp hnext)
          (by
            cases hcursor : cursorId onePerPage cursor with
            | error e => rw [hcursor] at hid; cases hid
            | ok found =>
              rw [hcursor] at hid
              cases hid
              rfl)⟩
  | none => isTrue fun _ hids => by cases hids
  | some (.reserve _) => isTrue fun _ hids => by cases hids
  | some (.markStored _) => isTrue fun _ hids => by cases hids
  | some (.discard _ _) => isTrue fun _ hids => by cases hids
  | some (.tick _) => isTrue fun _ hids => by cases hids
  | some (.claim _) => isTrue fun _ hids => by cases hids

/-- Between the two pages of a walk the file the cursor names is discarded, and the next one swept. -/
theorem walk_complete_three : ∃ walk,
    Runs.Reached Walk.Start (Walk.step id onePerPage) (CursorKept onePerPage) walk ∧
      (returned walk).map (·.id) = ["file-c".toList, "file-a".toList] ∧
      walk.pages.length ≤ walk.store.issued.length + 1 := by
  have hrun : (Runs.run (Walk.step id onePerPage) (CursorKept onePerPage) threeFiles
      [none, some (.discard "file-c".toList onePerPage.scope),
        some (.discard "file-b".toList onePerPage.scope), some (.claim ["file-b".toList]),
        some (.removeAll ["file-b".toList]), none]).any
        (fun walk => (returned walk).map (·.id) = ["file-c".toList, "file-a".toList]) = true := by
    decide +kernel
  obtain ⟨walk, hwalk, hreturned⟩ := (Option.any_eq_true _ _).mp hrun
  have hreached := Runs.reached_run (.start threeFiles_start) hwalk
  exact ⟨walk, hreached, of_decide_eq_true hreturned,
    (walk_complete Function.injective_id (by decide) hreached).2.2.2.2⟩

/-- The row a walk's cursor names is discarded and swept before the next request, which fails. -/
theorem swept_walk_fails : ∃ walk,
    Runs.Reached Walk.Start (Walk.step id onePerPage) (fun _ _ => True) walk ∧
      ∃ page ∈ walk.pages, page.2 = .error .fileNotServed := by
  have hrun : (Runs.run (Walk.step id onePerPage) (fun _ _ => True) twoFiles
      [none, some (.discard "file-b".toList onePerPage.scope), some (.claim ["file-b".toList]),
        some (.removeAll ["file-b".toList]), none]).any
        (fun walk => walk.pages.any fun page => decide (page.2 = .error .fileNotServed)) = true := by
    decide +kernel
  obtain ⟨walk, hwalk, hany⟩ := (Option.any_eq_true _ _).mp hrun
  obtain ⟨page, hpage, herror⟩ := List.any_eq_true.mp hany
  exact ⟨walk, Runs.reached_run (.start twoFiles_start) hwalk, page, hpage,
    of_decide_eq_true herror⟩

end Otari.Files
