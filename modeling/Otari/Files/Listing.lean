import Otari.Pricing.Rows
import Otari.Support.Base64
import Otari.Support.Keyset
import Otari.Support.Runs

/-!
# Files — Listing — a caller's files, and the pages they are listed in

`repositories/files/file_repository.py` and `services/files/_service.py`: the rows of the files, what
uploads, discards and the sweep do to them (`Store.act`), and a page of a caller's files with the
cursor that resumes after it (`filesPage`); and a walk that follows the cursors while the files change
(`Walk.step`).  Of a row there is what a listing reads.

The database orders ids by a collation, which tells different ids apart.
-/

namespace Otari.Files

abbrev Text := List Char
abbrev Instant := ℤ

/-! ### Ids and page tokens -/

/-- `could_name_a_file`: printable ASCII. -/
def couldNameAFile (value : Text) : Bool := value.all fun c => 0x20 ≤ c.toNat && c.toNat ≤ 0x7e

/-- `page_token`, of a printable id, whose bytes are its characters. -/
def pageToken (fileId : Text) : Text :=
  "page_".toList ++ (Base64.encode (fileId.map Char.toNat)).rdropWhile (· = '=')

/-- `file_id_in`: bytes that are not all printable ASCII are no text, or one that names no file. -/
def fileIdIn (token : Text) : Option Text :=
  if "page_".toList.isPrefixOf token then
    (Base64.decode (Base64.repad (token.drop 5))).bind fun bytes =>
      if bytes.all fun b => 0x20 ≤ b && b ≤ 0x7e then some (bytes.map Char.ofNat) else none
  else none

/-! ### Rows -/

structure FileObject where
  id : Text
  userId : Text
  workspaceId : ℕ
  purpose : Text
  createdAt : Instant
  expiresAt : Option Instant
  deletedAt : Option Instant
  pendingSince : Option Instant
deriving DecidableEq

/-- The files' rows, the time, and the ids ever given out, each with its row's creation time. -/
structure Store where
  rows : List FileObject
  now : Instant
  issued : List (Text × Instant)

structure FileScope where
  userId : Text
  workspaceId : Option ℕ
deriving DecidableEq

inductive FileDialect where
  | openai | anthropic
deriving DecidableEq

structure FileListing where
  scope : FileScope
  dialect : FileDialect
  limit : ℕ
  ascending : Bool
  purpose : Option Text
  fileIds : Option (List Text)

structure FilePage where
  files : List FileObject
  nextCursor : Option Text
deriving DecidableEq

inductive FilesError where
  | unknownPageCursor
  | fileNotServed
deriving DecidableEq

/-- `MAX_LIST_LIMIT`. -/
def maxListLimit : ℕ := 1000

/-- `_PENDING_GRACE`, in microseconds. -/
def pendingGrace : Instant := 3600000000

def FileObject.inScope (row : FileObject) (scope : FileScope) : Bool :=
  row.userId = scope.userId && scope.workspaceId.all (row.workspaceId = ·)

def FileObject.served (row : FileObject) (now : Instant) : Bool :=
  row.pendingSince.isNone && row.deletedAt.isNone && row.expiresAt.all (now ≤ ·)

def FileObject.reclaimable (row : FileObject) (now : Instant) : Bool :=
  row.deletedAt.isSome || (row.pendingSince.isNone && row.expiresAt.any (· < now)) ||
    row.pendingSince.any (· < now - pendingGrace)

/-! ### What happens to the rows -/

inductive Action where
  /-- `_reserve`: an upload's row, before its bytes. -/
  | reserve (record : FileObject)
  | markStored (id : Text)
  | discard (id : Text) (scope : FileScope)
  | tick (now : Instant)
  /-- The sweep selects rows, and claims them. -/
  | claim (ids : List Text)
  /-- The sweep removes rows it claimed, or an upload the row of the file it gave up. -/
  | removeAll (ids : List Text)

/-- The rows, those of `ids` changed. -/
def Store.change (store : Store) (p : FileObject → Bool) (f : FileObject → FileObject) : Store :=
  { store with rows := store.rows.map fun row => if p row then f row else row }

/-- What an action makes of the files, where it is one that is taken.  An id is issued once; that a copy
may be recorded again under a provider's id, once the first one's row is swept, is left out. -/
def Store.act (store : Store) : Action → Option Store
  | .reserve record =>
    if record.pendingSince.isSome ∧ record.deletedAt = none ∧ couldNameAFile record.id = true ∧
        record.id ∉ store.issued.map Prod.fst then
      some { store with
        rows := store.rows ++ [record]
        issued := store.issued ++ [(record.id, record.createdAt)] }
    else none
  | .markStored id =>
    some (store.change (fun row => row.id = id && row.pendingSince.isSome && row.deletedAt.isNone)
      fun row => { row with pendingSince := none })
  | .discard id scope =>
    some (store.change
      (fun row => row.id = id && row.inScope scope && row.served store.now)
      fun row => { row with deletedAt := some store.now })
  | .tick now => if store.now ≤ now then some { store with now } else none
  | .claim ids =>
    if store.rows.all fun row => row.id ∉ ids || row.reclaimable store.now then
      some (store.change (fun row => row.id ∈ ids && row.deletedAt.isNone)
        fun row => { row with deletedAt := some store.now })
    else none
  | .removeAll ids =>
    if store.rows.all fun row => row.id ∉ ids || row.deletedAt.isSome || row.pendingSince.isSome then
      some { store with rows := store.rows.filter fun row => row.id ∉ ids }
    else none

/-! ### A page -/

section
variable {κ : Type} [LinearOrder κ] (collate : Text → κ)

/-- `(created_at, id)`, as the database compares it. -/
def position (at' : Instant × Text) : ℤ ×ₗ κ := toLex (at'.1, collate at'.2)

def FileObject.place (row : FileObject) : Instant × Text := (row.createdAt, row.id)

/-- `_past`: strictly past a place in the page's order. -/
def past (ascending : Bool) (a b : Instant × Text) : Prop :=
  if ascending then position collate a < position collate b
  else position collate b < position collate a

instance decidablePast (ascending : Bool) : DecidableRel (past collate ascending) := fun a b => by
  unfold past
  infer_instance

variable (listing : FileListing)

def FileListing.matches (row : FileObject) : Bool :=
  row.inScope listing.scope && listing.purpose.all (row.purpose = ·) &&
    listing.fileIds.all (row.id ∈ ·.filter couldNameAFile)

/-- `FileRepository.page`, without the limit. -/
def selected (store : Store) (after : Option (Instant × Text)) : List FileObject :=
  Keyset.sortBy (past collate listing.ascending) FileObject.place
    (store.rows.filter fun row => row.served store.now && listing.matches row &&
      after.all fun place => past collate listing.ascending place row.place)

/-- `any_owned`. -/
def anyOwned (store : Store) (id : Text) : Option FileObject :=
  if couldNameAFile id then
    store.rows.find? fun row => row.id = id && row.pendingSince.isNone && row.inScope listing.scope
  else none

/-- `_position`, of an id. -/
def positionOf (store : Store) (cursorId : Text) : Except FilesError (Instant × Text) :=
  match anyOwned listing store cursorId with
  | some cursor => .ok (cursor.createdAt, cursor.id)
  | none =>
    match listing.dialect with
    | .anthropic => .error .unknownPageCursor
    | .openai => .error .fileNotServed

def cursorId (cursor : Text) : Except FilesError Text :=
  match listing.dialect with
  | .openai => .ok cursor
  | .anthropic =>
    match fileIdIn cursor with
    | some id => .ok id
    | none => .error .unknownPageCursor

def cursorOf (id : Text) : Text :=
  match listing.dialect with
  | .openai => id
  | .anthropic => pageToken id

def pageAfter (store : Store) (after : Option (Instant × Text)) : FilePage :=
  let (files, hasMore) :=
    Keyset.cut (min listing.limit maxListLimit) (selected collate listing store after)
  ⟨files, if hasMore then files.getLast?.map fun file => cursorOf listing file.id else none⟩

/-- `FileService.page`, after the cursor. -/
def filesPage (store : Store) (cursor : Option Text) : Except FilesError FilePage := do
  let after ← match cursor with
    | none => .ok none
    | some cursor => do
      let id ← cursorId listing cursor
      let place ← positionOf listing store id
      .ok (some place)
  .ok (pageAfter collate listing store after)

/-! ### A walk -/

/-- A walk: the files now, and for each page it asked for the files as they were and what it got. -/
structure Walk where
  store : Store
  pages : List (Store × Except FilesError FilePage) := []

/-- What the walk asks for next: nothing, a first page, or the page after a cursor. -/
def Walk.next (walk : Walk) : Option (Option Text) :=
  match walk.pages.getLast? with
  | none => some none
  | some (_, .ok page) => page.nextCursor.map some
  | some (_, .error _) => none

/-- A page is asked for, or something happens to the files. -/
def Walk.step (walk : Walk) : Option Action → Option Walk
  | none =>
    walk.next.map fun cursor =>
      { walk with pages := walk.pages ++ [(walk.store, filesPage collate listing walk.store cursor)] }
  | some action => (walk.store.act action).map fun store => { walk with store }

end
end Otari.Files
