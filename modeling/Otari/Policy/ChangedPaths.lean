import Otari.Access.AllowLists
import Otari.Policy.Gates
import Otari.Support.Distinct
import Otari.Support.Utf8

/-!
# Policy — ChangedPaths — the paths changed at a turn's end

`hook.py` reads them off `git status --porcelain=v1 -z` (`hookCollectChangedPaths`), an entry a
token, with a second one after a rename or a copy.  Before the fact they are read off a patch's
headers (`hookExtractPatchPaths`), both of a rename's.

The loop steps over the second token: **a rename counts as its destination**, and every other entry
as its path (`collects_destinations`), where no path holds a carriage return, which the reading of
what is printed as text would translate.  `Complete` also asks for the path a rename vacated.
-/

namespace Otari.Policy
open List hiding isEmpty_iff
open Utf8 (decode translateNewlines)
open Access (strip)

/-! ### What Git reports -/

/-- A letter of a status pair. -/
inductive StatusCode where
  | unmodified
  | modified
  | typeChanged
  | added
  | deleted
  | renamed
  | copied
  | unmerged
  | untracked
  | ignored
deriving DecidableEq

def StatusCode.byte : StatusCode → UInt8
  | .unmodified => 0x20
  | .modified => 0x4D
  | .typeChanged => 0x54
  | .added => 0x41
  | .deleted => 0x44
  | .renamed => 0x52
  | .copied => 0x43
  | .unmerged => 0x55
  | .untracked => 0x3F
  | .ignored => 0x21

abbrev PathBytes := { bytes : List UInt8 // 0 ∉ bytes }

def PathBytes.text (path : PathBytes) : Text := decode path.1

/-- An entry of the report: a rename and a copy have a second path, the one they came from. -/
structure Entry where
  index : StatusCode
  worktree : StatusCode
  path : PathBytes
  origin : Option PathBytes
  origin_iff : origin.isSome = true ↔
    .renamed ∈ [index, worktree] ∨ .copied ∈ [index, worktree]

namespace Entry

def vacated (entry : Entry) : Option PathBytes :=
  if .renamed ∈ [entry.index, entry.worktree] then entry.origin else none

/-- The bytes of an entry, each path ended by a NUL. -/
def bytes (entry : Entry) : List UInt8 :=
  [entry.index.byte, entry.worktree.byte, 0x20] ++ entry.path.1 ++ [0] ++
    entry.origin.elim [] fun origin => origin.1 ++ [0]

end Entry

/-- What `git status --porcelain=v1 -z` prints. -/
def report (entries : List Entry) : List UInt8 := entries.flatMap Entry.bytes

/-! ### The two collectors -/

def collectTokens : List Text → List Text
  | [] => []
  | token :: tokens =>
    if token.isEmpty then collectTokens tokens
    else
      let status := token.take 2
      let path := token.drop 3
      path :: collectTokens (if 'R' ∈ status ∨ 'C' ∈ status then tokens.tail else tokens)
termination_by tokens => tokens.length
decreasing_by
  · simp
  · split <;> simp

/-- `_hook_collect_changed_paths`, of a run's status and what it printed. -/
def hookCollectChangedPaths (run : Option (ℤ × List UInt8)) : Option (List Text) :=
  match run with
  | none => none
  | some (returncode, stdout) =>
    if returncode ≠ 0 then none
    else some (collectTokens ((translateNewlines (decode stdout)).splitOn (Char.ofNat 0)))

/-- The heads of the lines `_PATCH_HEADER_RE` matches. -/
def patchHeaders : List Text :=
  ["*** Add File: ".toList, "*** Update File: ".toList, "*** Delete File: ".toList,
    "*** Move to: ".toList]

/-- The group of `_PATCH_HEADER_RE` on one line. -/
def patchHeader? (line : Text) : Option Text :=
  (patchHeaders.find? (·.isPrefixOf line)).bind fun header =>
    let rest := line.drop header.length
    if rest.isEmpty then none else some rest

/-- `_hook_extract_patch_paths`. -/
def hookExtractPatchPaths (patchText : Text) : List Text :=
  Distinct.firsts id
    ((((patchText.splitOn '\n').filterMap patchHeader?).map strip).filter (!·.isEmpty))

/-- The headers of a patch that renames a file. -/
def renamePatch (old new : Text) : Text :=
  ['\n'].intercalate ["*** Update File: ".toList ++ old, "*** Move to: ".toList ++ new]

/-! ### Complete evidence -/

/-- A path a patch's header can name. -/
structure Nameable (path : Text) : Prop where
  oneLine : '\n' ∉ path
  stripped : strip path = path
  nonempty : path ≠ []

/-- The evidence the paths are submitted as. -/
def workingTree (paths : List Text) : PathEvidence where
  paths := Distinct.firsts id paths
  source := some .stopWorkingTree

/-- What the paths collected are to be of the entries reported. -/
structure Complete (entries : List Entry) (paths : List Text) : Prop where
  listed : ∀ entry ∈ entries, entry.path.text ∈ paths
  vacated : ∀ entry ∈ entries, ∀ old ∈ entry.vacated, old.text ∈ paths
  reported : ∀ path ∈ paths, ∃ entry ∈ entries,
    path = entry.path.text ∨ ∃ origin ∈ entry.origin, path = origin.text
  /-- Deleted or renamed away, a forbidden file fails its gate. -/
  refused : ∀ gate : PathGate, .stopWorkingTree ∈ gate.runs → ∀ entry ∈ entries, ∀ path : PathBytes,
    path = entry.path ∨ path ∈ entry.vacated →
      (matchesAny path.text gate.forbidden).isSome = true →
        (evaluatePath gate (some (workingTree paths))).outcome = .fail
  /-- Before the fact no path of a rename is reported that is not here. -/
  asPatched : ∀ entry ∈ entries, ∀ old ∈ entry.vacated, Nameable old.text →
    Nameable entry.path.text →
      ∀ path ∈ hookExtractPatchPaths (renamePatch old.text entry.path.text), path ∈ paths

/-- What is collected of the entries Git reports is complete. -/
def CollectsAll (entries : List Entry) : Prop :=
  ∃ paths, hookCollectChangedPaths (some (0, report entries)) = some paths ∧ Complete entries paths

/-! ### The tokens -/

def StatusCode.letter (code : StatusCode) : Char := Char.ofNat code.byte.toNat

theorem StatusCode.letter_eq_iff (code : StatusCode) :
    (code.letter = 'R' ↔ code = .renamed) ∧ (code.letter = 'C' ↔ code = .copied) := by
  cases code <;> decide

theorem StatusCode.letter_ne (code : StatusCode) :
    code.byte.toNat < 0x80 ∧ code.letter ≠ '\r' ∧ code.letter ≠ Char.ofNat 0 := by
  cases code <;> decide

theorem PathBytes.nul_not_mem_text (path : PathBytes) : Char.ofNat 0 ∉ path.text := fun h => by
  obtain ⟨b, hb, hnul⟩ := Utf8.byte_of_mem_decode h (by decide)
  have : b = 0 := UInt8.toNat_inj.mp hnul
  exact path.2 (this ▸ hb)

/-- The text a path is read as where line ends are translated. -/
def PathBytes.translated (path : PathBytes) : Text := translateNewlines path.text

theorem PathBytes.nul_not_mem_translated (path : PathBytes) : Char.ofNat 0 ∉ path.translated :=
  fun h => path.nul_not_mem_text (Utf8.mem_of_mem_translateNewlines (by decide) h)

def Entry.token (entry : Entry) : Text :=
  entry.index.letter :: entry.worktree.letter :: ' ' :: entry.path.translated

def Entry.tokens (entry : Entry) : List Text :=
  entry.token :: (entry.origin.map PathBytes.translated).toList

theorem decode_cons_ascii {b : UInt8} (h : b.toNat < 0x80) (rest : List UInt8) :
    decode (b :: rest) = Char.ofNat b.toNat :: decode rest :=
  Utf8.decode_append_ascii [] h rest

theorem splitOn_path (path : PathBytes) (rest : List UInt8) :
    (translateNewlines (decode (path.1 ++ 0 :: rest))).splitOn (Char.ofNat 0) =
      path.translated :: (translateNewlines (decode rest)).splitOn (Char.ofNat 0) := by
  rw [Utf8.decode_append_ascii _ (by decide), Utf8.translateNewlines_append (by decide) (by decide)]
  exact splitOn_append_cons_self_of_not_mem path.nul_not_mem_translated _

theorem splitOn_status {c : Char} (hcr : c ≠ '\r') (hnul : c ≠ Char.ofNat 0) {text token : Text}
    {tokens : List Text} (h : (translateNewlines text).splitOn (Char.ofNat 0) = token :: tokens) :
    (translateNewlines (c :: text)).splitOn (Char.ofNat 0) = (c :: token) :: tokens := by
  rw [Utf8.translateNewlines_cons hcr, splitOn_cons_eq_if_modifyHead, h, if_neg]
  · rfl
  · simpa using hnul

theorem splitOn_entry (entry : Entry) (rest : List UInt8) :
    (translateNewlines (decode (entry.bytes ++ rest))).splitOn (Char.ofNat 0) =
      entry.tokens ++ (translateNewlines (decode rest)).splitOn (Char.ofNat 0) := by
  obtain ⟨hindex, hindexCr, hindexNul⟩ := entry.index.letter_ne
  obtain ⟨hworktree, hworktreeCr, hworktreeNul⟩ := entry.worktree.letter_ne
  have hsecond : (translateNewlines (decode
      ((entry.origin.elim [] fun origin => origin.1 ++ [0]) ++ rest))).splitOn (Char.ofNat 0) =
        (entry.origin.map PathBytes.translated).toList ++
          (translateNewlines (decode rest)).splitOn (Char.ofNat 0) := by
    cases entry.origin with
    | none => rfl
    | some origin =>
      rw [Option.elim_some, append_assoc, singleton_append, splitOn_path]
      rfl
  have hbytes : entry.bytes ++ rest = entry.index.byte :: entry.worktree.byte :: 0x20 ::
      (entry.path.1 ++ 0 :: ((entry.origin.elim [] fun origin => origin.1 ++ [0]) ++ rest)) := by
    simp [Entry.bytes]
  rw [hbytes, decode_cons_ascii hindex, decode_cons_ascii hworktree, decode_cons_ascii (by decide)]
  refine splitOn_status hindexCr hindexNul (splitOn_status hworktreeCr hworktreeNul
    (splitOn_status (by decide) (by decide) ?_))
  rw [splitOn_path, hsecond]
  rfl

theorem splitOn_report (entries : List Entry) :
    (translateNewlines (decode (report entries))).splitOn (Char.ofNat 0) =
      entries.flatMap Entry.tokens ++ [[]] := by
  induction entries with
  | nil => rfl
  | cons entry entries ih =>
    rw [report, flatMap_cons, splitOn_entry, flatMap_cons, append_assoc]
    rw [report] at ih
    rw [ih]

theorem Entry.token_status (entry : Entry) :
    ('R' ∈ entry.token.take 2 ∨ 'C' ∈ entry.token.take 2) ↔ entry.origin.isSome = true := by
  have htake : entry.token.take 2 = [entry.index.letter, entry.worktree.letter] := rfl
  rw [htake, entry.origin_iff]
  simp only [mem_cons, not_mem_nil, or_false, @eq_comm _ 'R', @eq_comm _ 'C',
    StatusCode.letter_eq_iff, @eq_comm _ StatusCode.renamed, @eq_comm _ StatusCode.copied]

theorem collectTokens_entry (entry : Entry) (rest : List Text) :
    collectTokens (entry.tokens ++ rest) = entry.path.translated :: collectTokens rest := by
  have hpath : entry.token.drop 3 = entry.path.translated := rfl
  rw [Entry.tokens, cons_append, collectTokens, if_neg (by simp [Entry.token])]
  simp only [hpath, entry.token_status]
  cases horigin : entry.origin with
  | none => rfl
  | some origin => rfl

/-- **What is collected of a report: each entry's path, as it is read.** -/
theorem collected_report (entries : List Entry) :
    hookCollectChangedPaths (some (0, report entries)) =
      some (entries.map fun entry => entry.path.translated) := by
  have htokens : collectTokens (entries.flatMap Entry.tokens ++ [[]]) =
      entries.map fun entry => entry.path.translated := by
    induction entries with
    | nil => simp [collectTokens]
    | cons entry entries ih =>
      rw [flatMap_cons, append_assoc, collectTokens_entry, ih, map_cons]
  simp only [hookCollectChangedPaths, ne_eq, not_true_eq_false, if_false, splitOn_report, htokens]

/-! ### The headers of a patch -/

theorem patchHeaders_apart : ∀ header ∈ patchHeaders, ∀ other ∈ patchHeaders,
    header.isPrefixOf other = true → header = other := by
  decide

theorem patchHeader?_eq {header path : Text} (hheader : header ∈ patchHeaders) (h : path ≠ []) :
    patchHeader? (header ++ path) = some path := by
  have hfind : patchHeaders.find? (·.isPrefixOf (header ++ path)) = some header := by
    have hsome : (patchHeaders.find? (·.isPrefixOf (header ++ path))).isSome = true :=
      List.find?_isSome.mpr ⟨header, hheader, List.isPrefixOf_iff_prefix.mpr (prefix_append _ _)⟩
    obtain ⟨found, hfound⟩ := Option.isSome_iff_exists.mp hsome
    have hmem := mem_of_find?_eq_some hfound
    have hstands : found <+: header ++ path := by
      have := List.find?_some hfound
      exact List.isPrefixOf_iff_prefix.mp this
    rw [hfound, Option.some.injEq]
    rcases prefix_or_prefix_of_prefix hstands (prefix_append header path) with h | h
    · exact patchHeaders_apart found hmem header hheader (List.isPrefixOf_iff_prefix.mpr h)
    · exact (patchHeaders_apart header hheader found hmem (List.isPrefixOf_iff_prefix.mpr h)).symm
  have hrest : (header ++ path).drop header.length = path := drop_left
  simp only [patchHeader?, hfind, Option.bind_some, hrest, List.isEmpty_iff, h, if_false]

/-- **A rename's patch names the path it vacates and the one it lands on.** -/
theorem hookExtractPatchPaths_rename {old new : Text} (hold : Nameable old) (hnew : Nameable new) :
    hookExtractPatchPaths (renamePatch old new) = Distinct.firsts id [old, new] := by
  have hlines : (renamePatch old new).splitOn '\n' =
      ["*** Update File: ".toList ++ old, "*** Move to: ".toList ++ new] := by
    have hfirst : '\n' ∉ "*** Update File: ".toList ++ old := by
      rw [mem_append, not_or]
      exact ⟨by decide, hold.oneLine⟩
    have hsecond : '\n' ∉ "*** Move to: ".toList ++ new := by
      rw [mem_append, not_or]
      exact ⟨by decide, hnew.oneLine⟩
    refine splitOn_intercalate '\n' (fun line hline => ?_) (cons_ne_nil _ _)
    rcases mem_cons.mp hline with rfl | hline
    · exact hfirst
    · rw [mem_singleton.mp hline]
      exact hsecond
  have holdHeader := patchHeader?_eq (by decide : "*** Update File: ".toList ∈ patchHeaders)
    hold.nonempty
  have hnewHeader := patchHeader?_eq (by decide : "*** Move to: ".toList ∈ patchHeaders)
    hnew.nonempty
  rw [hookExtractPatchPaths, hlines, filterMap_cons_some holdHeader,
    filterMap_cons_some hnewHeader]
  simp [hold.stripped, hnew.stripped, hold.nonempty, hnew.nonempty]

/-! ### The theorem -/

/-- What is collected of the entries: the path each of them counts as. -/
structure Destinations (entries : List Entry) (paths : List Text) : Prop where
  /-- Each entry's own path, of a rename the one it lands on, and no other string. -/
  listed : paths = entries.map fun entry => entry.path.text
  /-- A gate fails exactly when it forbids one of these. -/
  refused : ∀ gate : PathGate, .stopWorkingTree ∈ gate.runs →
    ((evaluatePath gate (some (workingTree paths))).outcome = .fail ↔
      ∃ entry ∈ entries, (matchesAny entry.path.text gate.forbidden).isSome = true)
  /-- Before the fact the path a rename vacates is reported too. -/
  patched : ∀ entry ∈ entries, ∀ old ∈ entry.vacated, Nameable old.text →
    Nameable entry.path.text →
      hookExtractPatchPaths (renamePatch old.text entry.path.text) =
        Distinct.firsts id [old.text, entry.path.text]

/-- **A rename counts as its destination**, and every other entry as its path. -/
theorem collects_destinations (entries : List Entry)
    (hwhole : ∀ entry ∈ entries, '\r' ∉ entry.path.text) :
    ∃ paths, hookCollectChangedPaths (some (0, report entries)) = some paths ∧
      Destinations entries paths := by
  have hpaths : (entries.map fun entry => entry.path.translated) =
      entries.map fun entry => entry.path.text :=
    map_congr_left fun entry hentry => Utf8.translateNewlines_of_not_mem (hwhole entry hentry)
  refine ⟨_, collected_report entries, hpaths, fun gate hruns => ?_, ?_⟩
  · rw [hpaths]
    refine (evaluatePath_fail_iff hruns).trans ⟨?_, ?_⟩
    · rintro ⟨path, hpath, hmatches⟩
      obtain ⟨entry, hentry, rfl⟩ := mem_map.mp (Distinct.mem_firsts_id.mp hpath)
      exact ⟨entry, hentry, hmatches⟩
    · rintro ⟨entry, hentry, hmatches⟩
      exact ⟨_, Distinct.mem_firsts_id.mpr (mem_map_of_mem hentry), hmatches⟩
  · intro entry _ old _ hold hnew
    exact hookExtractPatchPaths_rename hold hnew

/-- `git mv .env a`, staged. -/
def renamedAway : Entry where
  index := .renamed
  worktree := .unmodified
  path := ⟨[0x61], by decide⟩
  origin := some ⟨[0x2E, 0x65, 0x6E, 0x76], by decide⟩
  origin_iff := by decide

/-- A deleted `b`. -/
def deletedFile : Entry where
  index := .unmodified
  worktree := .deleted
  path := ⟨[0x62], by decide⟩
  origin := none
  origin_iff := by decide

theorem collects_destinations_renamed :
    ∃ paths, hookCollectChangedPaths (some (0, report [renamedAway, deletedFile])) = some paths ∧
      Destinations [renamedAway, deletedFile] paths :=
  collects_destinations [renamedAway, deletedFile] (by decide)

theorem renamedAway_not_complete : ¬ CollectsAll [renamedAway] := by
  rintro ⟨paths, hpaths, h⟩
  rw [collected_report, Option.some.injEq] at hpaths
  subst hpaths
  have := h.vacated renamedAway List.mem_cons_self ⟨[0x2E, 0x65, 0x6E, 0x76], by decide⟩ rfl
  revert this
  decide

end Otari.Policy
