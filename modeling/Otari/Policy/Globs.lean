import Otari.Pricing.Rows
import Otari.Support.Wildcards

/-!
# Policy — Globs — the path glob matcher

`domain/evaluators.py` matches a repo-relative path against a policy's globs one segment at a time
(`segmentMatches`), with at most one `**` among the segments (`segmentsMatch`), which
`domain/policy.py` sees to (`parseGlobList`).

What a glob means is `Obtains`: its segments, `**` replaced by one or more segments and each `*` by
any string without `/`.  **The matcher answers true exactly there** (`glob_matcher_exact`).
The first and the last literal of a segment are reserved, and between them the leftmost places lose
no match (`Wildcards.scattered_of_find`).
-/

namespace Otari.Policy
open List
open Wildcards (Expands Scattered Filled find window)

abbrev Text := List Char

/-! ### The matcher -/

/-- The loop of `_segment_matches` over its middle chunks. -/
def placeMiddle (text : Text) (stop : ℕ) : List Text → ℕ → Bool
  | [], _ => true
  | chunk :: middle, position =>
    if chunk.isEmpty then placeMiddle text stop middle position
    else
      match find chunk text position stop with
      | none => false
      | some found => placeMiddle text stop middle (found + chunk.length)

/-- `_segment_matches` where the pattern has a `*`: `first, *middle, last = chunks`. -/
def chunksMatch (first : Text) (middle : List Text) (last text : Text) : Bool :=
  if !first.isPrefixOf text then false
  else if !last.isSuffixOf text then false
  else
    let stop := text.length - last.length
    -- no room once the first and the last chunk are reserved
    if stop < first.length then false else placeMiddle text stop middle first.length

/-- `_segment_matches`: `*` is any number of characters within one path segment. -/
def segmentMatches (pattern text : Text) : Bool :=
  match pattern.splitOn '*' with
  | first :: second :: rest =>
    chunksMatch first (second :: rest).dropLast ((second :: rest).getLast (List.cons_ne_nil _ _)) text
  | _ => pattern = text

/-- `"**"`. -/
def doubleStar : Text := ['*', '*']

/-- `all(_segment_matches(p, s) for p, s in zip(…))`. -/
def allSegmentsMatch (patterns segments : List Text) : Bool :=
  (patterns.zip segments).all fun pair => segmentMatches pair.1 pair.2

/-- `_segments_match`: `**` crosses directories, and consumes at least one segment. -/
def segmentsMatch (patternSegments pathSegments : List Text) : Bool :=
  if doubleStar ∉ patternSegments then
    patternSegments.length = pathSegments.length && allSegmentsMatch patternSegments pathSegments
  else
    let starIndex := patternSegments.idxOf doubleStar
    let before := patternSegments.take starIndex
    let after := patternSegments.drop (starIndex + 1)
    if pathSegments.length < before.length + after.length + 1 then false
    else
      let head := pathSegments.take before.length
      let tail := if after.isEmpty then [] else pathSegments.drop (pathSegments.length - after.length)
      allSegmentsMatch before head && allSegmentsMatch after tail

def segmentsOf (path : Text) : List Text := path.splitOn '/'

/-- `_matches_any`: the first pattern that matches the path. -/
def matchesAny (path : Text) (patterns : List Text) : Option Text :=
  patterns.find? fun pattern => segmentsMatch (segmentsOf pattern) (segmentsOf path)

/-- `any_path_matches`. -/
def anyPathMatches (patterns paths : List Text) : Bool :=
  paths.any fun path => (matchesAny path patterns).isSome

/-- `str.__le__`: code point by code point. -/
def textLe (a b : Text) : Bool := decide (a ≤ b)

/-- `sorted`, of strings. -/
def sortedTexts (texts : List Text) : List Text := texts.mergeSort textLe

/-- `matched_changed_paths`. -/
def matchedChangedPaths (patterns changedPaths : List Text) : List Text :=
  sortedTexts (changedPaths.filter fun path => (matchesAny path patterns).isSome)

/-! ### What a policy file may hold -/

/-- `_MAX_DOUBLE_STAR_PER_GLOB`. -/
def maxDoubleStarPerGlob : ℕ := 1

/-- A `PolicyError` of `_parse_glob_list`. -/
structure GlobError where
  gateId : Text
  field : Text
  glob : Text
deriving DecidableEq

/-- The error's text, over Python's `repr` of a string. -/
def GlobError.message (repr : Text → Text) (e : GlobError) : Text :=
  "Gate ".toList ++ repr e.gateId ++ ": ".toList ++ e.field ++ " glob ".toList ++ repr e.glob ++
    " uses '**' as its own path segment more than 1 time(s).".toList

/-- `_parse_glob_list`. -/
def parseGlobList (gateId field : Text) (globs : List Text) : Except GlobError (List Text) :=
  match globs.find? fun glob => maxDoubleStarPerGlob < (segmentsOf glob).count doubleStar with
  | some glob => .error ⟨gateId, field, glob⟩
  | none => .ok globs

/-! ### What a glob means -/

/-- A segment obtained from a pattern's, each `*` any string without `/`. -/
def SegmentObtains (pattern segment : Text) : Prop := Expands '*' (· ≠ '/') pattern segment

/-- Segments obtained from a glob's, `**` one or more of them. -/
inductive SegmentsObtain : List Text → List Text → Prop where
  | nil : SegmentsObtain [] []
  | segment {pattern segment : Text} {patterns segments : List Text} (h : pattern ≠ doubleStar)
      (first : SegmentObtains pattern segment) (rest : SegmentsObtain patterns segments) :
      SegmentsObtain (pattern :: patterns) (segment :: segments)
  | cross {patterns segments : List Text} (crossed : List Text) (h : crossed ≠ [])
      (rest : SegmentsObtain patterns segments) :
      SegmentsObtain (doubleStar :: patterns) (crossed ++ segments)

def Obtains (glob path : Text) : Prop := SegmentsObtain (segmentsOf glob) (segmentsOf path)

/-! ### One segment -/

theorem placeMiddle_iff {text : Text} {stop : ℕ} (hstop : stop ≤ text.length)
    (middle : List Text) {position : ℕ} (hposition : position ≤ stop) :
    placeMiddle text stop middle position = true ↔ Scattered middle (window text position stop) := by
  induction middle generalizing position with
  | nil => simp [placeMiddle, Scattered]
  | cons chunk middle ih =>
    rw [placeMiddle]
    split
    · rename_i hempty
      obtain rfl := isEmpty_iff.mp hempty
      rw [ih hposition, Wildcards.scattered_nil_cons]
    · split
      · rename_i hnone
        simpa using Wildcards.not_scattered_of_find hstop hposition hnone
      · rename_i found hfound
        obtain ⟨-, hend, -⟩ := Wildcards.find_eq_some hfound
        rw [ih hend, Wildcards.scattered_of_find hstop hposition hfound]

theorem eq_append_between_iff {first last text : Text} {Q : Text → Prop} :
    (∃ between, text = first ++ between ++ last ∧ Q between) ↔
      first <+: text ∧ last <:+ text ∧ first.length ≤ text.length - last.length ∧
        Q (window text first.length (text.length - last.length)) := by
  constructor
  · rintro ⟨between, rfl, hQ⟩
    refine ⟨⟨between ++ last, by simp⟩, ⟨first ++ between, rfl⟩, ?_, ?_⟩
    · simp only [length_append]
      omega
    have hwindow : window (first ++ between ++ last) first.length
        ((first ++ between ++ last).length - last.length) = between := by
      rw [window, @length_append _ _ last, Nat.add_sub_cancel, take_left,
        drop_left]
    rwa [hwindow]
  · rintro ⟨⟨rest, rfl⟩, ⟨front, hfront⟩, hroom, hQ⟩
    refine ⟨_, ?_, hQ⟩
    have hstop : (first ++ rest).length - last.length = front.length := by
      rw [← hfront, length_append, Nat.add_sub_cancel]
    rw [hstop] at hroom ⊢
    have htake : (first ++ rest).take front.length = front := by rw [← hfront, take_left]
    have hfront' : first = front.take first.length := by
      rw [← htake, take_take, min_eq_left hroom, take_left]
    rw [window, htake]
    nth_rewrite 2 [hfront']
    rw [take_append_drop, hfront]

theorem chunksMatch_iff (first : Text) (middle : List Text) (last text : Text) :
    chunksMatch first middle last text = true ↔ Filled (first :: (middle ++ [last])) text := by
  rw [Wildcards.filled_iff_scattered, eq_append_between_iff, chunksMatch]
  simp only [Bool.not_eq_true', ← Bool.not_eq_true, List.isPrefixOf_iff_prefix,
    isSuffixOf_iff_suffix]
  split_ifs with h₁ h₂ h₃
  · exact iff_of_false not_false fun h => absurd h.2.2.1 (not_le.mpr h₃)
  · rw [placeMiddle_iff (Nat.sub_le _ _) middle (not_lt.mp h₃)]
    exact ⟨fun h => ⟨h₁, h₂, not_lt.mp h₃, h⟩, fun h => h.2.2.2⟩
  · exact iff_of_false not_false fun h => h₂ h.2.1
  · exact iff_of_false not_false fun h => h₁ h.1

/-- **A segment is matched where its chunks fill it.** -/
theorem segmentMatches_iff_filled (pattern text : Text) :
    segmentMatches pattern text = true ↔ Filled (pattern.splitOn '*') text := by
  rw [segmentMatches]
  split
  · rename_i first second rest hsplit
    rw [hsplit, chunksMatch_iff, dropLast_append_getLast]
  · rename_i hshort
    have hjoin : ['*'].intercalate (pattern.splitOn '*') = pattern := intercalate_splitOn '*'
    cases hsplit : pattern.splitOn '*' with
    | nil => exact absurd hsplit (splitOn_ne_nil _ _)
    | cons first rest =>
      cases rest with
      | nil =>
        rw [hsplit, intercalate_singleton] at hjoin
        rw [hjoin, decide_eq_true_eq]
        exact eq_comm
      | cons second rest => exact absurd hsplit (hshort _ _ _)

theorem segmentMatches_iff (pattern : Text) {segment : Text} (h : '/' ∉ segment) :
    segmentMatches pattern segment = true ↔ SegmentObtains pattern segment := by
  rw [segmentMatches_iff_filled, SegmentObtains, Wildcards.expands_iff_filled]
  exact fun a ha e => h (e ▸ ha)

/-! ### All segments -/

theorem slash_not_mem_segments {path segment : Text} (h : segment ∈ segmentsOf path) :
    '/' ∉ segment :=
  Wildcards.not_mem_of_mem_splitOn h

variable {patterns segments : List Text}

theorem allSegmentsMatch_iff
    (hlength : patterns.length = segments.length) (h : ∀ s ∈ segments, '/' ∉ s) :
    allSegmentsMatch patterns segments = true ↔ List.Forall₂ SegmentObtains patterns segments := by
  rw [allSegmentsMatch, all_eq_true, forall₂_iff_zip]
  constructor
  · intro hall
    refine ⟨hlength, fun {pattern segment} hmem => ?_⟩
    exact (segmentMatches_iff pattern (h segment (of_mem_zip hmem).2)).mp (hall _ hmem)
  · rintro ⟨-, hall⟩ ⟨pattern, segment⟩ hmem
    exact (segmentMatches_iff pattern (h segment (of_mem_zip hmem).2)).mpr (hall hmem)

theorem segmentsObtain_iff_forall₂ (h : doubleStar ∉ patterns) :
    SegmentsObtain patterns segments ↔ List.Forall₂ SegmentObtains patterns segments := by
  constructor
  · intro hobtain
    induction hobtain with
    | nil => exact .nil
    | segment _ first _ ih => exact .cons first (ih fun hm => h (mem_cons_of_mem _ hm))
    | cross _ _ _ _ => exact absurd mem_cons_self h
  · intro hall
    induction hall with
    | nil => exact .nil
    | cons first _ ih =>
      rw [mem_cons, not_or] at h
      exact .segment (fun e => h.1 e.symm) first (ih h.2)

/-- A `**` between segments: what is obtained before it, what it crosses, what is obtained after. -/
theorem segmentsObtain_cross {before after : List Text} (hbefore : doubleStar ∉ before) :
    SegmentsObtain (before ++ doubleStar :: after) segments ↔
      ∃ head crossed tail, segments = head ++ crossed ++ tail ∧ crossed ≠ [] ∧
        List.Forall₂ SegmentObtains before head ∧ SegmentsObtain after tail := by
  induction before generalizing segments with
  | nil =>
    constructor
    · intro h
      cases h with
      | segment hne _ _ => exact absurd rfl hne
      | @cross _ tail crossed hcrossed rest =>
        exact ⟨[], crossed, tail, rfl, hcrossed, .nil, rest⟩
    · rintro ⟨head, crossed, tail, rfl, hcrossed, hhead, htail⟩
      cases hhead
      exact .cross crossed hcrossed htail
  | cons pattern before ih =>
    rw [mem_cons, not_or] at hbefore
    constructor
    · intro h
      cases h with
      | segment _ first rest =>
        obtain ⟨head, crossed, tail, rfl, hcrossed, hhead, htail⟩ := (ih hbefore.2).mp rest
        exact ⟨_ :: head, crossed, tail, rfl, hcrossed, .cons first hhead, htail⟩
      | cross _ _ _ => exact absurd rfl hbefore.1
    · rintro ⟨head, crossed, tail, rfl, hcrossed, hhead, htail⟩
      cases hhead with
      | cons first hhead =>
        exact .segment (fun e => hbefore.1 e.symm) first
          ((ih hbefore.2).mpr ⟨_, crossed, tail, rfl, hcrossed, hhead, htail⟩)

theorem exists_cut (h : patterns.count doubleStar ≤ maxDoubleStarPerGlob)
    (hmem : doubleStar ∈ patterns) :
    ∃ before after, patterns = before ++ doubleStar :: after ∧ doubleStar ∉ before ∧
      doubleStar ∉ after ∧ patterns.idxOf doubleStar = before.length := by
  obtain ⟨before, after, rfl, hbefore⟩ := eq_append_cons_of_mem hmem
  refine ⟨before, after, rfl, hbefore, fun hafter => ?_, ?_⟩
  · have hpos := count_pos_iff.mpr hafter
    rw [count_append, count_cons_self, maxDoubleStarPerGlob] at h
    omega
  · rw [idxOf_append_of_notMem hbefore, idxOf_cons_self, Nat.add_zero]

theorem crossed_iff {before after : List Text} (hslash : ∀ s ∈ segments, '/' ∉ s) :
    (before.length + after.length + 1 ≤ segments.length ∧
      allSegmentsMatch before (segments.take before.length) = true ∧
      allSegmentsMatch after (segments.drop (segments.length - after.length)) = true) ↔
    ∃ head crossed tail, segments = head ++ crossed ++ tail ∧ crossed ≠ [] ∧
      List.Forall₂ SegmentObtains before head ∧ List.Forall₂ SegmentObtains after tail := by
  have hhead : before.length ≤ segments.length →
      (allSegmentsMatch before (segments.take before.length) = true ↔
        List.Forall₂ SegmentObtains before (segments.take before.length)) := fun hle =>
    allSegmentsMatch_iff (by simp [hle]) fun s hs => hslash s (mem_of_mem_take hs)
  have htail : after.length ≤ segments.length →
      (allSegmentsMatch after (segments.drop (segments.length - after.length)) = true ↔
        List.Forall₂ SegmentObtains after (segments.drop (segments.length - after.length))) :=
    fun hle => allSegmentsMatch_iff (by simp; omega) fun s hs => hslash s (mem_of_mem_drop hs)
  constructor
  · rintro ⟨hroom, hb, ha⟩
    have hcut : segments.drop (segments.length - after.length) =
        (segments.drop before.length).drop (segments.length - after.length - before.length) := by
      rw [drop_drop, Nat.add_sub_cancel' (by omega)]
    refine ⟨_, (segments.drop before.length).take (segments.length - after.length - before.length),
      _, ?_, fun hnil => ?_, (hhead (by omega)).mp hb, (htail (by omega)).mp ha⟩
    · rw [hcut, append_assoc, take_append_drop, take_append_drop]
    · have hlength := congrArg List.length hnil
      rw [length_take, length_drop, length_nil] at hlength
      omega
  · rintro ⟨head, crossed, tail, rfl, hcrossed, hb, ha⟩
    have hpos := length_pos_iff.mpr hcrossed
    have htake : (head ++ crossed ++ tail).take before.length = head := by
      rw [hb.length_eq, append_assoc, take_left]
    have hdrop : (head ++ crossed ++ tail).drop ((head ++ crossed ++ tail).length - after.length) =
        tail := by
      rw [ha.length_eq, length_append , Nat.add_sub_cancel, drop_left]
    have hlength : before.length + after.length + 1 ≤ (head ++ crossed ++ tail).length := by
      rw [hb.length_eq, ha.length_eq]
      simp only [length_append]
      omega
    refine ⟨hlength, (hhead (by omega)).mpr ?_, (htail (by omega)).mpr ?_⟩
    · rwa [htake]
    · rwa [hdrop]

/-- **The matcher answers true exactly where the path is obtained from the glob.** -/
theorem segmentsMatch_iff
    (h : patterns.count doubleStar ≤ maxDoubleStarPerGlob) (hslash : ∀ s ∈ segments, '/' ∉ s) :
    segmentsMatch patterns segments = true ↔ SegmentsObtain patterns segments := by
  rw [segmentsMatch]
  split
  · rename_i hnone
    rw [segmentsObtain_iff_forall₂ hnone, Bool.and_eq_true, decide_eq_true_eq]
    constructor
    · rintro ⟨hlength, hall⟩
      exact (allSegmentsMatch_iff hlength hslash).mp hall
    · intro hall
      exact ⟨hall.length_eq, (allSegmentsMatch_iff hall.length_eq hslash).mpr hall⟩
  · rename_i hsome
    obtain ⟨before, after, rfl, hbefore, hafter, hindex⟩ := exists_cut h (not_not.mp hsome)
    have hdrop : (before ++ doubleStar :: after).drop (before.length + 1) = after := by
      rw [← drop_drop, drop_left, drop_one, tail_cons]
    -- a tail of no patterns is no segments
    have htail : (if after.isEmpty then [] else segments.drop (segments.length - after.length)) =
        segments.drop (segments.length - after.length) := by
      cases after with
      | nil => simp
      | cons _ _ => rfl
    simp only [hindex, take_left, hdrop, htail]
    rw [segmentsObtain_cross hbefore]
    simp only [segmentsObtain_iff_forall₂ hafter]
    rw [← crossed_iff hslash]
    split
    · rename_i hshort
      exact iff_of_false Bool.false_ne_true fun h => absurd h.1 (by omega)
    · rename_i hroom
      rw [Bool.and_eq_true]
      exact ⟨fun h => ⟨by omega, h⟩, fun h => h.2⟩

/-! ### Whole globs -/

theorem matchesAny_isSome {path : Text} : (matchesAny path patterns).isSome = true ↔
      ∃ pattern ∈ patterns, segmentsMatch (segmentsOf pattern) (segmentsOf path) = true := by
  rw [matchesAny, List.find?_isSome]

theorem mem_sortedTexts {text : Text} {texts : List Text} : text ∈ sortedTexts texts ↔ text ∈ texts :=
  mem_mergeSort

theorem mem_matchedChangedPaths {path : Text} {changedPaths : List Text} :
    path ∈ matchedChangedPaths patterns changedPaths ↔
      path ∈ changedPaths ∧ (matchesAny path patterns).isSome = true := by
  rw [matchedChangedPaths, mem_sortedTexts, mem_filter]

theorem parseGlobList_ok {gateId field : Text} {globs accepted : List Text}
    (h : parseGlobList gateId field globs = .ok accepted) : accepted = globs ∧
      ∀ glob ∈ globs, (segmentsOf glob).count doubleStar ≤ maxDoubleStarPerGlob := by
  rw [parseGlobList] at h
  split at h
  · cases h
  · rename_i hnone
    obtain rfl := Except.ok.inj h
    refine ⟨rfl, fun glob hglob => ?_⟩
    have := List.find?_eq_none.mp hnone glob hglob
    rwa [decide_eq_true_eq, not_lt] at this

theorem matches_iff_obtains {glob : Text}
    (h : (segmentsOf glob).count doubleStar ≤ maxDoubleStarPerGlob) (path : Text) :
    segmentsMatch (segmentsOf glob) (segmentsOf path) = true ↔ Obtains glob path :=
  segmentsMatch_iff h fun _ hs => slash_not_mem_segments hs

/-- **The path glob matcher implements its grammar.**  Of the globs a policy file may hold, each
matches the paths obtained from it and no other, and of the paths changed those are reported that
are obtained from some glob. -/
theorem glob_matcher_exact {gateId field : Text} {globs accepted : List Text}
    (h : parseGlobList gateId field globs = .ok accepted) :
    (∀ glob ∈ accepted, ∀ path, (matchesAny path [glob]).isSome = true ↔ Obtains glob path) ∧
      ∀ changedPaths path, path ∈ matchedChangedPaths accepted changedPaths ↔
        path ∈ changedPaths ∧ ∃ glob ∈ accepted, Obtains glob path := by
  obtain ⟨rfl, hcount⟩ := parseGlobList_ok h
  constructor
  · intro glob hglob path
    rw [matchesAny_isSome, ← matches_iff_obtains (hcount glob hglob)]
    simp
  · intro changedPaths path
    rw [mem_matchedChangedPaths, matchesAny_isSome]
    refine and_congr_right fun _ => exists_congr fun glob => and_congr_right fun hglob => ?_
    exact matches_iff_obtains (hcount glob hglob) path

theorem glob_matcher_exact_source :
    (matchesAny "src/a/b/x_test_aa.py".toList ["src/**/*_*aa.py".toList]).isSome = true ↔
      Obtains "src/**/*_*aa.py".toList "src/a/b/x_test_aa.py".toList := by
  have h : parseGlobList "g".toList "forbidden".toList ["src/**/*_*aa.py".toList] =
      .ok ["src/**/*_*aa.py".toList] := by decide
  exact (glob_matcher_exact h).1 _ List.mem_cons_self _

-- literals that overlap in the text, and a middle one placed first
example : segmentMatches "*ab*ba".toList "abba".toList = true := by decide
example : segmentMatches "*abab*ba*".toList "ababa".toList = false := by decide

end Otari.Policy
