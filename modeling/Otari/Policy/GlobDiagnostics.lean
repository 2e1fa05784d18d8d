import Otari.Policy.Validation

/-!
# Policy — GlobDiagnostics — what is said of a glob is true

* `unreachableGlob_isSome`: a glob is reported that no repo-relative path matches, and no other.
* `twin_covered`: a glob that matches the shallower twin's text, its `*` read as characters, matches
  every path the twin matches.  A `*` of the text falls in one of the glob's own
  (`Wildcards.Expands.trans`).
* `glob_misses_twin`: the glob itself matches none of them, `**` taking one segment at least.

Together they are what `validatePolicy` says of a list of globs (`glob_diagnostics_truthful`).
-/

namespace Otari.Policy
open List hiding isEmpty_iff
open Wildcards (Expands)

/-- No segment of the path is empty, `.` or `..`. -/
def RepoRelative (path : Text) : Prop := ∀ segment ∈ segmentsOf path, segment ∉ unreachableSegments

theorem segmentsOf_joinSegments {segments : List Text} (h : ∀ s ∈ segments, '/' ∉ s)
    (hne : segments ≠ []) : segmentsOf (joinSegments segments) = segments :=
  splitOn_intercalate '/' h hne

variable {glob : Text}

theorem matchesAny_single {path : Text} :
    (matchesAny path [glob]).isSome = true ↔ segmentsMatch (segmentsOf glob) (segmentsOf path) = true := by
  rw [matchesAny_isSome]
  simp

/-! ### Globs that match nothing -/

variable {pattern : Text}

theorem SegmentsObtain.exists_of_mem {patterns segments : List Text}
    (h : SegmentsObtain patterns segments) (hmem : pattern ∈ patterns)
    (hne : pattern ≠ doubleStar) : ∃ segment ∈ segments, SegmentObtains pattern segment := by
  induction h with
  | nil => cases hmem
  | segment _ first _ ih =>
    rcases mem_cons.mp hmem with rfl | hmem
    · exact ⟨_, mem_cons_self, first⟩
    · obtain ⟨segment, hsegment, hobtain⟩ := ih hmem
      exact ⟨segment, mem_cons_of_mem _ hsegment, hobtain⟩
  | cross crossed _ _ ih =>
    obtain ⟨segment, hsegment, hobtain⟩ := ih ((mem_cons.mp hmem).resolve_left hne)
    exact ⟨segment, mem_append_right _ hsegment, hobtain⟩

/-- A segment with each `*` replaced by one character. -/
def fillSegment (pattern : Text) : Text := pattern.map fun c => if c = '*' then 'a' else c

theorem segmentObtains_fill (pattern : Text) (h : '/' ∉ pattern) :
    SegmentObtains pattern (fillSegment pattern) := by
  induction pattern with
  | nil => exact .nil
  | cons c pattern ih =>
    rw [mem_cons, not_or] at h
    by_cases hstar : c = '*'
    · subst hstar
      have hfiller : ∀ a ∈ ['a'], a ≠ '/' := fun a ha => by
        rw [mem_singleton.mp ha]
        decide
      exact @Expands.star _ _ _ _ (fillSegment pattern) ['a'] hfiller (ih h.2)
    · rw [fillSegment, map_cons, if_neg hstar]
      exact .char hstar (ih h.2)

theorem segmentsObtain_fill (patterns : List Text) (h : ∀ s ∈ patterns, '/' ∉ s) :
    SegmentsObtain patterns (patterns.map fillSegment) := by
  induction patterns with
  | nil => exact .nil
  | cons pattern patterns ih =>
    have hrest := ih fun s hs => h s (mem_cons_of_mem _ hs)
    by_cases hcross : pattern = doubleStar
    · subst hcross
      exact .cross [fillSegment doubleStar] (cons_ne_nil _ _) hrest
    · exact .segment hcross (segmentObtains_fill pattern (h pattern mem_cons_self)) hrest

theorem slash_not_mem_fill (h : '/' ∉ pattern) : '/' ∉ fillSegment pattern := by
  intro hmem
  obtain ⟨c, hc, heq⟩ := mem_map.mp hmem
  split at heq
  · cases heq
  · exact h (heq ▸ hc)

theorem unreachable_literal : ∀ segment ∈ unreachableSegments,
    '*' ∉ segment ∧ 'a' ∉ segment ∧ segment ≠ doubleStar := by
  decide

theorem eq_of_fillSegment {text : Text} (h : 'a' ∉ text) (hfill : fillSegment pattern = text) :
    pattern = text := by
  subst hfill
  induction pattern with
  | nil => rfl
  | cons c pattern ih =>
    rw [fillSegment, map_cons, mem_cons, not_or] at h
    have hc : c ≠ '*' := fun e => h.1 (by rw [if_pos e])
    rw [fillSegment, map_cons, if_neg hc]
    exact congrArg (c :: ·) (ih h.2)

variable (repr : Text → Text)

theorem unreachableGlob_isSome_iff (glob : Text) : (unreachableGlob repr glob).isSome = true ↔
      ∃ segment ∈ segmentsOf glob, segment ∈ unreachableSegments := by
  rw [unreachableGlob, Option.isSome_map, unreachableSegment, List.find?_isSome]
  simp only [decide_eq_true_eq]

/-- **A glob is reported unreachable exactly when no repo-relative path matches it.** -/
theorem unreachableGlob_isSome (h : (segmentsOf glob).count doubleStar ≤ maxDoubleStarPerGlob) :
    (unreachableGlob repr glob).isSome = true ↔
      ∀ path, RepoRelative path → matchesAny path [glob] = none := by
  rw [unreachableGlob_isSome_iff]
  constructor
  · rintro ⟨pattern, hpattern, hunreachable⟩ path hpath
    rw [← Option.not_isSome_iff_eq_none, matchesAny_single, matches_iff_obtains h]
    intro hobtain
    obtain ⟨hstar, -, hne⟩ := unreachable_literal pattern hunreachable
    obtain ⟨segment, hsegment, hsame⟩ := hobtain.exists_of_mem hpattern hne
    rw [Expands.eq_of_not_mem hstar hsame] at hsegment
    exact hpath pattern hsegment hunreachable
  · intro hnone
    by_contra hreachable
    have hslash : ∀ s ∈ segmentsOf glob, '/' ∉ s := fun s hs => slash_not_mem_segments hs
    have hpath : segmentsOf (joinSegments ((segmentsOf glob).map fillSegment)) =
        (segmentsOf glob).map fillSegment := by
      refine segmentsOf_joinSegments ?_ ?_
      · intro s hs
        obtain ⟨pattern, hpattern, rfl⟩ := mem_map.mp hs
        exact slash_not_mem_fill (hslash pattern hpattern)
      · rw [ne_eq, map_eq_nil_iff]
        exact splitOn_ne_nil '/' glob
    have hrelative : RepoRelative (joinSegments ((segmentsOf glob).map fillSegment)) := by
      intro segment hsegment hunreachable
      rw [hpath] at hsegment
      obtain ⟨pattern, hpattern, hfill⟩ := mem_map.mp hsegment
      have hplain := (unreachable_literal segment hunreachable).2.1
      exact hreachable ⟨pattern, hpattern, eq_of_fillSegment hplain hfill ▸ hunreachable⟩
    have := hnone _ hrelative
    rw [← Option.not_isSome_iff_eq_none, matchesAny_single, matches_iff_obtains h, Obtains,
      hpath] at this
    exact this (segmentsObtain_fill _ hslash)

/-! ### The shallower twin -/

theorem shallowerTwin_eq_some {twin : Text} (h : shallowerTwin glob = some twin)
    (hcount : (segmentsOf glob).count doubleStar ≤ maxDoubleStarPerGlob) :
    ∃ before after, segmentsOf glob = before ++ doubleStar :: after ∧ doubleStar ∉ before ∧
      doubleStar ∉ after ∧ segmentsOf twin = before ++ after := by
  simp only [shallowerTwin] at h
  split at h
  · cases h
  rename_i hmem
  split at h
  · cases h
  rename_i hlast
  obtain ⟨before, after, hsegments, hbefore, hafter, hindex⟩ := exists_cut hcount (not_not.mp hmem)
  refine ⟨before, after, hsegments, hbefore, hafter, ?_⟩
  obtain rfl := Option.some.inj h
  have hcut : (segmentsOf glob).take before.length ++ (segmentsOf glob).drop (before.length + 1) =
      before ++ after := by
    rw [hsegments, take_left, ← drop_drop, drop_left, drop_one, tail_cons]
  rw [hindex, hcut]
  refine segmentsOf_joinSegments (fun s hs => ?_) ?_
  · refine @slash_not_mem_segments glob s ?_
    rw [hsegments]
    rcases mem_append.mp hs with hs | hs
    · exact mem_append_left _ hs
    · exact mem_append_right _ (mem_cons_of_mem _ hs)
  · intro hnil
    rw [append_eq_nil_iff] at hnil
    rw [hindex, hsegments, hnil.1, hnil.2] at hlast
    exact hlast rfl

/-- **What a glob's segments are obtained of, read as segments themselves, they are obtained of.** -/
theorem SegmentsObtain.trans {patterns between segments : List Text}
    (h : SegmentsObtain patterns between) (hslash : ∀ s ∈ between, '/' ∉ s)
    (hrest : List.Forall₂ SegmentObtains between segments) : SegmentsObtain patterns segments := by
  induction h generalizing segments with
  | nil =>
    cases hrest
    exact .nil
  | @segment pattern segment patterns between hne first rest ih =>
    cases hrest with
    | @cons _ t _ ts hsegment hsegments =>
      have hadmits : ∀ a ∈ segment, a ≠ '*' → a ≠ '/' := fun a ha _ hslash' =>
        hslash segment mem_cons_self (hslash' ▸ ha)
      exact .segment hne (Expands.trans hadmits (first.widen fun _ _ => trivial) hsegment)
        (ih (fun s hs => hslash s (mem_cons_of_mem _ hs)) hsegments)
  | @cross patterns between crossed hne rest ih =>
    have hcrossed := (forall₂_take_append segments crossed between hrest.flip).flip
    have htail := (forall₂_drop_append segments crossed between hrest.flip).flip
    rw [← take_append_drop crossed.length segments]
    refine .cross _ ?_ (ih (fun s hs => hslash s (mem_append_right _ hs)) htail)
    intro hnil
    rw [hnil] at hcrossed
    exact hne (forall₂_nil_right_iff.mp hcrossed)

/-- **A glob that reaches the twin's text reaches every path the twin matches.** -/
theorem twin_covered {twin other path : Text} (htwin : shallowerTwin glob = some twin)
    (hcount : (segmentsOf glob).count doubleStar ≤ maxDoubleStarPerGlob)
    (hother : (segmentsOf other).count doubleStar ≤ maxDoubleStarPerGlob)
    (hcovers : segmentsMatch (segmentsOf other) (segmentsOf twin) = true)
    (hpath : segmentsMatch (segmentsOf twin) (segmentsOf path) = true) :
    segmentsMatch (segmentsOf other) (segmentsOf path) = true := by
  obtain ⟨before, after, -, hbefore, hafter, hsegments⟩ := shallowerTwin_eq_some htwin hcount
  have hnone : doubleStar ∉ segmentsOf twin := by
    rw [hsegments, mem_append, not_or]
    exact ⟨hbefore, hafter⟩
  have hzero : (segmentsOf twin).count doubleStar ≤ maxDoubleStarPerGlob := by
    rw [count_eq_zero.mpr hnone]
    exact Nat.zero_le _
  rw [matches_iff_obtains hother] at hcovers ⊢
  rw [matches_iff_obtains hzero, Obtains, segmentsObtain_iff_forall₂ hnone] at hpath
  exact hcovers.trans (fun s hs => slash_not_mem_segments hs) hpath

/-- **No path the twin matches is one the glob matches.** -/
theorem glob_misses_twin {twin path : Text} (htwin : shallowerTwin glob = some twin)
    (hcount : (segmentsOf glob).count doubleStar ≤ maxDoubleStarPerGlob)
    (hpath : segmentsMatch (segmentsOf twin) (segmentsOf path) = true) :
    matchesAny path [glob] = none := by
  obtain ⟨before, after, hglob, hbefore, hafter, hsegments⟩ := shallowerTwin_eq_some htwin hcount
  have hnone : doubleStar ∉ segmentsOf twin := by
    rw [hsegments, mem_append, not_or]
    exact ⟨hbefore, hafter⟩
  have hlength : (segmentsOf path).length = before.length + after.length := by
    rw [segmentsMatch, if_pos hnone, Bool.and_eq_true, decide_eq_true_eq, hsegments] at hpath
    rw [← hpath.1, length_append]
  rw [← Option.not_isSome_iff_eq_none, matchesAny_single, matches_iff_obtains hcount, Obtains, hglob,
    segmentsObtain_cross hbefore]
  rintro ⟨head, crossed, tail, hpath', hcrossed, hhead, htail⟩
  have htail' := ((segmentsObtain_iff_forall₂ hafter).mp htail).length_eq
  have hcrossed' := length_pos_iff.mpr hcrossed
  rw [hpath', length_append, length_append, ← hhead.length_eq, ← htail'] at hlength
  omega


/-! ### What `validate_policy` says -/

theorem exists_of_mapM_ok {ε α β : Type} {f : α → Except ε β} {l : List α} {results : List β}
    (h : l.mapM f = .ok results) {a : α} (ha : a ∈ l) : ∃ b ∈ results, f a = .ok b := by
  induction l generalizing results with
  | nil => cases ha
  | cons first l ih =>
    rw [mapM_cons] at h
    cases hfirst : f first with
    | error e => rw [hfirst] at h; cases h
    | ok b =>
      cases hrest : l.mapM f with
      | error e => rw [hfirst, hrest] at h; cases h
      | ok rest =>
        rw [hfirst, hrest] at h
        obtain rfl := Except.ok.inj h
        rcases mem_cons.mp ha with rfl | ha
        · exact ⟨b, mem_cons_self, hfirst⟩
        · obtain ⟨b', hb', hfa⟩ := ih hrest ha
          exact ⟨b', mem_cons_of_mem _ hb', hfa⟩

theorem gateFindings_subset {inputs : ValidationInputs} {spec : PolicySpec} {findings : List Finding}
    (h : validatePolicy repr inputs spec = .ok findings) {gate : GateSpec} (hgate : gate ∈ spec.gates) :
    ∃ found, gateFindings repr inputs spec gate = .ok found ∧ found ⊆ findings := by
  rw [validatePolicy] at h
  cases hfound : spec.gates.mapM (gateFindings repr inputs spec) with
  | error e => rw [hfound] at h; cases h
  | ok all =>
    rw [hfound] at h
    obtain rfl := Except.ok.inj h
    obtain ⟨found, hmem, hgateFound⟩ := exists_of_mapM_ok hfound hgate
    refine ⟨found, hgateFound, fun finding hfinding => mem_append_left _ ?_⟩
    exact mem_flatten.mpr ⟨found, hmem, hfinding⟩

theorem globFindings_subset {inputs : ValidationInputs} {spec : PolicySpec} {findings : List Finding}
    (h : validatePolicy repr inputs spec = .ok findings) {gate : GateSpec} (hgate : gate ∈ spec.gates)
    {field : Text} {globs : List Text} (hfield : (field, globs) ∈ globFields gate)
    (hglob : glob ∈ globs) :
    globFindings repr gate.gate field globs (inputs.treeFor gate.gate) glob ⊆ findings := by
  obtain ⟨found, hfound, hsubset⟩ := gateFindings_subset repr h hgate
  rw [gateFindings] at hfound
  cases hphrases : (phraseFields gate).mapM (fun entry =>
      phraseFindings repr gate.gate entry.1 entry.2) with
  | error e => rw [hphrases] at hfound; cases hfound
  | ok ofPhrases =>
    cases htype : typeFindings repr inputs spec gate with
    | error e => rw [hphrases, htype] at hfound; cases hfound
    | ok ofType =>
      rw [hphrases, htype] at hfound
      obtain rfl := Except.ok.inj hfound
      refine fun finding hfinding => hsubset ?_
      refine mem_append_left _ (mem_append_left _ ?_)
      exact mem_flatMap.mpr ⟨_, hfield, mem_flatMap.mpr ⟨glob, hglob, hfinding⟩⟩

theorem matchedChangedPaths_isEmpty (globs paths : List Text) :
    (matchedChangedPaths globs paths).isEmpty =
      !paths.any fun path => (matchesAny path globs).isSome := by
  rw [Bool.eq_iff_iff, List.isEmpty_iff, eq_nil_iff_forall_not_mem]
  simp [mem_matchedChangedPaths]

theorem shallowerWarning_mem {gate : Gate} {field twin : Text} {globs : List Text}
    (hreachable : unreachableGlob repr glob = none) (htwin : shallowerTwin glob = some twin)
    (hcovered : matchesAny twin globs = none) (tree : Option (List Text)) :
    shallowerWarning repr gate field glob twin ∈ globFindings repr gate field globs tree glob := by
  have hnone : (matchedChangedPaths globs [twin]).isEmpty = true := by
    rw [matchedChangedPaths_isEmpty, any_cons, hcovered]
    rfl
  simp only [globFindings, hreachable, htwin, hnone, if_true]
  exact mem_append_right _ mem_cons_self

/-- **Glob diagnostics are truthful.**  A glob is reported unreachable exactly when no repo-relative
path matches it.  Of a reachable one with a shallower twin, no warning says that every path the twin
matches is matched by some glob of the list, and a warning that the glob itself matches none. -/
theorem glob_diagnostics_truthful {inputs : ValidationInputs} {spec : PolicySpec}
    {findings : List Finding} (h : validatePolicy repr inputs spec = .ok findings) {gate : GateSpec}
    (hgate : gate ∈ spec.gates) {field : Text} {globs : List Text}
    (hfield : (field, globs) ∈ globFields gate)
    (haccepted : parseGlobList gate.gate.id field globs = .ok globs) : ∀ glob ∈ globs,
      ((unreachableGlob repr glob).isSome = true ↔
        ∀ path, RepoRelative path → matchesAny path [glob] = none) ∧
      (unreachableGlob repr glob = none → ∀ twin, shallowerTwin glob = some twin →
        (shallowerWarning repr gate.gate field glob twin ∉ findings →
          ∀ path, (matchesAny path [twin]).isSome = true → (matchesAny path globs).isSome = true) ∧
        (shallowerWarning repr gate.gate field glob twin ∈ findings →
          ∀ path, (matchesAny path [twin]).isSome = true → matchesAny path [glob] = none)) := by
  obtain ⟨-, hcount⟩ := parseGlobList_ok haccepted
  intro glob hglob
  refine ⟨unreachableGlob_isSome repr (hcount glob hglob), fun hreachable twin htwin => ⟨?_, ?_⟩⟩
  · intro hsilent path hpath
    have hcovered : (matchesAny twin globs).isSome = true := by
      by_contra hnone
      rw [Option.not_isSome_iff_eq_none] at hnone
      exact hsilent (globFindings_subset repr h hgate hfield hglob
        (shallowerWarning_mem repr hreachable htwin hnone _))
    obtain ⟨other, hother, hcovers⟩ := matchesAny_isSome.mp hcovered
    refine matchesAny_isSome.mpr ⟨other, hother, ?_⟩
    exact twin_covered htwin (hcount glob hglob) (hcount other hother) hcovers
      (matchesAny_single.mp hpath)
  · intro _ path hpath
    exact glob_misses_twin htwin (hcount glob hglob) (matchesAny_single.mp hpath)

/-- A gate over the Python sources, its glob and a shallower one. -/
def sourcesGate : PathGate where
  id := "sources".toList
  enforcement := .required
  runs := [.stopWorkingTree]
  forbidden := ["src/**/*.py".toList, "src/*.py".toList]

def sourcesSpec : PolicySpec where
  schemaVersion := "1".toList
  policyId := "sources".toList
  gates := [.path sourcesGate]

theorem validatePolicy_sources :
    validatePolicy singleQuoted { judgeGateLimit := 5, verifierGateLimit := 5 } sourcesSpec =
      .ok [] := by
  have hquiet : ∀ glob ∈ sourcesGate.forbidden, globFindings singleQuoted sourcesGate.toGate
      "forbidden".toList sourcesGate.forbidden none glob = [] := by
    simp only [globFindings, matchedChangedPaths_isEmpty]
    decide
  have hgate : gateFindings singleQuoted { judgeGateLimit := 5, verifierGateLimit := 5 } sourcesSpec
      (.path sourcesGate) = .ok [] := by
    have hglobs := flatMap_eq_nil_iff.mpr hquiet
    have htree : ({ judgeGateLimit := 5, verifierGateLimit := 5 } : ValidationInputs).treeFor
        sourcesGate.toGate = none := rfl
    simp only [gateFindings, globFields, GateSpec.gate, flatMap_cons, htree, hglobs]
    rfl
  have hgates : sourcesSpec.gates.mapM (gateFindings singleQuoted
      { judgeGateLimit := 5, verifierGateLimit := 5 } sourcesSpec) = .ok [[]] := by
    rw [sourcesSpec, mapM_cons, ← sourcesSpec, hgate]
    rfl
  have hnone : byPriority JudgeGate.priority [] = [] ∧ byPriority VerifierGate.priority [] = [] := by
    simp [byPriority]
  rw [validatePolicy, hgates]
  simp only [sourcesSpec, filterMap_cons_none, filterMap_nil, hnone]
  rfl

theorem glob_diagnostics_truthful_sources :
    (matchesAny "src/a.py".toList ["src/*.py".toList]).isSome = true ∧
      (matchesAny "src/a.py".toList sourcesGate.forbidden).isSome = true := by
  have hfield : ("forbidden".toList, sourcesGate.forbidden) ∈ globFields (.path sourcesGate) :=
    List.mem_cons_self
  have htruthful := glob_diagnostics_truthful singleQuoted validatePolicy_sources
    List.mem_cons_self hfield (by decide) "src/**/*.py".toList List.mem_cons_self
  have hmatches : (matchesAny "src/a.py".toList ["src/*.py".toList]).isSome = true := by
    decide +kernel
  have htwin := htruthful.2 (by decide) "src/*.py".toList (by decide)
  exact ⟨hmatches, htwin.1 List.not_mem_nil _ hmatches⟩

end Otari.Policy
