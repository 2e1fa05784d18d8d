import Otari.Access.AllowLists
import Otari.Support.Chains
import Otari.Support.Dicts
import Otari.Support.Json

/-!
# Traces — Sessions — which session a received span is in

`_named_session` and `otlp_sessions` of `services/traces/_otlp.py`.  An emitter names its conversation
on few of its spans, so a span that names none is in its nearest ancestor's, failing that in the first
one its OTel trace names, and failing that in the trace's own.

The chains are walked with a memo filled for whole paths, and each walk stops where it meets its own
path.  **The memo only ever holds the name at the nearest named ancestor** (`Settled`), whatever the
parents are: a walk ends at a name, at a place the memo knows, at one that is not there, or on its own
path, and each settles all the path (`walk_spec`).  So every span gets the session of its own chain
(`otlpSessions_spec`), and the walks could as well have been taken without the memo
(`otlpSessions_eq_fromScratch`).

A span's session is kept under its ids.  Of several spans with the same ids the last exported stands
for all of them (`standing`); a span without both ids is left out.
-/

namespace Otari.Traces.Otlp
open List
open Access (strip)
open Chains (Links Nearest Passed nearest)
open Documents (Json Fields)

/-- `_CLAUDE_CODE_SCOPE_PREFIX`. -/
def claudeCodeScopePrefix : String := "com.anthropic.claude_code"

/-- `HOOK_SCOPE`. -/
def hookScope : String := "otari.hook"

/-- `SessionSource`, of a received span. -/
inductive SessionSource where
  | otlp
deriving DecidableEq

structure SessionRef where
  source : SessionSource
  key : String
deriving DecidableEq

abbrev SpanRef := String × String

/-- Of a received span there is what names its session. -/
structure OtlpSpan where
  traceId : String
  spanId : String
  parentSpanId : Option String
  attributes : Fields
  scope : String

def OtlpSpan.ref (span : OtlpSpan) : SpanRef := (span.traceId, span.spanId)

def stripped : Option Json → Option String
  | some (.str value) =>
    let text := strip value.toList
    if text = [] then none else some (String.ofList text)
  | _ => none

/-- `_str`: the first of `keys` that holds a text. -/
def str (attributes : Fields) (keys : List String) : Option String :=
  keys.findSome? fun key => stripped (Documents.get attributes key)

def OtlpSpan.claudeCodeType (span : OtlpSpan) : Option String :=
  if claudeCodeScopePrefix.toList.isPrefixOf span.scope.toList then
    str span.attributes ["span.type"]
  else none

def OtlpSpan.namesHarnessSession (span : OtlpSpan) : Bool :=
  span.scope = hookScope || span.claudeCodeType.isSome

/-- `_named_session`.  Reading a text never raises, so there is no name an error withholds. -/
def namedSession (span : OtlpSpan) : Option String :=
  let keys := ["anthropic.session.id", "gen_ai.conversation.id", "otari.user_session_label",
    "otari.session_label"]
  str span.attributes (if span.namesHarnessSession then "session.id" :: keys else keys)

/-- The first of the keys that is neither missing nor empty, failing them the last. -/
def firstOf (found named : Option String) (last : String) : String :=
  ((found.filter (· ≠ "")).or (named.filter (· ≠ ""))).getD last

/-! ### The walk -/

section
variable (named : Dict SpanRef (Option String)) (parents : Dict SpanRef (Option String))
  (traceId : String)

/-- The `while` loop up from `place`, with the places it passed, which are also those it saw, and what
it found. -/
def walk (resolved : Dict SpanRef (Option String)) (place : SpanRef) (path : List SpanRef) :
    List SpanRef × Option String :=
  if _h : place ∈ named.keys ∧ place ∉ resolved.keys ∧ place ∉ path then
    match (named.get place).join with
    | some name => (path ++ [place], some name)
    | none => walk resolved (traceId, (parents.get place).join.getD "") (path ++ [place])
  else (path, (resolved.get place).join)
termination_by (named.keys.filter (· ∉ path)).length
decreasing_by exact Chains.length_ahead_lt _h.1 _h.2.2

end

/-! ### The sessions -/

def exported (spans : List OtlpSpan) : List OtlpSpan :=
  spans.filter fun span => span.traceId ≠ "" ∧ span.spanId ≠ ""

/-- `named`. -/
def namedOf (spans : List OtlpSpan) : Dict SpanRef (Option String) :=
  Dict.ofPairs (spans.map fun span => (span.ref, namedSession span))

/-- `parents`. -/
def parentsOf (spans : List OtlpSpan) : Dict SpanRef (Option String) :=
  Dict.ofPairs (spans.map fun span => (span.ref, span.parentSpanId))

/-- `traces`: the first name of each trace. -/
def tracesOf (named : Dict SpanRef (Option String)) : Dict String String :=
  Dict.ofDefaults (named.items.filterMap fun item => item.2.map (item.1.1, ·))

/-- The session of a span whose walk found a name or none. -/
def sessionRef (traces : Dict String String) (traceId : String) (found : Option String) : SessionRef :=
  ⟨.otlp, firstOf found (traces.get traceId) traceId⟩

/-- `resolved` and `sessions`, as the walks fill them. -/
structure Walks where
  resolved : Dict SpanRef (Option String)
  sessions : Dict SpanRef SessionRef

def Walks.step (spans : List OtlpSpan) (s : Walks) (span : OtlpSpan) : Walks :=
  let named := namedOf spans
  let (path, found) := walk named (parentsOf spans) span.traceId s.resolved span.ref []
  { resolved := path.foldl (fun resolved visited => resolved.put visited found) s.resolved
    sessions := s.sessions.put span.ref (sessionRef (tracesOf named) span.traceId found) }

/-- `otlp_sessions`. -/
def otlpSessions (spans : List OtlpSpan) : Dict SpanRef SessionRef :=
  ((exported spans).foldl (Walks.step (exported spans)) ⟨Dict.empty, Dict.empty⟩).sessions

/-- The sessions where each walk starts with an empty memo. -/
def fromScratch (spans : List OtlpSpan) : Dict SpanRef SessionRef :=
  let spans := exported spans
  let named := namedOf spans
  Dict.ofPairs (spans.map fun span =>
    (span.ref, sessionRef (tracesOf named) span.traceId
      (walk named (parentsOf spans) span.traceId Dict.empty span.ref []).2))

/-! ### The chain of a span -/

/-- The span that stands under two ids: the last exported with them. -/
def standing (spans : List OtlpSpan) (ref : SpanRef) : Option OtlpSpan :=
  ((exported spans).filter (·.ref = ref)).getLast?

/-- The name of each span, and its parent in its trace. -/
def chain (spans : List OtlpSpan) : Links SpanRef String where
  label ref := (standing spans ref).map namedSession
  next ref := (ref.1, ((standing spans ref).bind (·.parentSpanId)).getD "")

/-- The ids of the spans, each pair once, in the order they come first. -/
def refs (spans : List OtlpSpan) : List SpanRef := Distinct.firsts id ((exported spans).map (·.ref))

def firstNamed (spans : List OtlpSpan) (traceId : String) : Option String :=
  ((refs spans).filter (·.1 = traceId)).findSome? fun ref => (standing spans ref).bind namedSession

/-- What the session of a span is to be: the name at its nearest named ancestor or itself, failing
that the first name in its trace, failing that the trace. -/
inductive SessionIs (spans : List OtlpSpan) (ref : SpanRef) : String → Prop where
  | named {name : String} (h : Nearest (chain spans) ref name) : SessionIs spans ref name
  | inTrace {name : String} (hnone : ∀ name, ¬ Nearest (chain spans) ref name)
      (h : firstNamed spans ref.1 = some name) : SessionIs spans ref name
  | trace (hnone : ∀ name, ¬ Nearest (chain spans) ref name) (h : firstNamed spans ref.1 = none) :
      SessionIs spans ref ref.1

variable {spans : List OtlpSpan}

theorem get_namedOf (ref : SpanRef) :
    (namedOf (exported spans)).get ref = (chain spans).label ref :=
  Dict.get_ofPairs_map ..

theorem get_parentsOf (ref : SpanRef) :
    ((parentsOf (exported spans)).get ref).join.getD "" = ((chain spans).next ref).2 := by
  rw [parentsOf, Dict.get_ofPairs_map]
  simp [chain, standing, Option.join, Option.bind_map]

theorem standing_isSome_iff {ref : SpanRef} :
    (standing spans ref).isSome = true ↔ ∃ span ∈ exported spans, span.ref = ref := by
  rw [standing, List.getLast?_isSome, Ne, filter_eq_nil_iff]
  simp

/-! ### The walk finds the nearest name -/

/-- **The memo holds the names of the nearest ancestors.** -/
def Settled (spans : List OtlpSpan) (resolved : Dict SpanRef (Option String)) : Prop :=
  ∀ ref found, resolved.get ref = some found → found = nearest (chain spans) ref

theorem Settled.empty : Settled spans Dict.empty := by
  intro ref found h
  rw [Dict.get_empty] at h
  cases h

variable {resolved : Dict SpanRef (Option String)}

theorem Settled.foldl_put {path : List SpanRef} {found : Option String}
    (hpath : ∀ ref ∈ path, nearest (chain spans) ref = found) (h : Settled spans resolved) :
    Settled spans (path.foldl (fun resolved visited => resolved.put visited found) resolved) := by
  induction path generalizing resolved with
  | nil => exact h
  | cons visited rest ih =>
    rw [foldl_cons]
    refine ih (fun ref href => hpath ref (mem_cons_of_mem _ href)) ?_
    intro ref found' hget
    rw [Dict.get_put] at hget
    split at hget
    · rename_i href
      cases hget
      rw [← href]
      exact (hpath visited mem_cons_self).symm
    · exact h ref found' hget

theorem walk_spec (hsettled : Settled spans resolved)
    {traceId : String} {place : SpanRef} {path : List SpanRef} (htrace : place.1 = traceId)
    (hpassed : Passed (chain spans) path place) :
    (walk (namedOf (exported spans)) (parentsOf (exported spans)) traceId resolved place path).2 =
        nearest (chain spans) place ∧
      ∀ ref ∈ (walk (namedOf (exported spans)) (parentsOf (exported spans)) traceId resolved place
          path).1, nearest (chain spans) ref = nearest (chain spans) place := by
  induction place, path using walk.induct (namedOf (exported spans)) (parentsOf (exported spans))
    traceId resolved with
  | case1 place path h name hname =>
    have hlabel : (chain spans).label place = some (some name) := by
      rw [← get_namedOf]
      exact Option.join_eq_some_iff.mp hname
    rw [walk, dif_pos h, hname]
    refine ⟨(Chains.nearest_of_label hlabel).symm, fun ref href => ?_⟩
    rcases mem_append.mp href with href | href
    · exact hpassed.same ref href
    · rw [mem_singleton.mp href]
  | case2 place path h hname ih =>
    have hlabel : (chain spans).label place = some none := by
      rw [← get_namedOf]
      obtain ⟨name, hget⟩ := Option.isSome_iff_exists.mp (Dict.mem_keys_iff.mp h.1)
      rw [hget] at hname ⊢
      exact congrArg some hname
    have hnext : (traceId, ((parentsOf (exported spans)).get place).join.getD "") =
        (chain spans).next place := by
      rw [get_parentsOf, ← htrace]
      rfl
    rw [walk, dif_pos h, hname, Chains.nearest_of_unlabelled hlabel]
    rw [hnext] at ih ⊢
    exact ih htrace (hpassed.push hlabel)
  | case3 place path h =>
    rw [walk, dif_neg h]
    have hfound : (resolved.get place).join = nearest (chain spans) place := by
      cases hget : resolved.get place with
      | some found =>
        rw [hsettled place found hget]
        cases nearest (chain spans) place <;> rfl
      | none =>
        by_cases hpath : place ∈ path
        · exact (hpassed.nearest_eq_none hpath).symm
        · have hmissing : place ∉ (namedOf (exported spans)).keys := fun hplace =>
            h ⟨hplace, Dict.notMem_keys_iff.mpr hget, hpath⟩
          rw [Dict.notMem_keys_iff, get_namedOf] at hmissing
          exact (Chains.nearest_of_missing hmissing).symm
    exact ⟨hfound, fun ref href => hpassed.same ref href⟩

/-! ### What each walk does to the memo and the sessions -/

/-- The session of a span whose chain names what it names. -/
noncomputable def ownSession (spans : List OtlpSpan) (ref : SpanRef) : SessionRef :=
  sessionRef (tracesOf (namedOf (exported spans))) ref.1 (nearest (chain spans) ref)

theorem walk_of_span (h : Settled spans resolved) (span : OtlpSpan) :
    (walk (namedOf (exported spans)) (parentsOf (exported spans)) span.traceId resolved span.ref
        []).2 = nearest (chain spans) span.ref ∧
      ∀ ref ∈ (walk (namedOf (exported spans)) (parentsOf (exported spans)) span.traceId resolved
          span.ref []).1, nearest (chain spans) ref = nearest (chain spans) span.ref :=
  walk_spec h rfl (Passed.start span.ref)

theorem step_settled {s : Walks} (h : Settled spans s.resolved) (span : OtlpSpan) :
    Settled spans (s.step (exported spans) span).resolved := by
  obtain ⟨hfound, hpath⟩ := walk_of_span h span
  exact h.foldl_put fun ref href => (hpath ref href).trans hfound.symm

theorem step_sessions {s : Walks} (h : Settled spans s.resolved) (span : OtlpSpan) :
    (s.step (exported spans) span).sessions = s.sessions.put span.ref (ownSession spans span.ref) := by
  obtain ⟨hfound, -⟩ := walk_of_span h span
  simp only [Walks.step, hfound]
  rfl

theorem foldl_step_sessions (l : List OtlpSpan) {s : Walks} (h : Settled spans s.resolved) :
    (l.foldl (Walks.step (exported spans)) s).sessions =
      (l.map fun span => (span.ref, ownSession spans span.ref)).foldl
        (fun d pair => d.put pair.1 pair.2) s.sessions := by
  induction l generalizing s with
  | nil => rfl
  | cons span rest ih =>
    rw [foldl_cons, ih (step_settled h span), step_sessions h span]
    rfl

theorem otlpSessions_eq (spans : List OtlpSpan) : otlpSessions spans =
      Dict.ofPairs ((exported spans).map fun span => (span.ref, ownSession spans span.ref)) :=
  foldl_step_sessions (exported spans) Settled.empty

/-- **The memo changes nothing.** -/
theorem otlpSessions_eq_fromScratch (spans : List OtlpSpan) :
    otlpSessions spans = fromScratch spans := by
  rw [otlpSessions_eq, fromScratch]
  refine congrArg Dict.ofPairs (map_congr_left fun span _ => ?_)
  obtain ⟨hfound, -⟩ := @walk_of_span spans _ Settled.empty span
  rw [hfound]
  rfl

theorem get_otlpSessions (spans : List OtlpSpan) (ref : SpanRef) :
    (otlpSessions spans).get ref = (standing spans ref).map fun _ => ownSession spans ref := by
  rw [otlpSessions_eq,
    Dict.get_ofPairs_map OtlpSpan.ref fun span => ownSession spans span.ref]
  refine Option.map_congr fun span hspan => ?_
  rw [of_decide_eq_true (mem_filter.mp (mem_of_getLast? hspan)).2]

/-! ### The names -/

variable {name : String}

theorem ne_empty_of_stripped {value : Option Json} (h : stripped value = some name) :
    name ≠ "" := by
  unfold stripped at h
  split at h
  · rename_i text
    by_cases hempty : strip text.toList = []
    · simp [hempty] at h
    · rw [if_neg hempty] at h
      intro hname
      have htext : String.ofList (strip text.toList) = "" := (Option.some.inj h).trans hname
      exact hempty (by simpa using congrArg String.toList htext)
  · cases h

theorem ne_empty_of_namedSession {span : OtlpSpan}
    (h : namedSession span = some name) : name ≠ "" := by
  obtain ⟨key, -, hkey⟩ := exists_of_findSome?_eq_some h
  exact ne_empty_of_stripped hkey

theorem ne_empty_of_nearest {ref : SpanRef} (h : Nearest (chain spans) ref name) : name ≠ "" := by
  induction h with
  | here h =>
    obtain ⟨span, -, hname⟩ := Option.map_eq_some_iff.mp h
    exact ne_empty_of_namedSession hname
  | up _ _ ih => exact ih

theorem ne_empty_of_firstNamed {traceId : String} (h : firstNamed spans traceId = some name) :
    name ≠ "" := by
  obtain ⟨ref, -, href⟩ := exists_of_findSome?_eq_some h
  obtain ⟨span, -, hname⟩ := Option.bind_eq_some_iff.mp href
  exact ne_empty_of_namedSession hname

theorem get_tracesOf (traceId : String) :
    (tracesOf (namedOf (exported spans))).get traceId = firstNamed spans traceId := by
  have hkeys : (namedOf (exported spans)).keys = refs spans := by
    rw [namedOf, Dict.keys_ofPairs, map_map]
    rfl
  rw [tracesOf, Dict.get_ofDefaults, Dict.items_eq, hkeys, firstNamed]
  induction refs spans with
  | nil => rfl
  | cons ref rest ih =>
    have hget : (namedOf (exported spans)).get ref = (standing spans ref).map namedSession :=
      get_namedOf ref
    rw [filterMap_cons, filter_cons, hget]
    cases hspan : standing spans ref with
    | none => by_cases htrace : ref.1 = traceId <;> simpa [htrace, hspan] using ih
    | some span =>
      cases hname : namedSession span with
      | none => by_cases htrace : ref.1 = traceId <;> simpa [htrace, hspan, hname] using ih
      | some name =>
        by_cases htrace : ref.1 = traceId
        · simp [htrace, hspan, hname]
        · simpa [htrace, hspan, hname] using ih

/-- **Each span is in the session of its own chain**, failing that in the first its trace names,
failing that in its trace's own. -/
theorem sessionIs_ownSession (ref : SpanRef) : SessionIs spans ref (ownSession spans ref).key := by
  rw [ownSession, sessionRef, get_tracesOf]
  cases hnear : nearest (chain spans) ref with
  | some name =>
    have hname := Chains.nearest_eq_some.mp hnear
    rw [firstOf, Option.filter_some_pos (by simpa using ne_empty_of_nearest hname)]
    exact .named hname
  | none =>
    have hnone := Chains.nearest_eq_none.mp hnear
    cases hfirst : firstNamed spans ref.1 with
    | some name =>
      rw [firstOf, Option.filter_some_pos (by simpa using ne_empty_of_firstNamed hfirst)]
      exact .inTrace hnone hfirst
    | none => exact .trace hnone hfirst

/-- **Every span with both ids gets the session of its own chain, and the memo changes nothing.** -/
theorem otlpSessions_spec (spans : List OtlpSpan) :
    (∀ span ∈ spans, span.traceId ≠ "" → span.spanId ≠ "" →
      ∃ session, (otlpSessions spans).get span.ref = some ⟨.otlp, session⟩ ∧
        SessionIs spans span.ref session) ∧ otlpSessions spans = fromScratch spans := by
  refine ⟨fun span hspan htrace hid => ?_, otlpSessions_eq_fromScratch spans⟩
  have hexported : span ∈ exported spans := List.mem_filter.mpr ⟨hspan, by simp [htrace, hid]⟩
  obtain ⟨other, hother⟩ := Option.isSome_iff_exists.mp
    (standing_isSome_iff.mpr ⟨span, hexported, rfl⟩)
  refine ⟨(ownSession spans span.ref).key, ?_, sessionIs_ownSession span.ref⟩
  rw [get_otlpSessions, hother]
  rfl

/-- Two spans under the same ids, the first of which names its session. -/
def sameIds : List OtlpSpan :=
  [⟨"t", "a", none, [("gen_ai.conversation.id", .str "chat")], ""⟩, ⟨"t", "a", none, [], ""⟩]

/-- A span that names its session is not in it where another is exported under its ids after it. -/
theorem sameIds_overridden :
    (∃ span ∈ sameIds, span.ref = ("t", "a") ∧ namedSession span = some "chat") ∧
      (otlpSessions sameIds).get ("t", "a") = some ⟨.otlp, "t"⟩ := by
  constructor
  · exact ⟨_, List.mem_cons_self, rfl, by decide +kernel⟩
  · decide +kernel

end Otari.Traces.Otlp
