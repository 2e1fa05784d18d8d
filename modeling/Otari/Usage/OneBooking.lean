import Otari.Pricing.ImportedUsage

/-!
# Usage — OneBooking — one booking per response

`services/external_usage_service.py`: the usage events read off an export's spans, of which
`oneBookingPerResponse` books one per response.  A first pass over them keeps the index of the best
event of each response and origin (`firstPass`), a second books what was kept and every event whose
id is not a response's (`bookings`).

`OneBooking` is what booking once means, whatever the order of the events.  The ids of Claude events
the first pass looks others up in hold those of Claude events that name no response too, so **an
export is booked once exactly when no such id is one that only another library's event names**
(`one_booking_iff`).
-/

namespace Otari.Usage
open Function List
open Pricing (Key ExternalUsageEvent)

/-! ### The two passes -/

/-- `CLAUDE_SOURCE`. -/
def claudeSource : Key := "claude_platform".toList

abbrev SpanKey := Key × Key

/-- A usage event read off an exported span. -/
structure ReadUsage where
  source : Key
  event : ExternalUsageEvent
  spanKey : SpanKey
  namesResponse : Bool := true

/-- A response's id, and whether a Claude event is meant. -/
abbrev Group := Bool × Key

namespace ReadUsage

def fromClaude (usage : ReadUsage) : Bool := usage.source = claudeSource

def id (usage : ReadUsage) : Key := usage.event.sourceEventId

def group (usage : ReadUsage) : Group := (usage.fromClaude, usage.id)

def pair (usage : ReadUsage) : Key × ExternalUsageEvent := (usage.source, usage.event)

/-- `rank`: the 1-hour cache writes of a Claude event, then the tokens. -/
def rank (usage : ReadUsage) : ℕ ×ₗ ℕ :=
  toLex (if usage.fromClaude then usage.event.cacheWrite1hTokens else 0, tokens usage.event)
where
  tokens (event : ExternalUsageEvent) : ℕ :=
    let cache :=
      if event.cacheTokensInPrompt then 0 else event.cacheReadTokens + event.cacheWriteTokens
    event.inputTokens + event.outputTokens + cache

end ReadUsage

/-- The ids of the Claude events, named responses or not. -/
def claudeIds (read : List ReadUsage) : List Key :=
  (read.filter (·.fromClaude)).map (·.id)

/-- The dictionaries of the first pass. -/
structure Groups where
  best : Group → Option ℕ := fun _ => none
  first : Group → Option SpanKey := fun _ => none

/-- The event may be its response's booking. -/
def eligible (claude : List Key) (usage : ReadUsage) : Bool :=
  usage.namesResponse && (usage.fromClaude || usage.id ∉ claude)

def consider (read : List ReadUsage) (groups : Groups) (entry : ReadUsage × ℕ) : Groups :=
  let (usage, index) := entry
  if !eligible (claudeIds read) usage then groups
  else
    let group := usage.group
    let better : Bool := match groups.best group with
      | none => true
      | some kept => read[kept]?.any fun other => decide (other.rank < usage.rank)
    { first := Function.update groups.first group (some ((groups.first group).getD usage.spanKey))
      best := if better then Function.update groups.best group (some index) else groups.best }

def firstPass (read : List ReadUsage) : Groups :=
  read.zipIdx.foldl (consider read) {}

/-- The second pass keeps an event that names no response, and the best of each group. -/
def keeps (groups : Groups) (entry : ReadUsage × ℕ) : Bool :=
  !entry.1.namesResponse || groups.best entry.1.group = some entry.2

/-- The span a booking's cost reaches: a Claude response's first. -/
def bookedSpan (groups : Groups) (usage : ReadUsage) : SpanKey :=
  if usage.namesResponse && usage.fromClaude then
    (groups.first usage.group).getD usage.spanKey
  else usage.spanKey

/-- The events booked, in the order they were read. -/
def bookings (read : List ReadUsage) : List ReadUsage :=
  (read.zipIdx.filter (keeps (firstPass read))).map (·.1)

/-- `dict.setdefault`. -/
def setDefault (d : List ((Key × Key) × SpanKey)) (key : Key × Key) (span : SpanKey) :
    List ((Key × Key) × SpanKey) :=
  if (d.lookup key).isSome then d else d ++ [(key, span)]

/-- `one_booking_per_response`. -/
def oneBookingPerResponse (read : List ReadUsage) :
    List (Key × ExternalUsageEvent) × List ((Key × Key) × SpanKey) :=
  ((bookings read).map (·.pair),
    (bookings read).foldl
      (fun spans usage => setDefault spans (usage.source, usage.id)
        (bookedSpan (firstPass read) usage)) [])

/-! ### Booking once -/

def named (group : Group) (l : List ReadUsage) : List ReadUsage :=
  l.filter fun usage => usage.namesResponse && usage.group = group

/-- What is booked of the events read. -/
structure Booked (read kept : List ReadUsage) : Prop where
  sublist : kept.Sublist read
  unmerged : kept.filter (!·.namesResponse) = read.filter (!·.namesResponse)
  atMostOne : ∀ group, (named group kept).length ≤ 1
  claude : ∀ id, named (true, id) read ≠ [] →
    (named (true, id) kept).length = 1 ∧ named (false, id) kept = []
  other : ∀ id, named (true, id) read = [] → named (false, id) read ≠ [] →
    (named (false, id) kept).length = 1
  greatest : ∀ group, ∀ usage ∈ named group kept, ∀ other ∈ named group read,
    other.rank ≤ usage.rank

/-- The same ids are booked, and for each response an event of the same rank. -/
def SameBookings (kept kept' : List ReadUsage) : Prop :=
  (∀ id, id ∈ kept.map (·.id) ↔ id ∈ kept'.map (·.id)) ∧
    ∀ group, (named group kept).map (·.rank) = (named group kept').map (·.rank)

/-- **One booking per response**, whichever order the events are read in. -/
def OneBooking (read : List ReadUsage) : Prop :=
  ∀ read', read'.Perm read →
    ∃ kept kept', (oneBookingPerResponse read).1 = kept.map (·.pair) ∧ Booked read kept ∧
      (oneBookingPerResponse read').1 = kept'.map (·.pair) ∧ Booked read' kept' ∧
      SameBookings kept kept'

/-- A response only another library's events name has no Claude event's id. -/
def KeptApart (read : List ReadUsage) : Prop :=
  ∀ id ∈ claudeIds read, named (false, id) read ≠ [] → named (true, id) read ≠ []

/-! ### The first pass -/

variable {usage : ReadUsage}

variable {l : List ReadUsage}

theorem mem_named {group : Group} :
    usage ∈ named group l ↔ usage ∈ l ∧ usage.namesResponse = true ∧ usage.group = group := by
  rw [named, mem_filter, Bool.and_eq_true, decide_eq_true_eq]

/-- The best of the events passed: none, or the index of one that is eligible and as good as any. -/
structure BestOf (read : List ReadUsage) (passed : List (ReadUsage × ℕ)) (groups : Groups) :
    Prop where
  absent : ∀ group, groups.best group = none →
    ∀ entry ∈ passed, eligible (claudeIds read) entry.1 = true → entry.1.group ≠ group
  present : ∀ group index, groups.best group = some index → ∃ usage, (usage, index) ∈ passed ∧
    eligible (claudeIds read) usage = true ∧ usage.group = group ∧
    ∀ entry ∈ passed, eligible (claudeIds read) entry.1 = true → entry.1.group = group →
      entry.1.rank ≤ usage.rank

variable {read : List ReadUsage} {groups : Groups}

theorem consider_of_eligible {index : ℕ} (h : eligible (claudeIds read) usage = true)
    (hbetter : groups.best usage.group = none ∨
      ∃ kept other, groups.best usage.group = some kept ∧ read[kept]? = some other ∧
        other.rank < usage.rank) : (consider read groups (usage, index)).best =
      update groups.best usage.group (some index) := by
  rcases hbetter with hnone | ⟨kept, other, hkept, hother, hlt⟩
  · simp [consider, h, hnone]
  · simp [consider, h, hkept, hother, hlt]

theorem consider_of_not_better {other : ReadUsage}
    {index kept : ℕ} (hkept : groups.best usage.group = some kept)
    (hother : read[kept]? = some other) (hle : usage.rank ≤ other.rank) :
    (consider read groups (usage, index)).best = groups.best := by
  cases h : eligible (claudeIds read) usage <;> simp [consider, h, hkept, hother, hle]

theorem consider_of_not_eligible {index : ℕ} (h : eligible (claudeIds read) usage = false) :
    (consider read groups (usage, index)).best = groups.best := by
  simp [consider, h]

variable {passed : List (ReadUsage × ℕ)}

theorem BestOf.same {groups' : Groups}
    (h : BestOf read passed groups) {entry : ReadUsage × ℕ} (hbest : groups'.best = groups.best)
    (hentry : eligible (claudeIds read) entry.1 = true → ∃ kept other,
      groups.best entry.1.group = some kept ∧ (∀ e ∈ passed, e.2 = kept → e.1 = other) ∧
        entry.1.rank ≤ other.rank) : BestOf read (passed ++ [entry]) groups' := by
  constructor
  · intro group hnone e he heligible
    rw [hbest] at hnone
    rcases mem_append.mp he with he | he
    · exact h.absent group hnone e he heligible
    · obtain rfl := mem_singleton.mp he
      obtain ⟨kept, -, hkept, -⟩ := hentry heligible
      rintro rfl
      rw [hnone] at hkept
      cases hkept
  · intro group index hsome
    rw [hbest] at hsome
    obtain ⟨usage, hmem, heligible, hgroup, hbetter⟩ := h.present group index hsome
    refine ⟨usage, mem_append_left _ hmem, heligible, hgroup, fun e he helig hg => ?_⟩
    rcases mem_append.mp he with he | he
    · exact hbetter e he helig hg
    · obtain rfl := mem_singleton.mp he
      obtain ⟨kept, other, hkept, hunique, hle⟩ := hentry helig
      rw [hg, hsome] at hkept
      obtain rfl := Option.some.inj hkept
      have hsame : usage = other := hunique _ hmem rfl
      rwa [hsame]

theorem consider_bestOf
    (h : BestOf read passed groups) (hpassed : ∀ entry ∈ passed, read[entry.2]? = some entry.1)
    (entry : ReadUsage × ℕ) : BestOf read (passed ++ [entry]) (consider read groups entry) := by
  obtain ⟨usage, index⟩ := entry
  cases heligible : eligible (claudeIds read) usage with
  | false =>
    refine h.same (consider_of_not_eligible heligible) fun helig => ?_
    rw [heligible] at helig
    cases helig
  | true =>
    -- the event is no better than the group's best so far, or takes its place
    by_cases hworse : ∃ kept other, groups.best usage.group = some kept ∧
        (other, kept) ∈ passed ∧ usage.rank ≤ other.rank
    · obtain ⟨kept, other, hkept, hmem, hle⟩ := hworse
      have hother := hpassed _ hmem
      refine h.same (consider_of_not_better hkept hother hle) fun _ =>
        ⟨kept, other, hkept, fun e he hindex => ?_, hle⟩
      have := hpassed e he
      rw [hindex, hother] at this
      exact (Option.some.inj this).symm
    · have hbetter : groups.best usage.group = none ∨ ∃ kept other,
          groups.best usage.group = some kept ∧ read[kept]? = some other ∧
            other.rank < usage.rank := by
        cases hbest : groups.best usage.group with
        | none => exact .inl rfl
        | some kept =>
          obtain ⟨other, hmem, -⟩ := h.present _ _ hbest
          refine .inr ⟨kept, other, rfl, hpassed _ hmem, not_le.mp fun hle => ?_⟩
          exact hworse ⟨kept, other, hbest, hmem, hle⟩
      have hnew := @consider_of_eligible _ _ _ index heligible hbetter
      -- `absent`, and then `present` for the group of the event and for the others
      constructor
      · intro group hnone e he helig hg
        have hne : group ≠ usage.group := by
          rintro rfl
          rw [hnew, update_self] at hnone
          cases hnone
        rw [hnew, update_of_ne hne] at hnone
        rcases mem_append.mp he with he | he
        · exact h.absent group hnone e he helig hg
        · obtain rfl := mem_singleton.mp he
          exact hne hg.symm
      · intro group index' hsome
        by_cases hg : group = usage.group
        · subst hg
          rw [hnew, update_self] at hsome
          obtain rfl := Option.some.inj hsome
          refine ⟨usage, mem_append_right _ mem_cons_self, heligible, rfl,
            fun e he helig hge => ?_⟩
          rcases mem_append.mp he with he | he
          · cases hbest : groups.best usage.group with
            | none => exact absurd hge (h.absent _ hbest e he helig)
            | some kept =>
              obtain ⟨other, hmem, -, -, hgreatest⟩ := h.present _ _ hbest
              refine (hgreatest e he helig hge).trans (le_of_not_ge fun hle => ?_)
              exact hworse ⟨kept, other, hbest, hmem, hle⟩
          · obtain rfl := mem_singleton.mp he
            exact le_rfl
        · rw [hnew, update_of_ne hg] at hsome
          obtain ⟨other, hmem, helig, hother, hgreatest⟩ := h.present _ _ hsome
          refine ⟨other, mem_append_left _ hmem, helig, hother, fun e he helig' hge => ?_⟩
          rcases mem_append.mp he with he | he
          · exact hgreatest e he helig' hge
          · obtain rfl := mem_singleton.mp he
            exact absurd hge.symm hg

/-- **The first pass keeps the best of each group.** -/
theorem firstPass_bestOf (read : List ReadUsage) : BestOf read read.zipIdx (firstPass read) := by
  have hrun : ∀ (rest passed : List (ReadUsage × ℕ)) (groups : Groups),
      BestOf read passed groups → (∀ entry ∈ passed ++ rest, read[entry.2]? = some entry.1) →
        BestOf read (passed ++ rest) (rest.foldl (consider read) groups) := by
    intro rest
    induction rest with
    | nil =>
      intro passed groups h _
      rwa [append_nil]
    | cons entry rest ih =>
      intro passed groups h hread
      have hstep := consider_bestOf h (fun e he => hread e (mem_append_left _ he)) entry
      have := ih (passed ++ [entry]) _ hstep (by simpa using hread)
      simpa using this
  have hstart : BestOf read [] {} :=
    ⟨fun _ _ _ he => absurd he not_mem_nil, fun _ _ h => by cases h⟩
  refine hrun read.zipIdx [] {} hstart fun entry hentry => ?_
  exact mem_zipIdx_iff_getElem?.mp hentry

/-! ### What is kept -/

variable {claude : List Key}

theorem eligible_iff : eligible claude usage = true ↔
      usage.namesResponse = true ∧ (usage.fromClaude = true ∨ usage.id ∉ claude) := by
  rw [eligible, Bool.and_eq_true, Bool.or_eq_true, decide_eq_true_eq]

theorem filter_zipIdx_eq {α : Type*} {l : List α} {a : α} {k start : ℕ} (h : l[k]? = some a)
    {p : α → Bool} (hp : p a = true) :
    (l.zipIdx start).filter (fun entry => p entry.1 && entry.2 = start + k) = [(a, start + k)] := by
  induction l generalizing k start with
  | nil => cases h
  | cons b l ih =>
    rw [zipIdx_cons]
    cases k with
    | zero =>
      obtain rfl : b = a := by simpa using h
      have hrest : (l.zipIdx (start + 1)).filter
          (fun entry => p entry.1 && entry.2 = start + 0) = [] := by
        refine filter_eq_nil_iff.mpr fun entry hentry => ?_
        have := le_snd_of_mem_zipIdx hentry
        simp only [Bool.and_eq_true, decide_eq_true_eq]
        omega
      rw [filter_cons_of_pos (by simp [hp]), hrest, Nat.add_zero]
    | succ k =>
      rw [filter_cons_of_neg (by simp)]
      have hk : start + (k + 1) = start + 1 + k := by omega
      rw [hk]
      exact ih (by simpa using h)

theorem named_bookings (read : List ReadUsage) (group : Group) : named group (bookings read) =
      (((firstPass read).best group).bind fun index => read[index]?).toList := by
  have hfilter : named group (bookings read) =
      (read.zipIdx.filter fun entry => (entry.1.namesResponse && entry.1.group = group) &&
        (firstPass read).best group = some entry.2).map (·.1) := by
    rw [named, bookings, filter_map, filter_filter]
    congr 1
    refine filter_congr fun entry _ => ?_
    rw [comp_apply, keeps]
    cases hnames : entry.1.namesResponse with
    | false => simp
    | true =>
      by_cases hgroup : entry.1.group = group
      · simp [hgroup]
      · simp [hgroup]
  rw [hfilter]
  cases hbest : (firstPass read).best group with
  | none => simp
  | some index =>
    obtain ⟨usage, hmem, heligible, hgroup, -⟩ := (firstPass_bestOf read).present _ _ hbest
    have hread := mem_zipIdx_iff_getElem?.mp hmem
    have hat : read.zipIdx.filter (fun entry =>
        (entry.1.namesResponse && entry.1.group = group) && entry.2 = 0 + index) =
          [(usage, 0 + index)] :=
      @filter_zipIdx_eq _ _ _ _ 0 hread (fun u => u.namesResponse && u.group = group)
        (by simp [(eligible_iff.mp heligible).1, hgroup])
    simp only [Nat.zero_add] at hat
    rw [Option.bind_some, hread, Option.toList_some]
    have heq : (fun entry : ReadUsage × ℕ => (entry.1.namesResponse && entry.1.group = group) &&
        decide (some index = some entry.2)) =
        fun entry => (entry.1.namesResponse && entry.1.group = group) && decide (entry.2 = index) := by
      funext entry
      simp [eq_comm]
    rw [heq, hat, map_singleton]

theorem named_bookings_cases (read : List ReadUsage) (group : Group) :
    (named group (bookings read) = [] ∧
      ∀ usage ∈ read, eligible (claudeIds read) usage = true → usage.group ≠ group) ∨
    ∃ usage ∈ read, named group (bookings read) = [usage] ∧
      eligible (claudeIds read) usage = true ∧ usage.group = group ∧
      ∀ other ∈ read, eligible (claudeIds read) other = true → other.group = group →
        other.rank ≤ usage.rank := by
  have hbest := firstPass_bestOf read
  have hmem : ∀ usage ∈ read, ∃ index, (usage, index) ∈ read.zipIdx := by
    intro usage husage
    obtain ⟨index, hindex⟩ := mem_iff_getElem?.mp husage
    exact ⟨index, mem_zipIdx_iff_getElem?.mpr hindex⟩
  rw [named_bookings]
  cases hgroup : (firstPass read).best group with
  | none =>
    refine .inl ⟨rfl, fun usage husage heligible => ?_⟩
    obtain ⟨index, hindex⟩ := hmem usage husage
    exact hbest.absent group hgroup _ hindex heligible
  | some index =>
    obtain ⟨usage, hindex, heligible, hg, hgreatest⟩ := hbest.present group index hgroup
    have hread := mem_zipIdx_iff_getElem?.mp hindex
    refine .inr ⟨usage, mem_of_getElem? hread, ?_, heligible, hg,
      fun other hother helig hog => ?_⟩
    · rw [Option.bind_some, hread, Option.toList_some]
    · obtain ⟨i, hi⟩ := hmem other hother
      exact hgreatest _ hi helig hog

theorem bookings_sublist (read : List ReadUsage) : (bookings read).Sublist read := by
  have hkept : (read.zipIdx.filter (keeps (firstPass read))).Sublist read.zipIdx :=
    filter_sublist
  have := hkept.map Prod.fst
  rwa [zipIdx_map_fst] at this

theorem bookings_unmerged (read : List ReadUsage) :
    (bookings read).filter (!·.namesResponse) = read.filter (!·.namesResponse) := by
  have hall : (read.zipIdx.filter fun entry => !entry.1.namesResponse).map Prod.fst =
      read.filter (!·.namesResponse) := by
    have := @filter_map _ _ Prod.fst (fun u : ReadUsage => !u.namesResponse) read.zipIdx
    rw [zipIdx_map_fst] at this
    exact this.symm
  rw [bookings, filter_map, filter_filter, ← hall]
  congr 1
  refine filter_congr fun entry _ => ?_
  rw [comp_apply, keeps]
  cases entry.1.namesResponse <;> simp

/-! ### The theorem -/

variable {id : Key}

theorem mem_claudeIds :
    id ∈ claudeIds read ↔ ∃ usage ∈ read, usage.fromClaude = true ∧ usage.id = id := by
  simp [claudeIds, and_assoc]

theorem eligible_claude (h : usage.fromClaude = true) :
    eligible claude usage = usage.namesResponse := by
  rw [eligible, h, Bool.true_or, Bool.and_true]

theorem eligible_other (h : usage.fromClaude = false) :
    eligible claude usage = (usage.namesResponse && usage.id ∉ claude) := by
  rw [eligible, h, Bool.false_or]

theorem named_ne_nil {group : Group} :
    named group l ≠ [] ↔ ∃ usage ∈ l, usage.namesResponse = true ∧ usage.group = group := by
  constructor
  · intro h
    obtain ⟨usage, husage⟩ := exists_mem_of_ne_nil _ h
    exact ⟨usage, mem_named.mp husage⟩
  · rintro ⟨usage, husage⟩
    exact ne_nil_of_mem (mem_named.mpr husage)

theorem not_mem_claudeIds
    (h : eligible (claudeIds read) usage = true) (hgroup : usage.group = (false, id)) :
    id ∉ claudeIds read := by
  obtain ⟨hclaude, rfl⟩ := Prod.mk.inj hgroup
  exact (eligible_iff.mp h).2.resolve_left (by simp [hclaude])

theorem booked_of_keptApart (h : KeptApart read) : Booked read (bookings read) where
  sublist := bookings_sublist read
  unmerged := bookings_unmerged read
  atMostOne group := by
    rcases named_bookings_cases read group with ⟨hnil, -⟩ | ⟨usage, -, hone, -⟩
    · simp [hnil]
    · simp [hone]
  claude id hid := by
    obtain ⟨usage, husage, hnames, hgroup⟩ := named_ne_nil.mp hid
    have hclaude : usage.fromClaude = true := (Prod.mk.inj hgroup).1
    constructor
    · rcases named_bookings_cases read (true, id) with ⟨-, hnone⟩ | ⟨kept, -, hone, -⟩
      · exact absurd hgroup (hnone usage husage (by rw [eligible_claude hclaude, hnames]))
      · simp [hone]
    · rcases named_bookings_cases read (false, id) with ⟨hnil, -⟩ | ⟨kept, -, -, heligible, hg, -⟩
      · exact hnil
      · refine absurd ?_ (not_mem_claudeIds heligible hg)
        exact mem_claudeIds.mpr ⟨usage, husage, hclaude, (Prod.mk.inj hgroup).2⟩
  other id hnone hid := by
    obtain ⟨usage, husage, hnames, hgroup⟩ := named_ne_nil.mp hid
    obtain ⟨hother, rfl⟩ := Prod.mk.inj hgroup
    have hapart : usage.id ∉ claudeIds read := fun hmem => h usage.id hmem hid hnone
    rcases named_bookings_cases read (false, usage.id) with ⟨-, hnil⟩ | ⟨kept, -, hone, -⟩
    · exact absurd hgroup (hnil usage husage (by simp [eligible_other hother, hnames, hapart]))
    · simp [hone]
  greatest group usage husage other hother := by
    obtain ⟨hmem, hnames, hgroup⟩ := mem_named.mp hother
    rcases named_bookings_cases read group with ⟨hnil, -⟩ | ⟨kept, -, hone, heligible, hg, hgreatest⟩
    · rw [hnil] at husage
      cases husage
    · rw [hone, mem_singleton] at husage
      subst husage
      refine hgreatest other hmem ?_ hgroup
      cases hclaude : other.fromClaude with
      | true => rw [eligible_claude hclaude, hnames]
      | false =>
        have hog : other.group = (false, other.id) := by rw [ReadUsage.group, hclaude]
        have := not_mem_claudeIds heligible (hg.trans (hgroup.symm.trans hog))
        simp [eligible_other hclaude, hnames, this]

variable {read' : List ReadUsage}

theorem named_perm (h : read'.Perm read) (group : Group) :
    (named group read').Perm (named group read) :=
  h.filter _

variable {kept : List ReadUsage}

theorem Booked.named_sublist (h : Booked read kept) (group : Group) :
    (named group kept).Sublist (named group read) :=
  h.sublist.filter _

theorem Booked.length_named (h : Booked read kept) (group : Group) : (named group kept).length =
      if named group read = [] ∨ (group.1 = false ∧ named (true, group.2) read ≠ []) then 0
      else 1 := by
  obtain ⟨fromClaude, id⟩ := group
  by_cases hnil : named (fromClaude, id) read = []
  · have := h.named_sublist (fromClaude, id)
    rw [hnil, sublist_nil] at this
    simp [hnil, this]
  · cases fromClaude with
    | true => simp [hnil, (h.claude id hnil).1]
    | false =>
      by_cases hclaude : named (true, id) read = []
      · simp [hnil, hclaude, h.other id hclaude hnil]
      · simp [hnil, hclaude, (h.claude id hclaude).2]

theorem Booked.mem_ids (h : Booked read kept) (id : Key) :
    id ∈ kept.map (·.id) ↔ (∃ usage ∈ read, usage.namesResponse = false ∧ usage.id = id) ∨
      ∃ fromClaude, (named (fromClaude, id) kept).length ≠ 0 := by
  have hunmerged : ∀ usage, usage ∈ kept ∧ usage.namesResponse = false ↔
      usage ∈ read ∧ usage.namesResponse = false := by
    intro usage
    have := congrArg (usage ∈ ·) h.unmerged
    simpa [mem_filter] using this
  have hnamed : ∀ fromClaude, (named (fromClaude, id) kept).length ≠ 0 ↔
      ∃ usage ∈ kept, usage.namesResponse = true ∧ usage.group = (fromClaude, id) := by
    intro fromClaude
    rw [ne_eq, length_eq_zero_iff, ← ne_eq, named_ne_nil]
  constructor
  · intro hid
    obtain ⟨usage, hmem, rfl⟩ := mem_map.mp hid
    cases hnames : usage.namesResponse with
    | false => exact .inl ⟨usage, ((hunmerged usage).mp ⟨hmem, hnames⟩).1, hnames, rfl⟩
    | true => exact .inr ⟨usage.fromClaude, (hnamed _).mpr ⟨usage, hmem, hnames, rfl⟩⟩
  · rintro (⟨usage, hmem, hnames, rfl⟩ | ⟨fromClaude, hlength⟩)
    · exact mem_map.mpr ⟨usage, ((hunmerged usage).mpr ⟨hmem, hnames⟩).1, rfl⟩
    · obtain ⟨usage, hmem, -, hgroup⟩ := (hnamed fromClaude).mp hlength
      exact mem_map.mpr ⟨usage, hmem, (Prod.mk.inj hgroup).2⟩

/-- **What is booked once does not depend on the order.** -/
theorem Booked.same {kept' : List ReadUsage} (h : Booked read kept)
    (h' : Booked read' kept') (hperm : read'.Perm read) : SameBookings kept kept' := by
  have hnil : ∀ group, named group read' = [] ↔ named group read = [] := fun group => by
    rw [← length_eq_zero_iff, (named_perm hperm group).length_eq, length_eq_zero_iff]
  have hlength : ∀ group, (named group kept).length = (named group kept').length := fun group => by
    rw [h.length_named, h'.length_named]
    exact if_congr (by rw [hnil, ne_eq, ne_eq, hnil]) rfl rfl
  have hranks : ∀ group, (named group kept).map (·.rank) = (named group kept').map (·.rank) := by
    intro group
    have hle := h.atMostOne group
    have hmem : ∀ {usage}, usage ∈ named group kept → usage ∈ named group read' := fun hu =>
      (named_perm hperm group).mem_iff.mpr ((h.named_sublist group).subset hu)
    have hmem' : ∀ {usage}, usage ∈ named group kept' → usage ∈ named group read := fun hu =>
      (named_perm hperm group).mem_iff.mp ((h'.named_sublist group).subset hu)
    cases hkept : named group kept with
    | nil =>
      have := hlength group
      rw [hkept, length_nil] at this
      rw [length_eq_zero_iff.mp this.symm]
    | cons usage rest =>
      have hrest : rest = [] := by
        rw [hkept, length_cons] at hle
        exact length_eq_zero_iff.mp (by omega)
      subst hrest
      have hone := hlength group
      rw [hkept, length_singleton] at hone
      obtain ⟨usage', hkept'⟩ := length_eq_one_iff.mp hone.symm
      have husage : usage ∈ named group kept := by simp [hkept]
      have husage' : usage' ∈ named group kept' := by simp [hkept']
      rw [hkept', map_singleton, map_singleton, singleton_inj]
      exact le_antisymm (h'.greatest group usage' husage' usage (hmem husage))
        (h.greatest group usage husage usage' (hmem' husage'))
  refine ⟨fun id => ?_, hranks⟩
  rw [h.mem_ids, h'.mem_ids]
  refine or_congr (exists_congr fun usage => ?_) (exists_congr fun fromClaude => ?_)
  · rw [hperm.mem_iff]
  · rw [hlength]

theorem keptApart_perm (h : KeptApart read) (hperm : read'.Perm read) : KeptApart read' := by
  have hne : ∀ group, named group read' ≠ [] ↔ named group read ≠ [] := fun group => by
    simp only [named_ne_nil, hperm.mem_iff]
  intro id hid hother
  have hmem : id ∈ claudeIds read := by
    obtain ⟨usage, husage, hclaude⟩ := mem_claudeIds.mp hid
    exact mem_claudeIds.mpr ⟨usage, hperm.mem_iff.mp husage, hclaude⟩
  exact (hne _).mpr (h id hmem ((hne _).mp hother))

theorem named_bookings_of_claudeId (h : id ∈ claudeIds read) :
    named (false, id) (bookings read) = [] := by
  rcases named_bookings_cases read (false, id) with ⟨hnil, -⟩ | ⟨usage, -, -, heligible, hgroup, -⟩
  · exact hnil
  · exact absurd h (not_mem_claudeIds heligible hgroup)

/-- How many events of other libraries have the id. -/
def othersOf (id : Key) (l : List ReadUsage) : ℕ :=
  l.countP fun usage => !usage.fromClaude && usage.id = id

theorem othersOf_congr {l' : List ReadUsage} (id : Key) (h : l.map (·.pair) = l'.map (·.pair)) :
    othersOf id l = othersOf id l' := by
  have hpair : ∀ l : List ReadUsage, othersOf id l = (l.map (·.pair)).countP fun pair =>
      !decide (pair.1 = claudeSource) && decide (pair.2.sourceEventId = id) := by
    intro l
    rw [countP_map]
    rfl
  rw [hpair, hpair, h]

theorem othersOf_eq (id : Key) (l : List ReadUsage) : othersOf id l =
      othersOf id (l.filter (!·.namesResponse)) + (named (false, id) l).length := by
  induction l with
  | nil => rfl
  | cons usage l ih =>
    have hgroup : (usage.group = (false, id)) ↔ (usage.fromClaude = false ∧ usage.id = id) := by
      rw [ReadUsage.group, Prod.mk.injEq]
    rw [othersOf, named] at ih ⊢
    rw [othersOf] at ih ⊢
    cases hnames : usage.namesResponse <;> cases hclaude : usage.fromClaude <;>
      by_cases hid : usage.id = id <;>
      simp [hnames, hclaude, hid, hgroup, ih] <;> omega

/-- **Booked once, in any order, exactly when the ids are kept apart.** -/
theorem one_booking_iff (read : List ReadUsage) : OneBooking read ↔ KeptApart read := by
  constructor
  · intro h id hid hother hnone
    obtain ⟨kept, -, hpairs, hbooked, -⟩ := h read (List.Perm.refl read)
    have hcount := othersOf_congr id hpairs
    rw [othersOf_eq, othersOf_eq id kept, bookings_unmerged, hbooked.unmerged,
      named_bookings_of_claudeId hid, hbooked.other id hnone hother] at hcount
    simp at hcount
  · intro h read' hperm
    have h' := keptApart_perm h hperm
    exact ⟨bookings read, bookings read', rfl, booked_of_keptApart h, rfl, booked_of_keptApart h',
      (booked_of_keptApart h).same (booked_of_keptApart h') hperm⟩

/-- Another library names a response by the id a Claude event that names none has of its span. -/
def bothWays : List ReadUsage :=
  let event : ExternalUsageEvent :=
    { sourceEventId := "00f067aa0ba902b7".toList, timestamp := 0
      provider := "anthropic".toList, model := "claude-sonnet-4-5".toList, inputTokens := 10
      provider_ne := by decide }
  [{ source := "otel".toList, event, spanKey := ("t1".toList, "00f067aa0ba902b8".toList) },
    { source := claudeSource, event, spanKey := ("t2".toList, "00f067aa0ba902b7".toList)
      namesResponse := false }]

theorem bothWays_not_oneBooking : ¬ OneBooking bothWays := by
  intro h
  obtain ⟨kept, -, hpairs, hbooked, -⟩ := h bothWays (List.Perm.refl bothWays)
  have hcount := othersOf_congr "00f067aa0ba902b7".toList hpairs
  rw [othersOf_eq, othersOf_eq _ kept, bookings_unmerged, hbooked.unmerged,
    hbooked.other _ (by decide) (by decide)] at hcount
  revert hcount
  decide

end Otari.Usage
