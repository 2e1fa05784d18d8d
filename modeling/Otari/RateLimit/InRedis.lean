import Otari.RateLimit.InProcess

/-!
# Rate limit — In Redis — the scripts answer as the ledger

In Redis a window is a sorted set and a hash with a running total, each with an expiry of its own,
and a script's numbers are doubles.  `LogShows` and `LeasesShow` say what the keys of one limit have
kept of the ledger; within the range where doubles are exact every script preserves them, and the
answers are the ledger's (`redis_step`).
-/

namespace Otari.RateLimit
open Expiry Function List

variable {uuid : ℕ → Handle} {width : Key → ℚ} {T now : ℤ} {w : ℚ} {handed : ℕ → Option Handle}
  {kept : List (Entry ℕ)} {log : Expiring Zset} {cost : Expiring Hash} {k : RedisKey}

/-! ### Numbers a double holds -/

theorem toDouble_eq {n : ℤ} (h : |n| ≤ 2 ^ 53) : toDouble n = n := by
  rw [toDouble, if_pos]
  have := Int.natCast_natAbs n
  omega

theorem integerArg_eq {n : ℤ} (h : |n| ≤ 2 ^ 53) : integerArg n = some n := by
  rw [integerArg, if_pos]
  have := Int.natCast_natAbs n
  omega

def size (es : List (Entry ℕ)) : ℤ := (es.map fun e => |e.cost|).sum

theorem abs_spent_le (es : List (Entry ℕ)) : |spent es| ≤ size es :=
  abs_sum_le _

variable {es : List (Entry ℕ)}

theorem size_le {fs : List (Entry ℕ)} (h : es.Sublist fs) : size es ≤ size fs :=
  sum_abs_le_of_sublist h

theorem abs_cost_le {e : Entry ℕ} (he : e ∈ es) : |e.cost| ≤ size es := by
  have := size_le (singleton_sublist.mpr he)
  simpa [size] using this

theorem size_cons (e : Entry ℕ) (es : List (Entry ℕ)) : size (e :: es) = |e.cost| + size es := by
  rw [size, size, map_cons, sum_cons]

theorem size_nonneg (es : List (Entry ℕ)) : 0 ≤ size es :=
  (abs_nonneg _).trans (abs_spent_le es)

theorem size_recost (entry : ℕ) (cost : ℤ) (hnodup : (es.map Entry.handle).Nodup) :
    size (es.map (recost entry cost)) ≤ size es + |cost| := by
  induction es with
  | nil => exact (zero_add |cost|).symm ▸ abs_nonneg cost
  | cons e es ih =>
    obtain ⟨hnot, hnodup⟩ := nodup_cons.mp hnodup
    rw [map_cons, size_cons, size_cons]
    by_cases heq : e.handle = entry
    · have hrest : es.map (recost entry cost) = es := by
        refine recost_eq_self fun e' he' heq' => hnot ?_
        exact heq.trans heq'.symm ▸ mem_map_of_mem he'
      have := abs_nonneg e.cost
      rw [hrest, recost, if_pos heq]
      dsimp only
      omega
    · have := ih hnodup
      rw [recost, if_neg heq]
      omega

/-! ### What the keys show -/

/-- The log and cost keys show these entries, and expire only once all of them have left the
window. -/
structure LogShows (handed : ℕ → Option Handle) (w : ℚ) (kept : List (Entry ℕ))
    (log : Expiring Zset) (cost : Expiring Hash) : Prop where
  members : log.value = kept.map fun e => (name handed e.handle, e.time)
  costs : ∀ e ∈ kept, cost.value (name handed e.handle) = some e.cost
  rest : ∀ field, field ≠ totalField → (∀ e ∈ kept, name handed e.handle ≠ field) →
    cost.value field = none
  total : (cost.value totalField).getD 0 = spent kept
  together : kept ≠ [] → log.expiresAt = cost.expiresAt
  expires : ∀ t, cost.expiresAt = some t → ∀ e ∈ kept, leaves w e ≤ t

theorem LogShows.none : LogShows handed w [] noZset noHash where
  members := rfl
  costs _ h := by cases h
  rest _ _ _ := rfl
  total := rfl
  together h := absurd rfl h
  expires _ h := by cases h

theorem LogShows.at (h : LogShows handed w kept log cost)
    (hkept : Keeps (leaves w) T es kept) (hT : T ≤ now) : ∃ kept', Keeps (leaves w) now es kept'
      ∧ LogShows handed w kept' (noZset.at now log) (noHash.at now cost) := by
  by_cases hdead : cost.expiresAt.any (· ≤ now)
  · obtain ⟨t, ht, hle⟩ : ∃ t, cost.expiresAt = some t ∧ t ≤ now := by
      cases hexp : cost.expiresAt with
      | none => rw [hexp] at hdead; cases hdead
      | some t => exact ⟨t, rfl, by simpa [hexp] using hdead⟩
    refine ⟨[], hkept.nil hT fun e he => (h.expires t ht e he).trans hle, ?_⟩
    have hlog : (noZset.at now log).value = [] := by
      by_cases hnil : kept = []
      · have hvalue : log.value = [] := by rw [h.members, hnil]; rfl
        unfold Expiring.at
        split
        · rfl
        · exact hvalue
      · rw [Expiring.at, if_pos (by rw [h.together hnil]; exact hdead)]
        rfl
    have hcost : noHash.at now cost = noHash := if_pos hdead
    rw [hcost]
    exact { LogShows.none with members := hlog, together := fun hne => absurd rfl hne }
  · have hcost : noHash.at now cost = cost := if_neg hdead
    rw [hcost]
    refine ⟨kept, hkept.mono hT, ?_⟩
    by_cases hnil : kept = []
    · have hvalue : log.value = [] := by rw [h.members, hnil]; rfl
      refine { h with members := ?_, together := fun hne => absurd hnil hne }
      rw [hnil]
      unfold Expiring.at
      split
      · rfl
      · exact hvalue
    · have hlog : noZset.at now log = log := if_neg (by rw [h.together hnil]; exact hdead)
      rw [hlog]
      exact h

/-! ### The hit script -/

/-- The names of these entries are told apart, and none is the running total's. -/
structure Distinct (handed : ℕ → Option Handle) (kept : List (Entry ℕ)) : Prop where
  nodup : (kept.map fun e => name handed e.handle).Nodup
  field : ∀ e ∈ kept, name handed e.handle ≠ totalField

theorem Distinct.sublist {kept' : List (Entry ℕ)} (h : Distinct handed kept)
    (hsub : kept'.Sublist kept) : Distinct handed kept' :=
  ⟨h.nodup.sublist (hsub.map _), fun e he => h.field e (hsub.subset he)⟩

theorem free_eq {gone : List (Entry ℕ)} (freed : ℤ) (hash : Hash)
    (hnodup : (gone.map fun e => name handed e.handle).Nodup)
    (hcosts : ∀ e ∈ gone, hash (name handed e.handle) = some e.cost)
    (hsize : |freed| + size gone ≤ 2 ^ 53) :
    free (gone.map fun e => name handed e.handle) freed hash = (freed + spent gone,
          fun field => if field ∈ gone.map (fun e => name handed e.handle) then none
            else hash field) := by
  induction gone generalizing freed hash with
  | nil => simp [free]
  | cons e gone ih =>
    rw [map_cons, nodup_cons] at hnodup
    have hsize' := size_cons e gone
    have hnonneg := size_nonneg gone
    have hcost : hash.get (name handed e.handle) = e.cost := by
      rw [Hash.get, hcosts e mem_cons_self, Option.getD_some]
      refine toDouble_eq ?_
      have := abs_nonneg freed
      omega
    have hsum : |freed + e.cost| ≤ |freed| + |e.cost| := abs_add_le _ _
    rw [map_cons, free, hcost, toDouble_eq (by omega), ih _ _ hnodup.2 ?_ (by omega),
      spent_cons, add_assoc]
    · refine Prod.ext rfl (funext fun field => ?_)
      by_cases hfield : field = name handed e.handle
      · subst hfield
        simp
      · simp [hfield]
    · intro e' he'
      rw [update_of_ne]
      · exact hcosts e' (mem_cons_of_mem _ he')
      · exact fun heq => hnodup.1 (heq ▸ mem_map_of_mem he')

theorem hincrby_eq (delta : ℤ) (cost : Expiring Hash) (hdelta : |delta| ≤ 2 ^ 53)
    (htotal : |(cost.value totalField).getD 0 + delta| ≤ 2 ^ 53) : hincrby delta cost = some
      ⟨update cost.value totalField (some ((cost.value totalField).getD 0 + delta)),
        cost.expiresAt⟩ := by
  rw [hincrby, integerArg_eq hdelta, Option.bind_some]
  simp only
  rw [if_pos]
  have := abs_le.mp htotal
  omega

variable {gone : Handle × ℤ → Bool} {z : Expiring Zset}

@[simp] theorem zrem_value : (zrem gone z).value = z.value.filter fun m => !gone m := by
  simp only [zrem]
  split
  next hnil => exact hnil.symm
  next => rfl

theorem zrem_expiresAt
    (h : z.value.filter (fun m => !gone m) ≠ []) : (zrem gone z).expiresAt = z.expiresAt := by
  simp only [zrem]
  rw [if_neg h]

theorem freeExpired_eq (h : LogShows handed w kept k.log k.cost) (hdistinct : Distinct handed kept)
    (hsize : size kept ≤ 2 ^ 53) (hcutoff : |now - ⌈w⌉| ≤ 2 ^ 53) :
    ∃ k', freeExpired now ⌈w⌉ k = .ok k' ∧ k'.leases = k.leases
      ∧ LogShows handed w (live (leaves w) now kept) k'.log k'.cost := by
  have hgone : k.log.value.filter (fun m => m.2 ≤ now - ⌈w⌉)
      = (kept.filter fun e => leaves w e ≤ now).map fun e => (name handed e.handle, e.time) := by
    rw [h.members, filter_map]
    refine congrArg _ (filter_congr fun e _ => ?_)
    rw [comp_apply, decide_eq_decide, leaves, ← le_sub_iff_add_le]
  rw [freeExpired, toDouble_eq hcutoff]
  simp only [hgone, map_eq_nil_iff]
  -- where no entry has left the window the script returns before it writes
  split
  next hnone =>
      have hlive : live (leaves w) now kept = kept := by
        refine filter_eq_self.mpr fun e he => decide_eq_true ?_
        have := filter_eq_nil_iff.mp hnone e he
        simpa using this
      exact ⟨k, rfl, rfl, by rw [hlive]; exact h⟩
  next hsome =>
      have hsub : (kept.filter fun e => leaves w e ≤ now).Sublist kept := filter_sublist
      have hsplit := sum_live_add (leaves w) now kept Entry.cost
      have hsizes := size_le hsub
      have hlivesub : (live (leaves w) now kept).Sublist kept := live_sublist
      have hlivesize := (abs_spent_le _).trans (size_le hlivesub)
      have hfree := free_eq 0 k.cost.value (hdistinct.sublist hsub).nodup
        (fun e he => h.costs e (hsub.subset he)) (by rw [abs_zero]; omega)
      rw [zero_add] at hfree
      have hnames : (List.map Prod.fst ((kept.filter fun e => leaves w e ≤ now).map
            fun e => (name handed e.handle, e.time)))
          = (kept.filter fun e => leaves w e ≤ now).map fun e => name handed e.handle := by
        rw [map_map]
        rfl
      have hfield : totalField ∉ (kept.filter fun e => leaves w e ≤ now).map
          fun e => name handed e.handle := by
        rintro hmem
        obtain ⟨e, he, heq⟩ := mem_map.mp hmem
        exact hdistinct.field e (hsub.subset he) heq
      -- the hash loses the fields of the entries that left, and its total their costs
      have htotal : (((fun field => if field ∈ (kept.filter fun e => leaves w e ≤ now).map
            (fun e => name handed e.handle) then none else k.cost.value field)
              totalField : Option ℤ)
          ).getD 0 + -spent (kept.filter fun e => leaves w e ≤ now)
          = spent (live (leaves w) now kept) := by
        simp only [if_neg hfield, h.total]
        exact add_neg_eq_of_eq_add hsplit.symm
      have hincr := hincrby_eq (-spent (kept.filter fun e => leaves w e ≤ now)) ⟨fun field =>
          if field ∈ (kept.filter fun e => leaves w e ≤ now).map (fun e => name handed e.handle)
          then none else k.cost.value field, k.cost.expiresAt⟩
        (by rw [abs_neg]; exact ((abs_spent_le _).trans hsizes).trans hsize)
        (by rw [htotal]; exact hlivesize.trans hsize)
      rw [htotal] at hincr
      simp only [hnames, hfree, hincr]
      refine ⟨_, rfl, rfl, ?_⟩
      have hkeep : k.log.value.filter (fun m => !decide (m.2 ≤ now - ⌈w⌉))
          = (live (leaves w) now kept).map fun e => (name handed e.handle, e.time) := by
        rw [h.members, filter_map]
        refine congrArg _ (filter_congr fun e _ => ?_)
        rw [comp_apply, ← decide_not, decide_eq_decide, leaves, not_le, sub_lt_iff_lt_add]
      refine ⟨zrem_value.trans hkeep, fun e he => ?_, fun field hne hrest => ?_, ?_, fun hne => ?_,
        fun t ht e he => h.expires t ht e (live_sublist.subset he)⟩
      · have hmem := live_sublist.subset he
        dsimp only
        rw [update_of_ne (hdistinct.field e hmem), if_neg, h.costs e hmem]
        intro hgone
        obtain ⟨e', he', heq⟩ := mem_map.mp hgone
        obtain ⟨hmem', hle⟩ := mem_filter.mp he'
        have hsame := inj_on_of_nodup_map hdistinct.nodup hmem' hmem heq
        rw [hsame, decide_eq_true_eq] at hle
        exact absurd (mem_live.mp he).2 (not_lt.mpr hle)
      · dsimp only
        rw [update_of_ne hne]
        split_ifs with hgone
        · rfl
        · refine h.rest field hne fun e he heq => ?_
          by_cases hle : leaves w e ≤ now
          · exact hgone (heq ▸ mem_map_of_mem (mem_filter.mpr ⟨he, decide_eq_true hle⟩))
          · exact hrest e (mem_live.mpr ⟨he, not_le.mp hle⟩) heq
      · dsimp only
        rw [update_self]
        rfl
      · refine (zrem_expiresAt ?_).trans (h.together ?_)
        · rw [hkeep]
          exact fun hnil => hne (map_eq_nil_iff.mp hnil)
        · rintro rfl
          exact hne rfl

theorem LogShows.get_total (h : LogShows handed w kept log cost) (hsize : size kept ≤ 2 ^ 53) :
    cost.value.get totalField = spent kept := by
  rw [Hash.get, h.total]
  exact toDouble_eq ((abs_spent_le kept).trans hsize)

theorem zadd_new {member : Handle} {score : ℤ} (hnew : ∀ m ∈ z.value, m.1 ≠ member) :
    zadd score member z = ⟨z.value ++ [(member, score)], z.expiresAt⟩ := by
  rw [zadd, filter_eq_self.mpr fun m hm => decide_eq_true (hnew m hm)]

variable {handle : Handle} {n : ℕ} {limit cost' : ℤ}

theorem countEntry_eq (h : LogShows handed w kept k.log k.cost) (hdistinct : Distinct handed kept)
    (htime : ∀ e ∈ kept, e.time ≤ now)
    (hfresh : ∀ e ∈ kept, e.handle ≠ n ∧ name handed e.handle ≠ handle)
    (hfield : handle ≠ totalField) (hsize : size kept + |cost'| ≤ 2 ^ 53) (hw : |⌈w⌉| ≤ 2 ^ 53)
    (hfits : spent kept + cost' ≤ limit) :
    ∃ k', countEntry now limit ⌈w⌉ cost' handle k = .ok (true, spent kept + cost', k')
      ∧ k'.leases = k.leases ∧ LogShows (update handed n (some handle)) w
        (if ⌈w⌉ ≤ 0 then [] else kept ++ [⟨now, n, cost'⟩]) k'.log k'.cost := by
  have hkept := abs_spent_le kept
  have hsum : |spent kept + cost'| ≤ |spent kept| + |cost'| := abs_add_le _ _
  have hnonneg := abs_nonneg cost'
  have hnonneg' := abs_nonneg (spent kept)
  have hzadd : zadd now handle k.log = ⟨k.log.value ++ [(handle, now)], k.log.expiresAt⟩ := by
    refine zadd_new fun m hm => ?_
    rw [h.members] at hm
    obtain ⟨e, he, rfl⟩ := mem_map.mp hm
    exact (hfresh e he).2
  have hincr := hincrby_eq cost'
    ⟨update k.cost.value handle (some cost'), k.cost.expiresAt⟩ (by omega)
    (by simp only [update_of_ne hfield.symm, h.total]; omega)
  simp only [update_of_ne hfield.symm, h.total] at hincr
  rw [countEntry, h.get_total (by omega), toDouble_eq (by omega)]
  simp only [if_pos hfits, hzadd, hincr, integerArg_eq hw, Hash.get, update_self,
    Option.getD_some]
  rw [toDouble_eq (by omega)]
  refine ⟨_, rfl, rfl, ?_⟩
  simp only [pexpire]
  by_cases hle : ⌈w⌉ ≤ 0
  · simp only [if_pos hle]
    exact LogShows.none
  · simp only [if_neg hle]
    have hname : ∀ e ∈ kept, name (update handed n (some handle)) e.handle
        = name handed e.handle := fun e he => name_update (hfresh e he).1
    refine ⟨?_, fun e he => ?_, fun field hne hrest => ?_, ?_, fun _ => rfl, fun t ht e he => ?_⟩
    · rw [h.members, map_append]
      refine congrArg₂ _ (map_congr_left fun e he => ?_) ?_
      · rw [hname e he]
      · simp
    · dsimp only
      rcases mem_append.mp he with he | he
      · rw [hname e he, update_of_ne (hdistinct.field e he),
          update_of_ne (hfresh e he).2, h.costs e he]
      · rw [mem_singleton.mp he, name_update_self, update_of_ne hfield,
          update_self]
    · dsimp only
      rw [update_of_ne hne, update_of_ne]
      · refine h.rest field hne fun e he => ?_
        rw [← hname e he]
        exact hrest e (mem_append_left _ he)
      · rintro rfl
        exact hrest _ (mem_append_right _ (mem_singleton.mpr rfl)) name_update_self
    · dsimp only
      rw [update_self, Option.getD_some, spent_append, spent_cons, spent_nil, add_zero]
    · cases ht
      rcases mem_append.mp he with he | he
      · exact add_le_add_left (htime e he) _
      · rw [mem_singleton.mp he]
        exact le_refl _

theorem lowest_eq (hsorted : kept.Pairwise fun a b => a.time ≤ b.time) :
    lowest (kept.map fun e => (name handed e.handle, e.time)) = kept.head?.map Entry.time := by
  rw [lowest, map_map]
  have htimes : (kept.map Entry.time).Pairwise fun a b => min a b = a := by
    rw [pairwise_map]
    exact hsorted.imp fun h => min_eq_left h
  refine Eq.trans ?_ List.head?_map
  exact List.min?_eq_head? htimes

theorem reset_eq (h : LogShows handed w kept log cost)
    (hsorted : kept.Pairwise fun a b => a.time ≤ b.time) (htime : ∀ e ∈ kept, |e.time| ≤ 2 ^ 51)
    (hw : |⌈w⌉| ≤ 2 ^ 51) (hnow : |now| ≤ 2 ^ 51) :
    reset now ⌈w⌉ (lowest log.value) = resetAfter now w kept := by
  rw [h.members, lowest_eq hsorted]
  cases kept with
  | nil => rfl
  | cons e kept =>
    have he := htime e mem_cons_self
    have hadd : |e.time + ⌈w⌉| ≤ |e.time| + |⌈w⌉| := abs_add_le _ _
    have hsub : |e.time + ⌈w⌉ - now| ≤ |e.time + ⌈w⌉| + |now| := abs_sub _ _
    rw [List.head?_cons, Option.map_some, reset,
      toDouble_eq (by omega : |e.time + ⌈w⌉| ≤ 2 ^ 53), toDouble_eq (by omega), resetAfter]

/-- The hit script on keys that show what is live, or was: its answer is the ledger's, and so is
what the keys show after it. -/
theorem hitScript_eq (h : LogShows handed w kept k.log k.cost)
    (hkept : Keeps (leaves w) T es kept) (hT : T ≤ now) (hdistinct : Distinct handed es)
    (hsorted : es.Pairwise fun a b => a.time ≤ b.time)
    (htime : ∀ e ∈ es, e.time ≤ now ∧ |e.time| ≤ 2 ^ 51)
    (hfresh : ∀ e ∈ es, e.handle ≠ n ∧ name handed e.handle ≠ handle)
    (hfield : handle ≠ totalField) (hsize : size es + |cost'| ≤ 2 ^ 53) (hw : |⌈w⌉| ≤ 2 ^ 51)
    (hnow : |now| ≤ 2 ^ 51) (hlimit : |limit| ≤ 2 ^ 53) : ∃ k', k'.leases = noZset.at now k.leases
      ∧ if spent (live (leaves w) now es) + cost' ≤ limit then
          hitScript now limit ⌈w⌉ cost' handle k
              = (some (true, spent (live (leaves w) now es) + cost',
                  resetAfter now w (live (leaves w) now es ++ [⟨now, n, cost'⟩])), k')
            ∧ ∃ kept', Keeps (leaves w) now (es ++ [⟨now, n, cost'⟩]) kept'
              ∧ LogShows (update handed n (some handle)) w kept' k'.log k'.cost else
          hitScript now limit ⌈w⌉ cost' handle k = (some (false, spent (live (leaves w) now es),
                  resetAfter now w (live (leaves w) now es)), k')
            ∧ ∃ kept', Keeps (leaves w) now es kept' ∧ LogShows handed w kept' k'.log k'.cost := by
  obtain ⟨kept₁, hkept₁, hat⟩ := h.at hkept hT
  have hlive : live (leaves w) now kept₁ = live (leaves w) now es := hkept₁.same now (le_refl _)
  have hsize₁ := size_le hkept₁.sub
  have hnonneg := abs_nonneg cost'
  have hwindow : |now - ⌈w⌉| ≤ |now| + |⌈w⌉| := abs_sub _ _
  obtain ⟨k₁, hfree, hleases, hshows⟩ := freeExpired_eq (k := k.at now) hat
    (hdistinct.sublist hkept₁.sub) (by omega) (by omega : |now - ⌈w⌉| ≤ 2 ^ 53)
  rw [hlive] at hshows
  have hsub : (live (leaves w) now es).Sublist es := live_sublist
  have hsize₂ := size_le hsub
  have hempty := size_nonneg es
  have hargs : toDouble limit = limit ∧ toDouble ⌈w⌉ = ⌈w⌉ ∧ toDouble cost' = cost' :=
    ⟨toDouble_eq hlimit, toDouble_eq (by omega), toDouble_eq (by omega)⟩
  -- the entry is counted, or the script ends once it has read the total
  by_cases hfits : spent (live (leaves w) now es) + cost' ≤ limit
  · obtain ⟨k₂, hcount, hleases₂, hshows₂⟩ := countEntry_eq hshows (hdistinct.sublist hsub)
      (fun e he => (htime e (hsub.subset he)).1) (fun e he => hfresh e (hsub.subset he)) hfield
      (by omega) (by omega) hfits
    refine ⟨k₂, hleases₂.trans hleases, ?_⟩
    simp only [hitScript, hargs, hfree, hcount, if_pos hfits]
    -- a window of no length drops both keys at once, and then no entry is lowest
    have hreset : reset now ⌈w⌉ (lowest k₂.log.value)
        = resetAfter now w (live (leaves w) now es ++ [⟨now, n, cost'⟩]) := by
      by_cases hle : ⌈w⌉ ≤ 0
      · rw [if_pos hle] at hshows₂
        have hnil : live (leaves w) now es = [] :=
          live_eq_nil fun e he => by rw [leaves]; have := (htime e he).1; omega
        rw [hshows₂.members, hnil]
        simp [lowest, reset, resetAfter]
      · rw [if_neg hle] at hshows₂
        refine reset_eq hshows₂ ?_ (fun e he => ?_) hw hnow
        · refine pairwise_append.mpr ⟨hsorted.sublist hsub, pairwise_singleton _ _, ?_⟩
          intro a ha b hb
          rw [mem_singleton.mp hb]
          exact (htime a (hsub.subset ha)).1
        · rcases mem_append.mp he with he | he
          · exact (htime e (hsub.subset he)).2
          · rw [mem_singleton.mp he]
            exact hnow
    refine ⟨by rw [hreset], _, ?_, hshows₂⟩
    split_ifs with hle
    · refine ((Keeps.current (leaves w) now es).append _).nil (le_refl _) fun e he => ?_
      rcases mem_append.mp he with he | he
      · have := (htime e (hsub.subset he)).1
        rw [leaves]
        omega
      · rw [mem_singleton.mp he, leaves]
        dsimp only
        omega
    · exact (Keeps.current (leaves w) now es).append _
  · have hcount : countEntry now limit ⌈w⌉ cost' handle k₁
        = .ok (false, spent (live (leaves w) now es), k₁) := by
      have hspent := abs_spent_le (live (leaves w) now es)
      have hsum : |spent (live (leaves w) now es) + cost'|
          ≤ |spent (live (leaves w) now es)| + |cost'| := abs_add_le _ _
      rw [countEntry, hshows.get_total (by omega), toDouble_eq (by omega)]
      simp only [if_neg hfits]
    refine ⟨k₁, hleases, ?_⟩
    simp only [hitScript, hargs, hfree, hcount, if_neg hfits]
    rw [reset_eq hshows (hsorted.sublist hsub)
      (fun e he => (htime e (hsub.subset he)).2) hw hnow]
    exact ⟨rfl, _, Keeps.current _ now es, hshows⟩

/-! ### The settle script -/

variable {own : ℕ → Option ℕ} {entry : ℕ}

theorem settleScript_eq (h : LogShows handed w kept k.log k.cost)
    (hkept : Keeps (leaves w) T es kept) (hT : T ≤ now) (hdistinct : Distinct handed es)
    (htables : SameTables own handed) (hentry : handed entry = some handle)
    (hes : ∀ e ∈ es, own e.handle = some e.handle) (hnodup : (es.map Entry.handle).Nodup)
    (hfield : handle ≠ totalField) (hsize : size es + |cost'| ≤ 2 ^ 53) :
    ∃ k', settleScript now handle cost' k = (some (), k') ∧ k'.leases = noZset.at now k.leases
      ∧ ∃ kept', Keeps (leaves w) now (es.map (recost entry cost')) kept'
        ∧ LogShows handed w kept' k'.log k'.cost := by
  obtain ⟨kept₁, hkept₁, hat⟩ := h.at hkept hT
  have hkept' := hkept₁.map (f := recost entry cost') fun e => leaves_recost e
  have hown : own entry = some entry := by rw [htables.own_eq, hentry]; rfl
  have hname : name handed entry = handle := by rw [name, hentry]; rfl
  have hnames : ∀ e ∈ kept₁, name handed e.handle = handle ↔ e.handle = entry := by
    intro e he
    rw [← hname]
    exact htables.name_inj (hes e (hkept₁.sub.subset he)) hown
  by_cases hfound : ∃ e ∈ kept₁, e.handle = entry
  · obtain ⟨e, he, heq⟩ := hfound
    have hold : (noHash.at now k.cost).value handle = some e.cost := by
      rw [← (hnames e he).mpr heq]
      exact hat.costs e he
    have hnodup₁ := hnodup.sublist (hkept₁.sub.map _)
    have hsize₁ := size_le hkept₁.sub
    have hecost := abs_cost_le he
    have hnonneg := abs_nonneg cost'
    have hpos := abs_nonneg e.cost
    have hdiff : |cost' - e.cost| ≤ |cost'| + |e.cost| := abs_sub _ _
    have hspent := spent_recost cost' hnodup₁ he heq
    have hrecost := (abs_spent_le _).trans (size_recost entry cost' hnodup₁)
    rw [hspent] at hrecost
    have hincr := hincrby_eq (cost' - e.cost)
      ⟨update (noHash.at now k.cost).value handle (some cost'),
        (noHash.at now k.cost).expiresAt⟩ (by omega)
      (by simp only [update_of_ne hfield.symm, hat.total]; omega)
    simp only [update_of_ne hfield.symm, hat.total] at hincr
    have hdelta : toDouble (toDouble cost' - toDouble e.cost) = cost' - e.cost := by
      rw [toDouble_eq (by omega : |cost'| ≤ 2 ^ 53), toDouble_eq (by omega : |e.cost| ≤ 2 ^ 53),
        toDouble_eq (by omega)]
    simp only [settleScript, RedisKey.at, hold, hdelta, hincr]
    refine ⟨_, rfl, rfl, _, hkept', ?_⟩
    refine ⟨?_, fun x hx => ?_, fun field hne hrest => ?_, ?_, fun hne => ?_, fun t ht x hx => ?_⟩
    · rw [hat.members, map_map]
      refine map_congr_left fun x _ => ?_
      rw [comp_apply, handle_recost, time_recost]
    · obtain ⟨y, hy, rfl⟩ := mem_map.mp hx
      dsimp only
      rw [handle_recost, update_of_ne (hdistinct.field y (hkept₁.sub.subset hy)), recost]
      by_cases hye : y.handle = entry
      · rw [(hnames y hy).mpr hye, update_self, if_pos hye]
      · rw [update_of_ne fun hn => hye ((hnames y hy).mp hn), if_neg hye]
        exact hat.costs y hy
    · dsimp only
      have hall : ∀ x ∈ kept₁, name handed x.handle ≠ field := by
        intro x hx
        have := hrest _ (mem_map_of_mem hx)
        rwa [handle_recost] at this
      rw [update_of_ne hne, update_of_ne]
      · exact hat.rest field hne hall
      · rintro rfl
        exact hall e he ((hnames e he).mpr heq)
    · dsimp only
      rw [update_self, Option.getD_some, hspent]
    · exact hat.together fun hnil => hne (by rw [hnil]; rfl)
    · obtain ⟨y, hy, rfl⟩ := mem_map.mp hx
      rw [leaves_recost]
      exact hat.expires t ht y hy
  · have hself : kept₁.map (recost entry cost') = kept₁ :=
      recost_eq_self fun e he heq => hfound ⟨e, he, heq⟩
    have hold : (noHash.at now k.cost).value handle = none :=
      hat.rest handle hfield fun e he heq => hfound ⟨e, he, (hnames e he).mp heq⟩
    rw [hself] at hkept'
    simp only [settleScript, RedisKey.at, hold]
    exact ⟨_, rfl, rfl, kept₁, hkept', hat⟩

/-! ### The slots -/

/-- The lease key shows these slots, and expires only once all of them have run out. -/
structure LeasesShow (handed : ℕ → Option Handle) (T : ℤ) (kept : List Slot)
    (leases : Expiring Zset) : Prop where
  members : leases.value = kept.map (leased handed)
  expires : ∀ t, leases.expiresAt = some t → ∀ slot ∈ kept, slot.expires ≤ t
  /-- Under a key that does not expire nothing is live. -/
  lasting : leases.expiresAt = none → ∀ slot ∈ kept, slot.expires ≤ T

variable {slots : List Slot} {held : List Slot} {leases : Expiring Zset}

theorem LeasesShow.at (h : LeasesShow handed T held leases)
    (hheld : Keeps Slot.expires T slots held) (hT : T ≤ now) :
    ∃ held', Keeps Slot.expires now slots held' ∧ LeasesShow handed now held' (noZset.at now leases)
      ∧ ∀ t, (noZset.at now leases).expiresAt = some t → now < t := by
  cases hexp : leases.expiresAt with
  | none =>
    have halive : noZset.at now leases = leases := if_neg (by simp [hexp])
    rw [halive]
    refine ⟨held, hheld.mono hT, ⟨h.members, h.expires, fun hn slot hslot => ?_⟩, ?_⟩
    · exact (h.lasting hn slot hslot).trans hT
    · rw [hexp]
      rintro t ⟨⟩
  | some t =>
    by_cases hle : t ≤ now
    · have hdead : noZset.at now leases = noZset := if_pos (by simpa [hexp] using hle)
      rw [hdead]
      refine ⟨[], hheld.nil hT fun slot hslot => (h.expires t hexp slot hslot).trans hle,
        ⟨rfl, ?_, ?_⟩, ?_⟩
      · rintro _ _ _ ⟨⟩
      · rintro _ _ ⟨⟩
      · rintro t ⟨⟩
    · have halive : noZset.at now leases = leases := if_neg (by simpa [hexp] using hle)
      rw [halive]
      refine ⟨held, hheld.mono hT, ⟨h.members, h.expires, fun hn => ?_⟩, fun t' ht' => ?_⟩
      · rw [hexp] at hn
        cases hn
      · rw [hexp] at ht'
        cases ht'
        exact not_le.mp hle

theorem LeasesShow.zrem {left : Slot → Bool} (h : LeasesShow handed T held leases)
    (hgone : ∀ slot ∈ held, (!gone (leased handed slot)) = left slot) :
    LeasesShow handed T (held.filter left) (zrem gone leases) := by
  have hvalue : leases.value.filter (fun m => !gone m)
      = (held.filter left).map (leased handed) := by
    rw [h.members, filter_map]
    exact congrArg _ (filter_congr hgone)
  have hsub : (held.filter left).Sublist held := filter_sublist
  refine ⟨zrem_value.trans hvalue, fun t ht slot hslot => ?_, fun hn slot hslot => ?_⟩
  · have hne : leases.value.filter (fun m => !gone m) ≠ [] := by
      rw [hvalue]
      exact fun hnil => ne_nil_of_mem hslot (map_eq_nil_iff.mp hnil)
    rw [zrem_expiresAt hne] at ht
    exact h.expires t ht slot (hsub.subset hslot)
  · have hne : leases.value.filter (fun m => !gone m) ≠ [] := by
      rw [hvalue]
      exact fun hnil => ne_nil_of_mem hslot (map_eq_nil_iff.mp hnil)
    rw [zrem_expiresAt hne] at hn
    exact h.lasting hn slot (hsub.subset hslot)

variable {lease : ℤ}

theorem acquireScript_eq (h : LeasesShow handed T held k.leases)
    (hheld : Keeps Slot.expires T slots held) (hT : T ≤ now)
    (hfresh : ∀ slot ∈ slots, slot.call ≠ n ∧ name handed slot.call ≠ handle)
    (hlimit : |limit| ≤ 2 ^ 53) (hnow : |now| ≤ 2 ^ 51) (hlease : |lease| ≤ 2 ^ 51) :
    ∃ k', k'.log = noZset.at now k.log ∧ k'.cost = noHash.at now k.cost
      ∧ if limit ≤ (live Slot.expires now slots).length then
          acquireScript now limit lease handle k = (some false, k')
            ∧ ∃ held', Keeps Slot.expires now slots held' ∧ LeasesShow handed now held' k'.leases
        else
          acquireScript now limit lease handle k = (some true, k')
            ∧ ∃ held', Keeps Slot.expires now (slots ++ [⟨n, limit, now + lease⟩]) held'
              ∧ LeasesShow (update handed n (some handle)) now held' k'.leases := by
  obtain ⟨held₁, hheld₁, hat, halive⟩ := h.at hheld hT
  have hlive : live Slot.expires now held₁ = live Slot.expires now slots :=
    hheld₁.same now (le_refl _)
  have hleft : LeasesShow handed now (live Slot.expires now slots)
      (zrem (fun m => m.2 ≤ now) (noZset.at now k.leases)) := by
    rw [← hlive]
    refine hat.zrem fun slot _ => ?_
    rw [← decide_not, decide_eq_decide, leased, not_le]
  have hcurrent := Keeps.current Slot.expires now slots
  obtain ⟨rest, hrest⟩ : ∃ rest, rest = zrem (fun m => m.2 ≤ now) (noZset.at now k.leases) :=
    ⟨_, rfl⟩
  rw [← hrest] at hleft
  have hlater : ∀ t, rest.expiresAt = some t → now < t := by
    intro t ht
    rw [hrest] at ht
    simp only [RateLimit.zrem] at ht
    split at ht
    · cases ht
    · exact halive t ht
  have hlength : rest.value.length = (live Slot.expires now slots).length := by
    rw [hleft.members, length_map]
  have hsum : |now + lease| ≤ |now| + |lease| := abs_add_le _ _
  have hargs : toDouble limit = limit ∧ toDouble lease = lease
      ∧ toDouble (now + lease) = now + lease :=
    ⟨toDouble_eq hlimit, toDouble_eq (by omega), toDouble_eq (by omega)⟩
  simp only [acquireScript, hargs, RedisKey.at, ← hrest, hlength]
  by_cases hfull : limit ≤ (live Slot.expires now slots).length
  · simp only [if_pos hfull]
    exact ⟨_, rfl, rfl, rfl, _, hcurrent, hleft⟩
  · simp only [if_neg hfull]
    have hzadd : zadd (now + lease) handle rest
        = ⟨rest.value ++ [(handle, now + lease)], rest.expiresAt⟩ := by
      refine zadd_new fun m hm => ?_
      rw [hleft.members] at hm
      obtain ⟨slot, hslot, rfl⟩ := mem_map.mp hm
      exact (hfresh slot (live_sublist.subset hslot)).2
    have hmembers : rest.value ++ [(handle, now + lease)]
        = (live Slot.expires now slots ++ [(⟨n, limit, now + lease⟩ : Slot)]).map
            (leased (update handed n (some handle))) := by
      rw [hleft.members, map_append,
        map_leased_update fun slot hslot => (hfresh slot (live_sublist.subset hslot)).1]
      simp [leased]
    have hgrown := hcurrent.append [(⟨n, limit, now + lease⟩ : Slot)]
    have hshow : ∀ t, (∀ slot ∈ live Slot.expires now slots, slot.expires ≤ t) → now + lease ≤ t →
        LeasesShow (update handed n (some handle)) now
          (live Slot.expires now slots ++ [⟨n, limit, now + lease⟩])
          ⟨rest.value ++ [(handle, now + lease)], some t⟩ := by
      intro t hslots hnew
      refine ⟨hmembers, fun t' ht' slot hslot => ?_, fun hn => by cases hn⟩
      cases ht'
      rcases mem_append.mp hslot with hslot | hslot
      · exact hslots slot hslot
      · rw [mem_singleton.mp hslot]
        exact hnew
    simp only [hzadd, pttl]
    cases hexp : rest.expiresAt with
    | none =>
      -- nothing is live under a key that does not expire
      have hnil : live Slot.expires now slots = [] := by
        refine eq_nil_iff_forall_not_mem.mpr fun slot hslot => ?_
        exact absurd (mem_live.mp hslot).2 (not_lt.mpr (hleft.lasting hexp slot hslot))
      have hall : lease ≤ 0 →
          ∀ slot ∈ live Slot.expires now slots ++ [(⟨n, limit, now + lease⟩ : Slot)],
            slot.expires ≤ now := by
        intro hle slot hslot
        rw [hnil, nil_append, mem_singleton] at hslot
        rw [hslot]
        dsimp only
        omega
      by_cases hlt : -1 < lease
      · simp only [if_pos hlt, integerArg_eq (by omega : |lease| ≤ 2 ^ 53), pexpire]
        by_cases hle : lease ≤ 0
        · simp only [if_pos hle]
          refine ⟨_, rfl, rfl, rfl, [], hgrown.nil (le_refl _) (hall hle), rfl, ?_, ?_⟩
          · rintro _ _ _ ⟨⟩
          · rintro _ _ ⟨⟩
        · simp only [if_neg hle]
          refine ⟨_, rfl, rfl, rfl, _, hgrown, hshow _ ?_ (le_refl _)⟩
          rw [hnil]
          rintro _ ⟨⟩
      · simp only [if_neg hlt]
        refine ⟨_, rfl, rfl, rfl, _, hgrown, hmembers, ?_, fun _ => hall (by omega)⟩
        rintro t ⟨⟩
    | some t =>
      have hlater := hlater t hexp
      have hold := hleft.expires t hexp
      by_cases hlt : t - now < lease
      · simp only [if_pos hlt, integerArg_eq (by omega : |lease| ≤ 2 ^ 53), pexpire,
          if_neg (by omega : ¬ lease ≤ 0)]
        refine ⟨_, rfl, rfl, rfl, _, hgrown, hshow _ (fun slot hslot => ?_) (le_refl _)⟩
        have := hold slot hslot
        omega
      · simp only [if_neg hlt]
        exact ⟨_, rfl, rfl, rfl, _, hgrown, hshow t hold (by omega)⟩

theorem zremLease_eq {slot : ℕ} (h : LeasesShow handed T held k.leases)
    (hheld : Keeps Slot.expires T slots held) (hT : T ≤ now) (htables : SameTables own handed)
    (hslot : handed slot = some handle) (hslots : ∀ x ∈ slots, own x.call = some x.call) :
    ∃ k', zremLease now handle k = (some (), k') ∧ k'.log = noZset.at now k.log
      ∧ k'.cost = noHash.at now k.cost
      ∧ ∃ held', Keeps Slot.expires now (slots.filter fun x => x.call ≠ slot) held'
        ∧ LeasesShow handed now held' k'.leases := by
  obtain ⟨held₁, hheld₁, hat, -⟩ := h.at hheld hT
  refine ⟨_, rfl, rfl, rfl, _, hheld₁.filter _, hat.zrem fun x hx => ?_⟩
  have hown : own slot = some slot := by rw [htables.own_eq, hslot]; rfl
  have hname : name handed slot = handle := by rw [name, hslot]; rfl
  rw [← decide_not, decide_eq_decide, leased, ← hname, not_iff_not]
  exact htables.name_inj (hslots x (hheld₁.sub.subset hx)) hown

end Otari.RateLimit
