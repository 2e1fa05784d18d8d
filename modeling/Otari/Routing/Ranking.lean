import Otari.Routing.Automatic

/-!
# Routing — Ranking — no candidate is put before one of a better class

What makes one candidate worse than another is said without the code's own tuples (`Worse`).  `rank`
sorts by a score that begins with the class, then moves the candidate a session is bound to before
the others.  What a binding must meet to lead makes its class the head's (`le_of_mayLead`), so no
candidate stands before a better one, whatever was measured.
-/

namespace Otari.Routing
open List
open Documents (get)

/-! ### Moving one element to the front -/

theorem cons_eraseP_perm {α : Type} {p : α → Bool} {l : List α} {a : α}
    (h : l.find? p = some a) : (a :: l.eraseP p).Perm l := by
  obtain ⟨ha, before, after, rfl, hbefore⟩ := List.find?_eq_some_iff_append.mp h
  rw [eraseP_append_right _ (by simpa using hbefore), eraseP_cons_of_pos ha]
  exact perm_middle.symm

section
variable (router : AutomaticRouter) (now : ℚ) (request : RankRequest)

/-! ### Worse candidates -/

def Unpriced (attempt : Attempt) : Prop := request.costs attempt.canonical = none

def CoolingDown (attempt : Attempt) : Prop :=
  ∃ health, router.healthOf (keyOf request attempt.canonical) = some health ∧ now < health.cooldown

/-- It runs on a credential that is not the caller's. -/
def NotOwn (attempt : Attempt) : Prop := attempt.canonical ∉ request.own

/-- A region is asked for, and it is not known to be there. -/
def OutOfRegion (attempt : Attempt) : Prop :=
  request.region ≠ none ∧ (hint request attempt).region ≠ request.region

/-- `a` is strictly worse than `b`: the first of the four that tells them apart is `a`'s. -/
def Worse (a b : Attempt) : Prop :=
  (Unpriced request a ∧ ¬ Unpriced request b) ∨ (Unpriced request a ↔ Unpriced request b) ∧
  ((CoolingDown router now request a ∧ ¬ CoolingDown router now request b)
    ∨ (CoolingDown router now request a ↔ CoolingDown router now request b) ∧
  ((NotOwn request a ∧ ¬ NotOwn request b) ∨ (NotOwn request a ↔ NotOwn request b) ∧
    (OutOfRegion request a ∧ ¬ OutOfRegion request b)))

end

section
variable {router : AutomaticRouter} {now : ℚ} {request : RankRequest}

@[simp] theorem group_unpriced (attempt : Attempt) :
    (ofLex (group router now request attempt)).1 = true ↔ Unpriced request attempt :=
  decide_eq_true_iff

@[simp] theorem group_coolingDown (attempt : Attempt) :
    (ofLex (ofLex (group router now request attempt)).2).1 = true
      ↔ CoolingDown router now request attempt := by
  simp [group, CoolingDown, Option.any_eq_true]

@[simp] theorem group_notOwn (attempt : Attempt) :
    (ofLex (ofLex (ofLex (group router now request attempt)).2).2).1 = true
      ↔ NotOwn request attempt :=
  decide_eq_true_iff

theorem group_locality (attempt : Attempt) [Decidable (OutOfRegion request attempt)] :
    (ofLex (ofLex (ofLex (group router now request attempt)).2).2).2
      = if OutOfRegion request attempt then 1 else 0 := by
  have hhere : request.region = none ∨ (hint request attempt).region = request.region
      ↔ ¬ OutOfRegion request attempt := by
    unfold OutOfRegion
    tauto
  simp only [group, ofLex_toLex, hhere, ite_not]

theorem bool_lt_iff {x y : Bool} {p q : Prop} (hx : x = true ↔ p) (hy : y = true ↔ q) :
    y < x ↔ p ∧ ¬ q := by
  rw [Bool.lt_iff, ← hx, ← hy, Bool.not_eq_true, and_comm]

theorem bool_eq_iff {x y : Bool} {p q : Prop} (hx : x = true ↔ p) (hy : y = true ↔ q) :
    y = x ↔ (p ↔ q) := by
  rw [Bool.eq_iff_iff, hx, hy]
  exact iff_comm

open Classical in
theorem group_lt_iff (a b : Attempt) :
    group router now request b < group router now request a ↔ Worse router now request a b := by
  have hlocality : (ofLex (ofLex (ofLex (group router now request b)).2).2).2
      < (ofLex (ofLex (ofLex (group router now request a)).2).2).2
      ↔ OutOfRegion request a ∧ ¬ OutOfRegion request b := by
    rw [group_locality, group_locality]
    split_ifs <;> simp_all
  rw [Prod.Lex.lt_iff, Prod.Lex.lt_iff, Prod.Lex.lt_iff, hlocality,
    bool_lt_iff (group_unpriced a) (group_unpriced b),
    bool_eq_iff (group_unpriced a) (group_unpriced b),
    bool_lt_iff (group_coolingDown a) (group_coolingDown b),
    bool_eq_iff (group_coolingDown a) (group_coolingDown b),
    bool_lt_iff (group_notOwn a) (group_notOwn b), bool_eq_iff (group_notOwn a) (group_notOwn b)]
  rfl

theorem group_le_iff (a b : Attempt) :
    group router now request a ≤ group router now request b ↔ ¬ Worse router now request a b := by
  rw [← group_lt_iff, not_lt]

/-! ### The class of the bound candidate -/

theorem group_le_of_score_le {a b : Attempt}
    (h : score router now request a ≤ score router now request b) :
    group router now request a ≤ group router now request b :=
  Prod.Lex.monotone_fst _ _ h

theorem pairwise_sorted : (sorted router now request).Pairwise fun a b =>
      group router now request a ≤ group router now request b := by
  have h := Select.pairwise_orderBy (score router now request) request.plan.attempts
  exact List.Pairwise.imp (fun {a b} => group_le_of_score_le (a := a) (b := b)) h

theorem sorted_perm : (sorted router now request).Perm request.plan.attempts :=
  perm_insertionSort _ _

/-- Of two classes, the one that cools down nothing and mismatches no region is no worse, where it
lacks a price or ownership only with the other. -/
theorem class_le {x y : Class} (hcooling : (ofLex (ofLex x).2).1 = false)
    (hlocality : (ofLex (ofLex (ofLex x).2).2).2 = 0)
    (hunpriced : (ofLex x).1 = true → (ofLex y).1 = true)
    (hforeign : (ofLex (ofLex (ofLex x).2).2).1 = true → (ofLex (ofLex (ofLex y).2).2).1 = true) :
    x ≤ y := by
  refine Prod.Lex.toLex_le_toLex'.mpr ⟨?_, fun _ => Prod.Lex.toLex_le_toLex'.mpr ⟨?_, fun _ =>
    Prod.Lex.toLex_le_toLex'.mpr ⟨?_, fun _ => ?_⟩⟩⟩
  · exact Bool.le_iff_imp.mpr hunpriced
  · exact le_of_eq_of_le hcooling (Bool.false_le _)
  · exact Bool.le_iff_imp.mpr hforeign
  · exact le_of_eq_of_le hlocality (Nat.zero_le _)

theorem le_of_mayLead {chosen head : Attempt} {rest : List Attempt}
    (hsorted : sorted router now request = head :: rest)
    (hlead : mayLead router now request chosen) :
    group router now request chosen ≤ group router now request head := by
  simp only [mayLead, hsorted, Bool.and_eq_true, Bool.or_eq_true, Bool.not_eq_true',
    decide_eq_true_eq, List.head?_cons, Option.any_some, all_eq_true] at hlead
  obtain ⟨⟨⟨hcooling, hlocality⟩, hunpriced⟩, hforeign⟩ := hlead
  refine class_le hcooling hlocality (fun h => ?_) fun h => ?_
  · rcases hunpriced with hpriced | hall
    · exact absurd h (by simp [hpriced])
    · exact hall head mem_cons_self
  · rcases hforeign with hown | hhead
    · exact absurd h (by simp [hown])
    · exact hhead

theorem le_of_bound {chosen attempt : Attempt} (h : bound router now request = some chosen)
    (hmem : attempt ∈ sorted router now request) :
    group router now request chosen ≤ group router now request attempt := by
  have hlead := (Option.filter_eq_some_iff.mp h).2
  rcases hsorted : sorted router now request with _ | ⟨head, rest⟩
  · simp [hsorted] at hmem
  · rw [hsorted] at hmem
    refine (le_of_mayLead hsorted hlead).trans ?_
    rcases mem_cons.mp hmem with rfl | hrest
    · exact le_rfl
    · have hpairwise := @pairwise_sorted router now request
      rw [hsorted] at hpairwise
      exact (pairwise_cons.mp hpairwise).1 attempt hrest

/-! ### The order -/

theorem ranked_perm : (ranked router now request).Perm request.plan.attempts := by
  unfold ranked
  split
  · rename_i chosen hbound
    exact (cons_eraseP_perm (Option.filter_eq_some_iff.mp hbound).1).trans sorted_perm
  · exact sorted_perm

theorem pairwise_ranked : (ranked router now request).Pairwise fun a b =>
      group router now request a ≤ group router now request b := by
  unfold ranked
  split
  · rename_i chosen hbound
    refine pairwise_cons.mpr ⟨fun attempt hmem => ?_, ?_⟩
    · exact le_of_bound hbound (mem_of_mem_eraseP hmem)
    · exact pairwise_sorted.sublist eraseP_sublist
  · exact pairwise_sorted

theorem group_numbered_head {order : List Attempt} {head : Attempt}
    (h : (numbered order).head? = some head) : ∃ attempt, order.head? = some attempt ∧
      group router now request head = group router now request attempt := by
  cases order with
  | nil => simp [numbered] at h
  | cons attempt rest =>
    refine ⟨attempt, rfl, ?_⟩
    simp only [numbered, zipIdx_cons, map_cons, List.head?_cons, Option.some.injEq] at h
    rw [← h]
    rfl

end

/-- **No worse candidate is promoted.**  The attempts and the new dropped candidates are, in one
order of the plan's attempts that puts none before a better one, those up to the limit and those past
it; so no candidate of the plan is better than the head. -/
theorem rank_never_promotes (router : AutomaticRouter) (now : ℚ) (request : RankRequest) :
    (∃ order : List Attempt, order.Perm request.plan.attempts
        ∧ (order.Pairwise fun a b => ¬ Worse router now request a b)
        ∧ (rank router now request).1.attempts = numbered (order.take request.limit)
        ∧ (rank router now request).1.dropped = request.plan.dropped
            ++ (order.drop request.limit).map (overCap request.limit))
    ∧ ∀ head ∈ (rank router now request).1.attempts.head?, ∀ attempt ∈ request.plan.attempts,
        ¬ Worse router now request head attempt := by
  simp only [← group_le_iff]
  refine ⟨⟨_, ranked_perm, pairwise_ranked, rfl, rfl⟩, fun head hhead attempt hmem => ?_⟩
  obtain ⟨first, hfirst, hclass⟩ := group_numbered_head hhead
  rw [hclass]
  have hordered : attempt ∈ ranked router now request := ranked_perm.mem_iff.mpr hmem
  rcases hranked : ranked router now request with _ | ⟨leader, rest⟩
  · simp [hranked] at hordered
  · -- the head of what the limit keeps is the head of the order
    have hleader : first = leader := by
      rw [hranked, List.head?_take] at hfirst
      split at hfirst
      · cases hfirst
      · exact (Option.some.inj hfirst).symm
    have hpairwise := @pairwise_ranked router now request
    rw [hranked] at hpairwise hordered
    rw [hleader]
    rcases List.mem_cons.mp hordered with rfl | hrest
    · exact le_rfl
    · exact (List.pairwise_cons.mp hpairwise).1 attempt hrest

def attemptAt (position : ℕ) (instanceName : String) : Attempt :=
  ⟨position, instanceName, "openai", "gpt", [], none, "catalog"⟩

/-- One instance without a price, which the session is bound to, and a priced one. -/
def boundUnpriced : AutomaticRouter × RankRequest :=
  ({ affinities := [("session", "free", 0)] },
    { plan := ⟨"catalog", [attemptAt 1 "free", attemptAt 2 "paid"], [], [], none⟩
      sessionTtlSeconds := 60
      offerings := []
      costs := fun selector => if selector = "paid:gpt" then some 3 else none
      affinity := some "session"
      region := none
      mode := "chat"
      own := ["free:gpt"]
      candidateKey := Attempt.instanceName })

theorem rank_never_promotes_unpriced :
    isSticky boundUnpriced.1 1 boundUnpriced.2 (attemptAt 1 "free") = true
    ∧ ∃ head, (rank boundUnpriced.1 1 boundUnpriced.2).1.attempts.head? = some head
      ∧ ¬ Unpriced boundUnpriced.2 head := by
  obtain ⟨⟨order, hperm, -, hattempts, -⟩, hbest⟩ :=
    rank_never_promotes boundUnpriced.1 1 boundUnpriced.2
  have hlength : order.length = 2 := hperm.length_eq
  obtain ⟨head, hhead⟩ : ∃ head,
      (rank boundUnpriced.1 1 boundUnpriced.2).1.attempts.head? = some head := by
    rw [hattempts]
    match order, hlength with
    | [a, b], _ => exact ⟨_, rfl⟩
  refine ⟨by decide +kernel, head, hhead, fun hunpriced => ?_⟩
  exact hbest head hhead (attemptAt 2 "paid") (by simp [boundUnpriced])
    (.inl ⟨hunpriced, by simp [Unpriced, boundUnpriced, attemptAt, Attempt.canonical]⟩)

end Otari.Routing
