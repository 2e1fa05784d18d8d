import Otari.RateLimit.WindowExact

/-!
# Rate limit — ResetAfter — what a refused entry finds when it comes back

`reset_after` is the time until the oldest counted entry leaves, as doubles tell it.  The same hit
finds, whenever it comes back, the counted entries that have not left (`Book.current_later`): before
the oldest has left it is refused again, also where the time it was told is rounded down.
-/

namespace Otari.RateLimit.Sliding
open Expiry
open Rounding (double)

variable {width : Key → ℚ} {T now : ℚ} {log : SlidingWindowLog} {book : Book} {key : Key}
  {limit cost : ℤ}

theorem Book.hit_of_refused (h : (book.hit width now key limit cost).1.allowed = false) :
    limit < spent (book.current width now key) + cost
      ∧ (book.hit width now key limit cost).1.resetAfter
        = waits now (width key) (book.current width now key)
      ∧ (book.hit width now key limit cost).2 = book := by
  unfold Book.hit at h ⊢
  dsimp only at h ⊢
  split at h
  · cases h
  · rename_i hfull
    rw [if_neg hfull]
    exact ⟨not_le.mp hfull, rfl, rfl⟩

theorem Book.hit_allowed : (book.hit width now key limit cost).1.allowed
      ↔ spent (book.current width now key) + cost ≤ limit := by
  unfold Book.hit
  dsimp only
  split
  · rename_i hfits
    simp [hfits]
  · rename_i hfull
    simp [hfull]

theorem Book.current_later {later : ℚ} (hlater : now ≤ later) :
    book.current width later key = live (leaves (width key)) later (book.current width now key) :=
  (live_live hlater).symm

theorem Refines.current_sorted (h : Refines width T log book) (hT : T ≤ now) (key : Key) :
    (book.current width now key).Pairwise fun a b => a.time ≤ b.time := by
  obtain ⟨stored, ht⟩ := h.windows key
  have hshown : live (leaves (width key)) now stored = book.current width now key := ht.shows now hT
  rw [← hshown]
  exact ht.sorted.sublist live_sublist

theorem live_of_oldest {w later : ℚ} {oldest : Admission} {rest : List Admission}
    (hsorted : (oldest :: rest).Pairwise fun a b => a.time ≤ b.time)
    (holdest : later < leaves w oldest) :
    live (leaves w) later (oldest :: rest) = oldest :: rest := by
  refine List.filter_eq_self.mpr fun e he => decide_eq_true ?_
  rcases List.mem_cons.mp he with rfl | hrest
  · exact holdest
  · have hle : oldest.time ≤ e.time := (List.pairwise_cons.mp hsorted).1 e hrest
    exact holdest.trans_le (by unfold leaves; linarith)

theorem live_leaves {w : ℚ} (oldest : Admission) (rest : List Admission) :
    live (leaves w) (leaves w oldest) (oldest :: rest)
      = rest.filter fun e => oldest.time < e.time := by
  rw [live, List.filter_cons, if_neg (by simp)]
  exact List.filter_congr fun e _ => decide_eq_decide.mpr (add_lt_add_iff_right _)

/-- **What a refused entry waits for.**  After any calls, a hit refused though its cost alone is
within the limit is told, as doubles tell it, when the oldest counted entry leaves.  The same hit at any
later instant, with nothing in between, is admitted exactly when the counted entries that have not left
by then fit under the limit with it: not before the oldest has left, and as it leaves exactly when those
younger fit. -/
theorem retry_after_oldest_leaves (width : Key → ℚ) (start : ℚ) (acts : List Act)
    (hordered : Ordered start acts) (now : ℚ) (hnow : last start acts ≤ now) (key : Key)
    (limit cost : ℤ) (hcost : cost ≤ limit) :
    ∃ log answer after, (SlidingWindowLog.run width {} acts).map Prod.snd = some log
      ∧ log.hit now key limit (width key) cost = some (answer, after) ∧ (answer.allowed = false →
        ∃ oldest rest, (Book.run width {} acts).2.current width now key = oldest :: rest
          ∧ answer.resetAfter = double (double (oldest.time + width key) - now)
          ∧ ∀ later, now ≤ later → ∃ again settled,
            after.hit later key limit (width key) cost = some (again, settled) ∧ (again.allowed ↔
                spent ((oldest :: rest).filter fun e => later < e.time + width key) + cost ≤ limit)
              ∧ (later < oldest.time + width key → again.allowed = false)
              ∧ (later = oldest.time + width key → (again.allowed ↔
                spent (rest.filter fun e => oldest.time < e.time) + cost ≤ limit))) := by
  have hempty : Refines width start {} {} := Refines.empty
  obtain ⟨log, hrun, hlog⟩ := hempty.run hordered
  obtain ⟨after, hhit, hafter, -⟩ := hlog.hit hnow key limit cost
  refine ⟨log, _, after, by rw [hrun]; rfl, hhit, fun hrefused => ?_⟩
  obtain ⟨hfull, hreset, hbook⟩ := Book.hit_of_refused hrefused
  rw [hbook] at hafter
  have hsorted := hlog.current_sorted hnow key
  rcases hcurrent : (Book.run width {} acts).2.current width now key with _ | ⟨oldest, rest⟩
  · -- with nothing live its cost alone is what did not fit
    rw [hcurrent] at hfull
    exact absurd hcost (by simpa [spent] using hfull)
  · rw [hcurrent] at hreset hfull hsorted
    refine ⟨oldest, rest, rfl, hreset, fun later hlater => ?_⟩
    obtain ⟨settled, hagain, -, -⟩ := hafter.hit hlater key limit cost
    have hallowed : (Book.hit width (Book.run width {} acts).2 later key limit cost).1.allowed ↔
        spent (live (leaves (width key)) later (oldest :: rest)) + cost ≤ limit := by
      rw [Book.hit_allowed, Book.current_later hlater, hcurrent]
    refine ⟨_, settled, hagain, hallowed, fun hbefore => ?_, fun hleft => ?_⟩
    · rw [live_of_oldest hsorted hbefore] at hallowed
      exact Bool.eq_false_iff.mpr (mt hallowed.mp hfull.not_ge)
    · rw [hleft] at hallowed ⊢
      exact hallowed.trans (by rw [← leaves, live_leaves])

/-- A window of a small old entry and a large younger one, and a hit that needs both gone. -/
theorem retry_after_small_oldest : ∃ log answer after,
      (SlidingWindowLog.run (fun _ => 60) {} [.hit 0 "k" 10 1, .hit 1 "k" 10 9]).map Prod.snd
          = some log ∧ log.hit 2 "k" 10 60 5 = some (answer, after) ∧ (answer.allowed = false →
        ∃ oldest rest, (Book.run (fun _ => 60) {} [.hit 0 "k" 10 1, .hit 1 "k" 10 9]).2.current
            (fun _ => 60) 2 "k" = oldest :: rest
          ∧ answer.resetAfter = double (double (oldest.time + 60) - 2)
          ∧ ∀ later, 2 ≤ later → ∃ again settled,
            after.hit later "k" 10 60 5 = some (again, settled) ∧ (again.allowed ↔
                spent ((oldest :: rest).filter fun e => later < e.time + 60) + 5 ≤ 10)
              ∧ (later < oldest.time + 60 → again.allowed = false)
              ∧ (later = oldest.time + 60 → (again.allowed ↔
                spent (rest.filter fun e => oldest.time < e.time) + 5 ≤ 10))) :=
  retry_after_oldest_leaves (fun _ => 60) 0 [.hit 0 "k" 10 1, .hit 1 "k" 10 9]
    ⟨le_rfl, zero_le_one, trivial⟩ 2 one_le_two "k" 10 5 (by decide)

/-- There the hit is refused, and refused again after exactly the time it was told; and so is one that
is told 43.8 seconds at 16.3, where the entry is of 0.1. -/
theorem retry_refused_again : (SlidingWindowLog.run (fun _ => 60) {}
        [.hit 0 "k" 10 1, .hit 1 "k" 10 9, .hit 2 "k" 10 5, .hit (2 + 58) "k" 10 5]).map Prod.fst
      = some [some ⟨true, 1, 60, some (str 0)⟩, some ⟨true, 10, 59, some (str 1)⟩,
          some ⟨false, 10, 58, none⟩, some ⟨false, 9, 1, none⟩]
    ∧ ((SlidingWindowLog.run (fun _ => 60) {}
        [.hit (double (1 / 10)) "k" 1 1, .hit (double (163 / 10)) "k" 1 1,
          .hit (double (double (163 / 10) + double (438 / 10))) "k" 1 1]).map Prod.fst).map
      (·.map fun answer => answer.map fun window => (window.allowed, window.resetAfter))
      = some [some (true, 60), some (false, double (438 / 10)),
          some (false, double (double (double (1 / 10) + 60)
            - double (double (163 / 10) + double (438 / 10))))] := by
  decide +kernel

end Otari.RateLimit.Sliding
