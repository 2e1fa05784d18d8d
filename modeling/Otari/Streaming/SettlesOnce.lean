import Otari.Streaming.Generator

/-!
# Streaming — SettlesOnce — when the generator settles once

`Hold` follows the terminal buffer over the chunks.  One specification for each part of the
generator says what it leaves where it returns and where it raises; together they give
`settles_once_iff`: every run settles once unless the stream `Slips`.
-/

namespace Otari.Streaming
open Raising
open List
open Raising.Program

/-! ### The terminal buffer over the chunks -/

/-- The chunks formatted while the upstream still runs, and those held back. -/
structure Hold where
  released : List Chunk := []
  held : List Chunk := []
  buffering : Bool := false

namespace Hold

def take (hold : Hold) (chunk : Chunk) : Hold :=
  if chunk.carrier = some true then
    { released := hold.released ++ hold.held, held := [chunk], buffering := true }
  else if hold.buffering then
    if maxTerminalBufferChunks ≤ hold.held.length then
      { released := hold.released ++ hold.held ++ [chunk] }
    else
      { hold with held := hold.held ++ [chunk] }
  else
    { hold with released := hold.released ++ [chunk] }

theorem subset_take (hold : Hold) (chunk : Chunk) : hold.released ⊆ (hold.take chunk).released := by
  intro c hc
  rw [take]
  split_ifs <;> simp [hc]

theorem subset_foldl (chunks : List Chunk) (hold : Hold) :
    hold.released ⊆ (chunks.foldl take hold).released := by
  induction chunks generalizing hold with
  | nil => exact fun _ hc => hc
  | cons chunk chunks ih => exact fun _ hc => ih _ (subset_take hold chunk hc)

end Hold

/-! ### What the upstream sends -/

def chunksOf : List Pull → List Chunk
  | [] => []
  | .idle :: pulls => chunksOf pulls
  | .chunk chunk :: pulls => chunk :: chunksOf pulls

namespace Source
variable (source : Source)

def chunks : List Chunk := chunksOf source.pulls

def hold : Hold := source.chunks.foldl Hold.take {}

/-- No chunk asked for raises an exception before it is formatted. -/
def Fine (chunk : Chunk) : Prop :=
  (source.checksCompletion = true → chunk.completes.isSome) ∧ chunk.usage.isSome ∧
    chunk.carrier.isSome

/-- Nothing raises until the upstream is exhausted. -/
def Passes : Prop :=
  source.ending = .exhausted ∧ (∀ chunk ∈ source.chunks, source.Fine chunk) ∧
    ∀ chunk ∈ source.hold.released, chunk.formats = true

/-- The completion test, where there is one, accepts the stream after its last chunk. -/
def Completes : Prop :=
  source.checksCompletion = true → ∃ chunk, source.chunks.getLast? = some chunk ∧
    chunk.completes = some true

def CarriesUsage : Prop := ∃ chunk ∈ source.chunks, chunk.usage = some true

/-- The stream settles, formatting a held chunk then raises, and the error path gets through. -/
def Slips : Prop :=
  source.Passes ∧ source.Completes ∧ (∃ chunk ∈ source.hold.held, chunk.formats = false) ∧
    (∀ chunk ∈ source.hold.held, chunk.reformats = true) ∧ source.payloadRaises = false

end Source

/-- **A stream settles once**: one callback is invoked; the two that bill follow the upstream's end,
complete, and which of them it is goes by whether a chunk carried usage. -/
structure SettlesOnce (source : Source) (events : List Event) : Prop where
  once : ∃ callback, events.filter (· ≠ .exhausted) = [.called callback]
  complete : .called .complete ∈ events → source.CarriesUsage
  noUsage : .called .noUsage ∈ events → ¬ source.CarriesUsage
  after : .called .complete ∈ events ∨ .called .noUsage ∈ events →
    events.head? = some .exhausted ∧ source.Completes
  bills : .exhausted ∈ events → source.Completes →
    .called .complete ∈ events ∨ .called .noUsage ∈ events

/-! ### Before settlement -/

/-- Nothing settles and nothing is seen between the two. -/
structure Quiet (s s' : Locals) : Prop where
  settled : s'.settled = s.settled
  settling : s'.settling = s.settling
  events : s'.events = s.events

namespace Quiet

theorem refl (s : Locals) : Quiet s s := ⟨rfl, rfl, rfl⟩

theorem trans {a b c : Locals} (h : Quiet a b) (h' : Quiet b c) : Quiet a c :=
  ⟨h'.settled.trans h.settled, h'.settling.trans h.settling, h'.events.trans h.events⟩

end Quiet

/-- The consumer leaves only where it does. -/
def Left (consumer : ℕ → Bool) (e : Exc) : Prop := e = .left → ∃ n, consumer n = true

section
variable (source : Source) (consumer : ℕ → Bool)

theorem pause_spec (s : Locals) :
    (pause consumer).Ends s (fun _ s' => ∃ n, s' = { s with points := n })
      (fun e s' => (∃ n, s' = { s with points := n }) ∧ e = .left ∧ ∃ n, consumer n = true) := by
  simp only [pause, ends_bind, ends_read, ends_update, ends_ite, ends_raise, ends_pure]
  exact ⟨fun h => ⟨⟨_, rfl⟩, trivial, _, h⟩, fun _ => ⟨_, rfl⟩⟩

theorem attempt_spec (raises : Bool) (s : Locals) :
    (attempt raises).Ends s (fun _ s' => s' = s ∧ raises = false)
      (fun e s' => s' = s ∧ e = .error ∧ raises = true) := by
  cases raises with
  | true => exact ⟨rfl, rfl, rfl⟩
  | false => exact ⟨rfl, rfl⟩

theorem answer_spec {α : Type} (o : Option α) (s : Locals) :
    (answer o).Ends s (fun a s' => s' = s ∧ o = some a)
      (fun e s' => s' = s ∧ e = .error ∧ o = none) := by
  cases o with
  | some a => exact ⟨rfl, rfl⟩
  | none => exact ⟨rfl, rfl, rfl⟩

theorem yieldAll_spec (formats : Chunk → Bool) (chunks : List Chunk) (s : Locals) :
    (yieldAll consumer formats chunks).Ends s
      (fun _ s' => (∃ n, s' = { s with points := n }) ∧ ∀ chunk ∈ chunks, formats chunk = true)
      (fun e s' => (∃ n, s' = { s with points := n }) ∧ Left consumer e ∧
        (e = .error → ∃ chunk ∈ chunks, formats chunk = false)) := by
  induction chunks generalizing s with
  | nil => exact ⟨⟨s.points, rfl⟩, by simp⟩
  | cons chunk chunks ih =>
    simp only [yieldAll, ends_bind]
    refine (attempt_spec _ s).mono ?_ ?_
    · rintro _ _ ⟨rfl, hf⟩
      refine (pause_spec consumer _).mono ?_ ?_
      · rintro _ _ ⟨n, rfl⟩
        refine (ih _).mono ?_ ?_
        · rintro _ _ ⟨⟨m, rfl⟩, h⟩
          exact ⟨⟨m, rfl⟩, forall_mem_cons.mpr ⟨by simpa using hf, h⟩⟩
        · rintro e _ ⟨⟨m, rfl⟩, hl, h⟩
          refine ⟨⟨m, rfl⟩, hl, fun he => ?_⟩
          obtain ⟨c, hc, hcf⟩ := h he
          exact ⟨c, mem_cons_of_mem _ hc, hcf⟩
      · rintro _ _ ⟨hn, rfl, h⟩
        exact ⟨hn, fun _ => h, fun he => by cases he⟩
    · rintro _ _ ⟨rfl, rfl, hf⟩
      exact ⟨⟨_, rfl⟩, fun he => (by cases he), fun _ => ⟨chunk, by simp, by simpa using hf⟩⟩

/-- The generator's variables follow the hold. -/
structure Follows (hold : Hold) (s : Locals) : Prop where
  held : s.terminalBuffer = hold.held
  buffering : s.bufferingTerminal = hold.buffering

theorem noteCompletion_spec (chunk : Chunk) (s : Locals) : (noteCompletion source chunk).Ends s
      (fun _ s' => (source.checksCompletion = true → chunk.completes.isSome) ∧
        s' = { s with completed :=
          if source.checksCompletion then chunk.completes == some true else s.completed })
      (fun e s' => s' = s ∧ e = .error ∧ ¬ source.Fine chunk) := by
  by_cases hs : source.checksCompletion = true
  · simp only [noteCompletion, hs, if_true, ends_bind, ends_update]
    refine (answer_spec _ s).mono ?_ ?_
    · rintro a _ ⟨rfl, ha⟩
      simp [ha]
    · rintro _ _ ⟨rfl, rfl, ha⟩
      exact ⟨rfl, rfl, fun hf => by simpa [ha] using hf.1 hs⟩
  · simp [noteCompletion, hs]

theorem noteUsage_spec (chunk : Chunk) (s : Locals) : (noteUsage chunk).Ends s
      (fun _ s' => chunk.usage.isSome ∧
        s' = { s with hasUsage := s.hasUsage || chunk.usage == some true })
      (fun e s' => s' = s ∧ e = .error ∧ ¬ source.Fine chunk) := by
  simp only [noteUsage, ends_bind, ends_update]
  refine (answer_spec _ s).mono ?_ ?_
  · rintro a _ ⟨rfl, ha⟩
    simp [ha]
  · rintro _ _ ⟨rfl, rfl, ha⟩
    exact ⟨rfl, rfl, fun hf => by simpa [ha] using hf.2.1⟩

theorem yieldAll_released {chunks released : List Chunk} (chunk : Chunk) (s₀ s : Locals)
    (hq : Quiet s₀ s) (hs : chunks ⊆ released) : (yieldAll consumer (·.formats) chunks).Ends s
      (fun _ s' => (∃ n, s' = { s with points := n }) ∧ ∀ c ∈ chunks, c.formats = true)
      (fun e s' => Quiet s₀ s' ∧ Left consumer e ∧
        (e = .error → ¬ (source.Fine chunk ∧ ∀ c ∈ released, c.formats = true))) := by
  refine (yieldAll_spec consumer _ _ s).mono (fun _ _ h => h) ?_
  rintro e _ ⟨⟨n, rfl⟩, hl, h⟩
  refine ⟨hq.trans ⟨rfl, rfl, rfl⟩, hl, fun he hf => ?_⟩
  obtain ⟨c, hc, hcf⟩ := h he
  rw [hf.2 c (hs hc)] at hcf
  cases hcf

theorem holdOrYield_spec (chunk : Chunk) (hold : Hold) (s : Locals) (h : Follows hold s)
    (hr : ∀ c ∈ hold.released, c.formats = true) : (holdOrYield consumer chunk).Ends s
      (fun _ s' => Quiet s s' ∧ Follows (hold.take chunk) s' ∧ s'.hasUsage = s.hasUsage ∧
        s'.completed = s.completed ∧ chunk.carrier.isSome ∧
        ∀ c ∈ (hold.take chunk).released, c.formats = true)
      (fun e s' => Quiet s s' ∧ Left consumer e ∧ (e = .error →
          ¬ (source.Fine chunk ∧ ∀ c ∈ (hold.take chunk).released, c.formats = true))) := by
  simp only [holdOrYield, ends_bind, ends_ite, ends_read, ends_update]
  refine (answer_spec _ s).mono ?_ ?_
  · rintro carrier s ⟨rfl, hc⟩
    have hsome : chunk.carrier.isSome = true := by simp [hc]
    rw [h.held, h.buffering]
    refine ⟨fun ht => ?_, fun ht => ⟨fun hb => ⟨fun hlen => ?_, fun hlen => ?_⟩, fun hb => ?_⟩⟩
    -- a carrier takes the place of what was held
    · have heq : hold.take chunk = ⟨hold.released ++ hold.held, [chunk], true⟩ := by
        simp [Hold.take, hc, ht]
      refine (yieldAll_released source consumer chunk s s (.refl s) (by simp [heq])).mono ?_
        (fun _ _ h => h)
      rintro _ _ ⟨⟨n, rfl⟩, hf⟩
      rw [heq]
      refine ⟨⟨rfl, rfl, rfl⟩, ⟨rfl, rfl⟩, rfl, rfl, hsome, fun c hc => ?_⟩
      exact (mem_append.mp hc).elim (hr c) (hf c)
    -- too much is held
    · have heq : hold.take chunk = ⟨hold.released ++ hold.held ++ [chunk], [], false⟩ := by
        simp [Hold.take, hc, ht, hb, hlen]
      refine (yieldAll_released source consumer chunk s s (.refl s) (by simp [heq])).mono ?_
        (fun _ _ h => h)
      rintro _ _ ⟨⟨n, rfl⟩, hf⟩
      have hlast : [chunk] ⊆ (hold.take chunk).released := by simp [heq]
      refine (yieldAll_released source consumer chunk s _ (by exact ⟨rfl, rfl, rfl⟩) hlast).mono ?_
        (fun _ _ h => h)
      rintro _ _ ⟨⟨m, rfl⟩, hf'⟩
      rw [heq]
      refine ⟨⟨rfl, rfl, rfl⟩, ⟨rfl, rfl⟩, rfl, rfl, hsome, fun c hc => ?_⟩
      rcases mem_append.mp hc with hc | hc
      · exact (mem_append.mp hc).elim (hr c) (hf c)
      · exact hf' c hc
    · have heq : hold.take chunk = { hold with held := hold.held ++ [chunk] } := by
        simp [Hold.take, hc, ht, hb, hlen]
      rw [heq]
      exact ⟨⟨rfl, rfl, rfl⟩, ⟨rfl, rfl⟩, rfl, rfl, hsome, hr⟩
    -- nothing is held
    · have heq : hold.take chunk = { hold with released := hold.released ++ [chunk] } := by
        simp [Hold.take, hc, ht, hb]
      refine (yieldAll_released source consumer chunk s s (.refl s) (by simp [heq])).mono ?_
        (fun _ _ h => h)
      rintro _ _ ⟨⟨n, rfl⟩, hf⟩
      rw [heq]
      refine ⟨⟨rfl, rfl, rfl⟩, ⟨h.held, h.buffering⟩, rfl, rfl, hsome, fun c hc => ?_⟩
      exact (mem_append.mp hc).elim (hr c) (hf c)
  · rintro _ _ ⟨rfl, rfl, hc⟩
    refine ⟨.refl _, fun he => (by cases he), fun _ hf => ?_⟩
    simpa [hc] using hf.1.2.2

theorem takeChunk_spec (chunk : Chunk) (hold : Hold) (s : Locals) (h : Follows hold s)
    (hr : ∀ c ∈ hold.released, c.formats = true) : (takeChunk source consumer chunk).Ends s
      (fun _ s' => Quiet s s' ∧ Follows (hold.take chunk) s' ∧ source.Fine chunk ∧
        s'.hasUsage = (s.hasUsage || chunk.usage == some true) ∧ s'.completed =
          (if source.checksCompletion then chunk.completes == some true else s.completed) ∧
        ∀ c ∈ (hold.take chunk).released, c.formats = true)
      (fun e s' => Quiet s s' ∧ Left consumer e ∧ (e = .error →
          ¬ (source.Fine chunk ∧ ∀ c ∈ (hold.take chunk).released, c.formats = true))) := by
  simp only [takeChunk, ends_bind]
  refine (noteCompletion_spec source chunk s).mono ?_ ?_
  · rintro _ s₁ ⟨hcompletes, hs₁⟩
    refine (noteUsage_spec source chunk s₁).mono ?_ ?_
    · rintro _ s₂ ⟨husage, hs₂⟩
      have hq₂ : Quiet s s₂ := by
        rw [hs₂, hs₁]
        exact ⟨rfl, rfl, rfl⟩
      have hf₂ : Follows hold s₂ := by
        rw [hs₂, hs₁]
        exact ⟨h.held, h.buffering⟩
      refine (holdOrYield_spec source consumer chunk hold s₂ hf₂ hr).mono ?_ ?_
      · rintro _ s' ⟨hq, hf, hu, hc, hcarrier, hformats⟩
        refine ⟨hq₂.trans hq, hf, ⟨hcompletes, husage, hcarrier⟩, ?_, ?_, hformats⟩
        · rw [hu, hs₂, hs₁]
        · rw [hc, hs₂, hs₁]
      · rintro e s' ⟨hq, hl, he⟩
        exact ⟨hq₂.trans hq, hl, he⟩
    · rintro _ _ ⟨rfl, rfl, hf⟩
      refine ⟨?_, fun he => (by cases he), fun _ h => hf h.1⟩
      rw [hs₁]
      exact ⟨rfl, rfl, rfl⟩
  · rintro _ _ ⟨rfl, rfl, hf⟩
    exact ⟨.refl _, fun he => (by cases he), fun _ h => hf h.1⟩

/-- After the loop: nothing raised, and what was noted is what the chunks say together. -/
structure Drained (pulls : List Pull) (hold : Hold) (s s' : Locals) : Prop where
  quiet : Quiet s s'
  follows : Follows ((chunksOf pulls).foldl Hold.take hold) s'
  ending : source.ending = .exhausted
  fine : ∀ c ∈ chunksOf pulls, source.Fine c
  formats : ∀ c ∈ ((chunksOf pulls).foldl Hold.take hold).released, c.formats = true
  usage : s'.hasUsage = (s.hasUsage || (chunksOf pulls).any (·.usage == some true))
  completed : s'.completed = (chunksOf pulls).foldl
    (fun done c => if source.checksCompletion then c.completes == some true else done) s.completed

/-- Where the loop is left: an exception has its cause among the chunks or in the ending. -/
structure Broken (pulls : List Pull) (hold : Hold) (s : Locals) (e : Exc) (s' : Locals) : Prop where
  quiet : Quiet s s'
  left : Left consumer e
  error : e = .error → ¬ (source.ending = .exhausted ∧ (∀ c ∈ chunksOf pulls, source.Fine c) ∧
    ∀ c ∈ ((chunksOf pulls).foldl Hold.take hold).released, c.formats = true)

variable {s : Locals}

theorem pause_bind {s₀ : Locals} {x : Program Exc Locals Unit} {pulls : List Pull} {hold : Hold}
    (hq : Quiet s₀ s)
    (h : ∀ n, x.Ends { s with points := n } (fun _ => Drained source pulls hold s₀)
      (Broken source consumer pulls hold s₀)) :
    (pause consumer >>= fun _ => x).Ends s (fun _ => Drained source pulls hold s₀)
      (Broken source consumer pulls hold s₀) := by
  rw [ends_bind]
  refine (pause_spec consumer s).mono ?_ ?_
  · rintro _ _ ⟨n, rfl⟩
    exact h n
  · rintro _ _ ⟨⟨n, rfl⟩, rfl, hl⟩
    exact ⟨hq.trans ⟨rfl, rfl, rfl⟩, fun _ => hl, fun he => by cases he⟩

theorem pump_spec (pulls : List Pull) (hold : Hold) (s : Locals) (h : Follows hold s)
    (hr : ∀ c ∈ hold.released, c.formats = true) :
    (pump source consumer pulls).Ends s (fun _ => Drained source pulls hold s)
      (Broken source consumer pulls hold s) := by
  induction pulls generalizing hold s with
  | nil =>
    refine pause_bind source consumer (.refl s) fun n => (attempt_spec _ _).mono ?_ ?_
    · rintro _ _ ⟨rfl, he⟩
      have hend : source.ending = .exhausted := by
        cases hs : source.ending with
        | exhausted => rfl
        | raised => simp [hs] at he
      exact
        { quiet := ⟨rfl, rfl, rfl⟩
          follows := ⟨h.held, h.buffering⟩
          ending := hend
          fine := by simp [chunksOf]
          formats := hr
          usage := by simp [chunksOf]
          completed := rfl }
    · rintro _ _ ⟨rfl, rfl, he⟩
      refine ⟨⟨rfl, rfl, rfl⟩, fun he => (by cases he), fun _ hp => ?_⟩
      simp [hp.1] at he
  | cons pull pulls ih =>
    cases pull with
    | idle =>
      have hrest : ∀ n, (pump source consumer pulls).Ends { s with points := n }
          (fun _ => Drained source (.idle :: pulls) hold s)
          (Broken source consumer (.idle :: pulls) hold s) := by
        intro n
        refine (ih hold { s with points := n } ⟨h.held, h.buffering⟩ hr).mono ?_ ?_
        · rintro _ s' ⟨hq, hf, hend, hfine, hformats, hu, hc⟩
          exact ⟨⟨hq.settled, hq.settling, hq.events⟩, hf, hend, hfine, hformats, hu, hc⟩
        · rintro e s' ⟨hq, hl, he⟩
          exact ⟨⟨hq.settled, hq.settling, hq.events⟩, hl, he⟩
      refine pause_bind source consumer (.refl s) fun n => ?_
      rw [ends_ite]
      exact ⟨fun _ => pause_bind source consumer ⟨rfl, rfl, rfl⟩ fun m => hrest m,
        fun _ => hrest n⟩
    | chunk chunk =>
      refine pause_bind source consumer (.refl s) fun n => ?_
      rw [ends_bind]
      refine (takeChunk_spec source consumer chunk hold { s with points := n }
        ⟨h.held, h.buffering⟩ hr).mono ?_ ?_
      · rintro _ s₁ ⟨hq₁, hf₁, hfine, hu₁, hc₁, hformats⟩
        have hq₁ : Quiet s s₁ := ⟨hq₁.settled, hq₁.settling, hq₁.events⟩
        refine (ih _ s₁ hf₁ hformats).mono ?_ ?_
        · rintro _ s' hd
          exact
            { quiet := hq₁.trans hd.quiet
              follows := hd.follows
              ending := hd.ending
              fine := forall_mem_cons.mpr ⟨hfine, hd.fine⟩
              formats := hd.formats
              usage := by rw [hd.usage, hu₁, chunksOf, any_cons, Bool.or_assoc]
              completed := by rw [hd.completed, hc₁, chunksOf, foldl_cons] }
        · rintro e s' hb
          refine ⟨hq₁.trans hb.quiet, hb.left, fun herr ⟨hend, hall, hformats'⟩ => ?_⟩
          exact hb.error herr ⟨hend, (forall_mem_cons.mp hall).2, hformats'⟩
      · rintro e s' ⟨hq, hl, he⟩
        refine ⟨⟨hq.settled, hq.settling, hq.events⟩, hl, ?_⟩
        rintro herr ⟨_, hall, hformats⟩
        refine he herr ⟨(forall_mem_cons.mp hall).1, fun c hc => hformats c ?_⟩
        exact Hold.subset_foldl (chunksOf pulls) _ hc

/-! ### Settlement -/

theorem ends_logged (x : Program Exc Locals Unit) (s : Locals) {Q : Unit → Locals → Prop}
    {E : Exc → Locals → Prop} :
    (logged x).Ends s Q E ↔ x.Ends s Q fun e s => if e = .error then Q () s else E e s := by
  rw [logged, ends_rescue]
  refine ⟨fun h => h.mono (fun _ _ h => h) ?_, fun h => h.mono (fun _ _ h => h) ?_⟩
  · intro e s h
    cases e with
    | error => exact h
    | left => exact h
  · intro e s h
    cases e with
    | error => exact h
    | left => exact h

theorem invoke_spec (callback : Callback) (raises : Bool) (s : Locals) :
    (invoke consumer callback raises).Ends s
      (fun _ s' => ∃ n, s' = { s with events := s.events ++ [.called callback], points := n })
      (fun e s' => (∃ n, s' = { s with events := s.events ++ [.called callback], points := n }) ∧
        Left consumer e) := by
  simp only [invoke, ends_bind, ends_update]
  refine (pause_spec consumer _).mono ?_ ?_
  · rintro _ _ ⟨n, rfl⟩
    refine (attempt_spec _ _).mono ?_ ?_
    · rintro _ _ ⟨rfl, -⟩
      exact ⟨n, rfl⟩
    · rintro _ _ ⟨rfl, rfl, -⟩
      exact ⟨⟨n, rfl⟩, fun he => by cases he⟩
  · rintro _ _ ⟨⟨n, rfl⟩, rfl, hl⟩
    exact ⟨⟨n, rfl⟩, fun _ => hl⟩

theorem awaitSettlement_spec (waits : ℕ) (s : Locals) :
    (awaitSettlement consumer waits).Ends s (fun _ s' => ∃ n, s' = { s with points := n })
      (fun e s' => (∃ n, s' = { s with points := n }) ∧ e = .left ∧ ∃ n, consumer n = true) := by
  induction waits generalizing s with
  | zero => exact pause_spec consumer s
  | succ waits ih =>
    simp only [awaitSettlement, ends_bind]
    refine (pause_spec consumer s).mono ?_ fun _ _ h => h
    rintro _ _ ⟨n, rfl⟩
    refine (pause_spec consumer _).mono ?_ ?_
    · rintro _ _ ⟨m, rfl⟩
      exact ih _
    · rintro _ _ ⟨⟨m, rfl⟩, hl⟩
      exact ⟨⟨m, rfl⟩, hl⟩

def billing (hasUsage : Bool) : Callback :=
  if hasUsage then .complete else .noUsage

/-- One callback is invoked between the two, and no more is settled or buffered. -/
structure Called (callback : Callback) (s s' : Locals) : Prop where
  settled : s'.settled = s.settled
  events : s'.events = s.events ++ [.called callback]
  held : s'.terminalBuffer = s.terminalBuffer

theorem invoke_called (callback : Callback) (raises : Bool) (s : Locals) (hs : s.settling = false) :
    (invoke consumer callback raises).Ends s
      (fun _ s' => Called callback s s' ∧ s'.settling = false)
      (fun e s' => Called callback s s' ∧ Left consumer e ∧ (e = .error → s'.settling = false)) := by
  refine (invoke_spec consumer callback raises s).mono ?_ ?_
  · rintro _ s' ⟨n, rfl⟩
    exact ⟨⟨rfl, rfl, rfl⟩, hs⟩
  · rintro e s' ⟨⟨n, rfl⟩, hl⟩
    exact ⟨⟨rfl, rfl, rfl⟩, hl, fun _ => hs⟩

theorem bill_spec (hasUsage : Bool) (s : Locals) (hs : s.settling = false) :
    (bill source consumer hasUsage).Ends s
      (fun _ s' => Called (billing hasUsage) s s' ∧ s'.settling = false)
      (fun e s' => Called (billing hasUsage) s s' ∧ Left consumer e ∧
        (e = .error → s'.settling = false)) := by
  cases hasUsage with
  | false => exact invoke_called consumer .noUsage _ s hs
  | true =>
    simp only [bill, if_true, ends_ite, ends_bind, ends_update]
    refine ⟨fun _ => ?_, fun _ => invoke_called consumer .complete _ s hs⟩
    refine (awaitSettlement_spec consumer _ _).mono ?_ ?_
    · rintro _ s₁ ⟨n, rfl⟩
      refine (attempt_spec _ _).mono ?_ ?_
      · rintro _ _ ⟨rfl, -⟩
        exact ⟨⟨rfl, rfl, rfl⟩, rfl⟩
      · rintro _ _ ⟨rfl, rfl, -⟩
        exact ⟨⟨rfl, rfl, rfl⟩, fun he => (by cases he), fun _ => rfl⟩
    · rintro _ _ ⟨⟨n, rfl⟩, rfl, hl⟩
      exact ⟨⟨rfl, rfl, rfl⟩, fun _ => hl, fun he => by cases he⟩

theorem settle_spec (s : Locals) (hs : s.settling = false) : (settle source consumer).Ends s
      (fun _ s' => Called (billing s.hasUsage) { s with settled := true } s' ∧
        s'.settling = false)
      (fun e s' => Called (billing s.hasUsage) { s with settled := true } s' ∧
        e = .left ∧ ∃ n, consumer n = true) := by
  have hattach : ∀ s', Called (billing s.hasUsage) { s with settled := true } s' ∧
      s'.settling = false → (logged (attempt source.attachRaises)).Ends s'
        (fun _ s' => Called (billing s.hasUsage) { s with settled := true } s' ∧
          s'.settling = false)
        (fun e s' => Called (billing s.hasUsage) { s with settled := true } s' ∧
          e = .left ∧ ∃ n, consumer n = true) := by
    intro s' h
    rw [ends_logged]
    refine (attempt_spec _ _).mono ?_ ?_
    · rintro _ _ ⟨rfl, -⟩
      exact h
    · rintro _ _ ⟨rfl, rfl, -⟩
      exact h
  simp only [settle, ends_bind, ends_update, ends_read]
  rw [ends_logged]
  refine (bill_spec source consumer s.hasUsage { s with settled := true } hs).mono
    (fun _ s' h => hattach s' h) ?_
  rintro e s' ⟨hcalled, hl, he⟩
  cases e with
  | error => exact hattach s' ⟨hcalled, he rfl⟩
  | left => exact ⟨hcalled, rfl, hl rfl⟩

theorem flushBuffer_spec (s : Locals) : (flushBuffer consumer).Ends s
      (fun _ s' => Quiet s s' ∧ ∀ c ∈ s.terminalBuffer, c.formats = true)
      (fun e s' => Quiet s s' ∧ Left consumer e ∧ (e = .error →
        s'.terminalBuffer = s.terminalBuffer ∧ ∃ c ∈ s.terminalBuffer, c.formats = false)) := by
  simp only [flushBuffer, ends_bind, ends_read, ends_update]
  refine (yieldAll_spec consumer _ _ s).mono ?_ ?_
  · rintro _ _ ⟨⟨n, rfl⟩, hf⟩
    refine (pause_spec consumer _).mono ?_ ?_
    · rintro _ _ ⟨m, rfl⟩
      exact ⟨⟨rfl, rfl, rfl⟩, hf⟩
    · rintro _ _ ⟨⟨m, rfl⟩, rfl, hl⟩
      exact ⟨⟨rfl, rfl, rfl⟩, fun _ => hl, fun he => by cases he⟩
  · rintro e _ ⟨⟨n, rfl⟩, hl, he⟩
    exact ⟨⟨rfl, rfl, rfl⟩, hl, fun herr => ⟨rfl, he herr⟩⟩

/-! ### The whole stream -/

def start : Locals := { completed := !source.checksCompletion }

/-- The callback a complete stream is settled by. -/
def Bills (callback : Callback) : Prop :=
  (callback = .complete ∧ source.CarriesUsage) ∨ (callback = .noUsage ∧ ¬ source.CarriesUsage)

/-- The stream is settled as exhausted and complete. -/
structure Billed (s : Locals) : Prop where
  settled : s.settled = true
  completes : source.Completes
  events : ∃ callback, Bills source callback ∧ s.events = [.exhausted, .called callback]

/-- The stream is left before it is settled. -/
structure Unbilled (e : Exc) (s : Locals) : Prop where
  settled : s.settled = false
  settling : s.settling = false
  events : s.events = [] ∨ s.events = [.exhausted] ∧ ¬ source.Completes
  left : Left consumer e
  error : e = .error → ¬ (source.Passes ∧ source.Completes)

/-- The stream is left after it is settled: an exception then comes of a held chunk. -/
structure Spilt (e : Exc) (s : Locals) : Prop where
  billed : Billed source s
  left : Left consumer e
  error : e = .error → source.Passes ∧ s.terminalBuffer = source.hold.held ∧
    (∃ c ∈ source.hold.held, c.formats = false) ∧ s.settling = false

theorem completed_eq (chunks : List Chunk) (done : Bool) (hs : source.checksCompletion = true) :
    chunks.foldl (fun done c => if source.checksCompletion then c.completes == some true else done)
      done = ((chunks.getLast?.map (·.completes == some true)).getD done) := by
  induction chunks generalizing done with
  | nil => rfl
  | cons chunk chunks ih =>
    rw [foldl_cons, ih, if_pos hs, List.getLast?_cons]
    cases chunks.getLast? <;> rfl

theorem drained_completed (h : Drained source source.pulls {} (start source) s) :
    s.completed = true ↔ source.Completes := by
  rw [h.completed, Source.Completes]
  by_cases hs : source.checksCompletion = true
  · rw [completed_eq source _ _ hs, Source.chunks]
    simp only [hs, start, true_imp_iff]
    cases hlast : (chunksOf source.pulls).getLast? with
    | none => simp
    | some chunk => simp
  · have hall : ∀ (chunks : List Chunk) (done : Bool), chunks.foldl (fun done c =>
        if source.checksCompletion then c.completes == some true else done) done = done := by
      intro chunks done
      simp [hs]
    rw [hall]
    simp [start, hs]

theorem drained_usage (h : Drained source source.pulls {} (start source) s) :
    Bills source (billing s.hasUsage) := by
  have husage : s.hasUsage = true ↔ source.CarriesUsage := by
    rw [h.usage, Source.CarriesUsage, Source.chunks]
    simp [start]
  cases hs : s.hasUsage with
  | true => exact .inl ⟨rfl, husage.mp hs⟩
  | false => exact .inr ⟨rfl, fun hc => by simp [husage.mpr hc] at hs⟩

theorem finish_spec (hd : Drained source source.pulls {} (start source) s) (n : ℕ)
    (hc : s.completed = true) : (settle source consumer >>= fun _ => flushBuffer consumer).Ends
      { s with points := n, events := s.events ++ [.exhausted] }
      (fun _ s => Billed source s ∧ ∀ c ∈ source.hold.held, c.formats = true)
      (fun e s => Unbilled source consumer e s ∨ Spilt source consumer e s) := by
  have hcompletes := (drained_completed source hd).mp hc
  have hbilled : ∀ s', Called (billing s.hasUsage)
      { s with points := n, events := s.events ++ [.exhausted], settled := true } s' →
      Billed source s' := by
    intro s' h
    refine ⟨h.settled, hcompletes, _, drained_usage source hd, ?_⟩
    rw [h.events, hd.quiet.events]
    rfl
  rw [ends_bind]
  refine (settle_spec source consumer _ (by exact hd.quiet.settling)).mono ?_ ?_
  · rintro _ s₁ ⟨hcalled, hsettling⟩
    have hheld : s₁.terminalBuffer = source.hold.held := hcalled.held.trans hd.follows.held
    have hkept : ∀ s', Quiet s₁ s' → Billed source s' := by
      intro s' hq
      obtain ⟨hs, hcomp, callback, hb, he⟩ := hbilled s₁ hcalled
      exact ⟨hq.settled.trans hs, hcomp, callback, hb, hq.events.trans he⟩
    refine (flushBuffer_spec consumer s₁).mono ?_ ?_
    · rintro _ s' ⟨hq, hf⟩
      exact ⟨hkept s' hq, by rwa [hheld] at hf⟩
    · rintro e s' ⟨hq, hl, he⟩
      refine .inr ⟨hkept s' hq, hl, fun herr => ?_⟩
      obtain ⟨hbuffer, hf⟩ := he herr
      rw [hheld] at hbuffer hf
      exact ⟨⟨hd.ending, hd.fine, hd.formats⟩, hbuffer, hf, hq.settling.trans hsettling⟩
  · rintro _ s₁ ⟨hcalled, rfl, hl⟩
    exact .inr ⟨hbilled s₁ hcalled, fun _ => hl, fun he => by cases he⟩

theorem body_spec : (body source consumer).Ends (start source)
      (fun _ s => Billed source s ∧ ∀ c ∈ source.hold.held, c.formats = true)
      (fun e s => Unbilled source consumer e s ∨ Spilt source consumer e s) := by
  simp only [body, ends_bind, ends_update, ends_read]
  rw [ends_ensure]
  have hstart : Follows {} (start source) := ⟨rfl, rfl⟩
  refine (pump_spec source consumer source.pulls {} (start source) hstart (by simp)).mono ?_ ?_
  · intro _ s hd
    refine (pause_spec consumer s).mono ?_ ?_
    · rintro _ _ ⟨n, rfl⟩
      refine (attempt_spec _ _).mono ?_ ?_
      · rintro _ s₁ ⟨rfl, hc⟩
        have hc : s.completed = true := by simpa using hc
        simpa only [ends_bind] using finish_spec source consumer hd n hc
      · rintro _ s₁ ⟨rfl, rfl, hc⟩
        have hincomplete : ¬ source.Completes := by
          rw [← drained_completed source hd]
          simpa using hc
        refine .inl ⟨hd.quiet.settled, hd.quiet.settling, .inr ⟨?_, hincomplete⟩,
          fun he => (by cases he), fun _ h => hincomplete h.2⟩
        simp [hd.quiet.events, start]
    · rintro _ _ ⟨⟨n, rfl⟩, rfl, hl⟩
      exact .inl ⟨hd.quiet.settled, hd.quiet.settling, .inl hd.quiet.events, fun _ => hl,
        fun he => by cases he⟩
  · intro e s hb
    refine (pause_spec consumer s).mono ?_ ?_
    · rintro _ _ ⟨n, rfl⟩
      exact .inl ⟨hb.quiet.settled, hb.quiet.settling, .inl hb.quiet.events, hb.left,
        fun he h => hb.error he h.1⟩
    · rintro _ _ ⟨⟨n, rfl⟩, rfl, hl⟩
      exact .inl ⟨hb.quiet.settled, hb.quiet.settling, .inl hb.quiet.events, fun _ => hl,
        fun he => by cases he⟩

def Reports (s : Locals) : Prop :=
  (∀ c ∈ s.terminalBuffer, c.reformats = true) ∧ source.payloadRaises = false

/-- `on_error` is invoked. -/
structure Reported (s s' : Locals) : Prop where
  reports : Reports source s
  settled : s'.settled = true
  events : s'.events = s.events ++ [.called .error]

/-- The error path is left before its callback. -/
structure Missed (s : Locals) (e : Exc) (s' : Locals) : Prop where
  quiet : Quiet s s'
  left : Left consumer e
  error : e = .error → ¬ Reports source s

theorem report_spec {s₀ : Locals} (hq : Quiet s₀ s) (hr : Reports source s₀) :
    (logged (invoke consumer .error source.errorRaises)).Ends { s with settled := true }
      (fun _ s' => Reported source s₀ s')
      (fun e s' => Reported source s₀ s' ∨ Missed source consumer s₀ e s') := by
  rw [ends_logged]
  refine (invoke_spec consumer _ _ _).mono ?_ ?_
  · rintro _ _ ⟨n, rfl⟩
    exact ⟨hr, rfl, by rw [← hq.events]⟩
  · rintro e _ ⟨⟨n, rfl⟩, -⟩
    cases e with
    | error => exact ⟨hr, rfl, by rw [← hq.events]⟩
    | left => exact .inl ⟨hr, rfl, by rw [← hq.events]⟩

theorem failed_spec (s : Locals) :
    (failed source consumer).Ends s (fun _ s' => Reported source s s')
      (fun e s' => Reported source s s' ∨ Missed source consumer s e s') := by
  have hmissed : ∀ {s₁ : Locals}, Quiet s s₁ → ∀ (e : Exc) (s' : Locals),
      (∃ n, s' = { s₁ with points := n }) ∧ e = .left ∧ (∃ n, consumer n = true) →
        Reported source s s' ∨ Missed source consumer s e s' := by
    rintro s₁ hq _ _ ⟨⟨n, rfl⟩, rfl, hl⟩
    exact .inr ⟨⟨hq.settled, hq.settling, hq.events⟩, fun _ => hl, fun he => by cases he⟩
  simp only [failed, ends_bind, ends_read, ends_update]
  refine (yieldAll_spec consumer _ _ s).mono ?_ ?_
  · rintro _ _ ⟨⟨n, rfl⟩, hf⟩
    refine (attempt_spec _ _).mono ?_ ?_
    · rintro _ _ ⟨rfl, hp⟩
      refine (pause_spec consumer _).mono ?_ (hmissed (by exact ⟨rfl, rfl, rfl⟩))
      rintro _ _ ⟨m, rfl⟩
      rw [ends_ite]
      refine ⟨fun _ => ?_, fun _ => report_spec source consumer (by exact ⟨rfl, rfl, rfl⟩) ⟨hf, hp⟩⟩
      rw [ends_bind]
      refine (pause_spec consumer _).mono ?_ (hmissed (by exact ⟨rfl, rfl, rfl⟩))
      rintro _ _ ⟨m, rfl⟩
      exact report_spec source consumer (by exact ⟨rfl, rfl, rfl⟩) ⟨hf, hp⟩
    · rintro _ _ ⟨rfl, rfl, hp⟩
      refine .inr ⟨⟨rfl, rfl, rfl⟩, fun he => (by cases he), fun _ h => ?_⟩
      simp [h.2] at hp
  · rintro e _ ⟨⟨n, rfl⟩, hl, he⟩
    refine .inr ⟨⟨rfl, rfl, rfl⟩, hl, fun herr h => ?_⟩
    obtain ⟨c, hc, hcf⟩ := he herr
    simp [h.1 c hc] at hcf

theorem cleanup_spec (s : Locals) (hs : s.settled = true ∨ s.settling = false) :
    (cleanup source consumer).Ends s
      (fun _ s' => s'.events = if s.settled then s.events else s.events ++ [.called .incomplete])
      (fun _ s' => s'.events = if s.settled then s.events else s.events ++ [.called .incomplete])
      := by
  by_cases hsettled : s.settled = true
  · simp only [cleanup, ends_bind, ends_read, ends_ite, ends_logged, hsettled, if_true]
    refine ⟨fun _ => (pause_spec consumer s).mono ?_ ?_, fun _ => by simp⟩
    · rintro _ _ ⟨n, rfl⟩
      refine (attempt_spec _ _).mono ?_ ?_
      · rintro _ _ ⟨rfl, -⟩
        simp [hsettled]
      · rintro _ _ ⟨rfl, rfl, -⟩
        simp [hsettled]
    · rintro _ _ ⟨⟨n, rfl⟩, rfl, -⟩
      simp
  · have hsettling : s.settling = false := hs.resolve_left hsettled
    simp only [cleanup, ends_bind, ends_read, ends_ite, ends_logged, hsettled, hsettling]
    refine ⟨fun h => (by cases h), fun _ => ⟨fun _ => ?_, fun h => absurd (by simp) h⟩⟩
    refine (invoke_spec consumer _ _ _).mono ?_ ?_
    · rintro _ _ ⟨n, rfl⟩
      simp
    · rintro e _ ⟨⟨n, rfl⟩, -⟩
      simp

/-- Nothing is seen but the upstream's end, and that only of an incomplete stream. -/
def Bare (events : List Event) : Prop :=
  events = [] ∨ events = [.exhausted] ∧ ¬ source.Completes

/-- Before the `finally` block: billed, or failed, or still to be settled. -/
inductive Sound (s : Locals) : Prop where
  | billed (h : Billed source s)
  | errored (events : List Event) (hb : Bare source events) (hs : s.settled = true)
      (h : s.events = events ++ [.called .error])
  | unsettled (hb : Bare source s.events) (hs : s.settled = false) (h : s.settling = false)

/-- Before the `finally` block of a stream that was billed and then failed. -/
structure Slipped (s : Locals) : Prop where
  slips : source.Slips
  settled : s.settled = true
  events : ∃ callback, s.events = [.exhausted, .called callback, .called .error]

/-- A stream that slips is followed to its end where the consumer never leaves. -/
structure Handled (s : Locals) : Prop where
  sound : Sound source s ∨ Slipped source s
  slips : source.Slips → (∃ n, consumer n = true) ∨ Slipped source s

theorem Unbilled.stays {e : Exc} (h : Unbilled source consumer e s)
    (hs : source.Slips) : ∃ n, consumer n = true := by
  cases e with
  | error => exact absurd ⟨hs.1, hs.2.1⟩ (h.error rfl)
  | left => exact h.left rfl

theorem rescued_spec : ((body source consumer).rescue fun e =>
        if e = .error then some (failed source consumer) else none).Ends (start source)
      (fun _ => Handled source consumer) (fun _ => Handled source consumer) := by
  rw [ends_rescue]
  refine (body_spec source consumer).mono ?_ ?_
  · rintro _ s ⟨hb, hf⟩
    refine ⟨.inl (.billed hb), fun hs => ?_⟩
    obtain ⟨c, hc, hcf⟩ := hs.2.2.1
    simp [hf c hc] at hcf
  · intro e s h
    cases e with
    | left =>
      rcases h with h | h
      · exact ⟨.inl (.unsettled h.events h.settled h.settling), fun hs =>
          .inl (h.stays source consumer hs)⟩
      · exact ⟨.inl (.billed h.billed), fun _ => .inl (h.left rfl)⟩
    | error =>
      rcases h with h | h
      -- nothing was billed before the failure
      · have hnot : ¬ source.Slips := fun hs => h.error rfl ⟨hs.1, hs.2.1⟩
        refine (failed_spec source consumer s).mono ?_ ?_
        · intro _ s' hr
          exact ⟨.inl (.errored s.events h.events hr.settled hr.events), fun hs => absurd hs hnot⟩
        · rintro _ s' (hr | hm)
          · exact ⟨.inl (.errored s.events h.events hr.settled hr.events),
              fun hs => absurd hs hnot⟩
          · refine ⟨.inl (.unsettled ?_ (hm.quiet.settled.trans h.settled)
              (hm.quiet.settling.trans h.settling)), fun hs => absurd hs hnot⟩
            rw [hm.quiet.events]
            exact h.events
      -- the failure is of a held chunk of a stream that was billed
      · obtain ⟨hpasses, hheld, hf, -⟩ := h.error rfl
        obtain ⟨callback, -, hevents⟩ := h.billed.events
        have hslipped : ∀ s', Reported source s s' → Slipped source s' := by
          intro s' hr
          have hreports := hr.reports
          rw [Reports, hheld] at hreports
          refine ⟨⟨hpasses, h.billed.completes, hf, hreports⟩, hr.settled, callback, ?_⟩
          rw [hr.events, hevents]
          rfl
        refine (failed_spec source consumer s).mono ?_ ?_
        · intro _ s' hr
          exact ⟨.inr (hslipped s' hr), fun _ => .inr (hslipped s' hr)⟩
        · rintro e s' (hr | hm)
          · exact ⟨.inr (hslipped s' hr), fun _ => .inr (hslipped s' hr)⟩
          · refine ⟨.inl (.billed ?_), fun hs => .inl ?_⟩
            · obtain ⟨hsettled, hcompletes, c, hb, he⟩ := h.billed
              exact ⟨hm.quiet.settled.trans hsettled, hcompletes, c, hb,
                hm.quiet.events.trans he⟩
            · cases e with
              | error =>
                refine absurd ?_ (hm.error rfl)
                rw [Reports, hheld]
                exact hs.2.2.2
              | left => exact hm.left rfl

theorem bare_settles {events : List Event} {callback : Callback} (h : Bare source events)
    (hc : callback = .error ∨ callback = .incomplete) :
    SettlesOnce source (events ++ [.called callback]) := by
  have hcomplete : callback ≠ .complete := by rcases hc with rfl | rfl <;> simp
  have hnoUsage : callback ≠ .noUsage := by rcases hc with rfl | rfl <;> simp
  rcases h with rfl | ⟨rfl, hincomplete⟩
  · constructor <;> simp [hcomplete.symm, hnoUsage.symm]
  · constructor <;> simp [hcomplete.symm, hnoUsage.symm, hincomplete]

theorem billed_settles {callback : Callback} (h : Bills source callback)
    (hc : source.Completes) : SettlesOnce source [.exhausted, .called callback] := by
  rcases h with ⟨rfl, hu⟩ | ⟨rfl, hu⟩
  · constructor <;> simp [hc, hu]
  · constructor <;> simp [hc, hu]

/-- What is seen of a stream billed and then failed. -/
def SettlesTwice (events : List Event) : Prop :=
  ∃ callback, events = [.exhausted, .called callback, .called .error]

/-- What a whole run comes to. -/
structure Seen (events : List Event) : Prop where
  settles : SettlesOnce source events ∨ source.Slips ∧ SettlesTwice events
  slips : source.Slips → (∃ n, consumer n = true) ∨ SettlesTwice events

theorem Slipped.seen (h : Slipped source s) : Seen source consumer s.events :=
  ⟨.inr ⟨h.slips, h.events⟩, fun _ => .inr h.events⟩

theorem Sound.settles (h : Sound source s) : SettlesOnce source
    (if s.settled then s.events else s.events ++ [.called .incomplete]) := by
  cases h with
  | billed h =>
    obtain ⟨callback, hb, he⟩ := h.events
    rw [if_pos h.settled, he]
    exact billed_settles source hb h.completes
  | errored events hb hs h =>
    rw [if_pos hs, h]
    exact bare_settles source hb (.inl rfl)
  | unsettled hb hs _ =>
    simp only [hs, Bool.false_eq_true, if_false]
    exact bare_settles source hb (.inr rfl)

theorem Sound.ready (h : Sound source s) : s.settled = true ∨ s.settling = false := by
  cases h with
  | billed h => exact .inl h.settled
  | errored _ _ hs _ => exact .inl hs
  | unsettled _ _ h => exact .inr h

theorem run_seen : Seen source consumer (run source consumer) := by
  have hafter : ∀ s, Handled source consumer s → (cleanup source consumer).Ends s
      (fun _ s' => Seen source consumer s'.events)
      (fun _ s' => Seen source consumer s'.events) := by
    intro s h
    rcases h.sound with hs | hs
    · have hseen : ∀ s' : Locals, (s'.events = if s.settled then s.events else
          s.events ++ [.called .incomplete]) → Seen source consumer s'.events := by
        intro s' he
        rw [he]
        refine ⟨.inl hs.settles, fun hslips => (h.slips hslips).imp_right fun ht => ?_⟩
        rw [if_pos ht.settled]
        exact ht.events
      exact (cleanup_spec source consumer s hs.ready).mono (fun _ s' => hseen s')
        (fun _ s' => hseen s')
    · have hseen : ∀ s' : Locals, (s'.events = if s.settled then s.events else
          s.events ++ [.called .incomplete]) → Seen source consumer s'.events := by
        intro s' he
        rw [he, if_pos hs.settled]
        exact Slipped.seen source consumer hs
      exact (cleanup_spec source consumer s (.inl hs.settled)).mono (fun _ s' => hseen s')
        (fun _ s' => hseen s')
  have hends : (streamingGenerator source consumer).Ends (start source)
      (fun _ s => Seen source consumer s.events) (fun _ s => Seen source consumer s.events) := by
    rw [streamingGenerator, ends_ensure]
    exact (rescued_spec source consumer).mono (fun _ s h => hafter s h) (fun _ s h => hafter s h)
  exact hends.state

end

/-- **A streamed response settles exactly once**, whatever the consumer does, exactly where the
stream does not slip: a formatting that raises only once a stream is billed, and does not raise
again, has the error path bill it a second time. -/
theorem settles_once_iff (source : Source) :
    (∀ consumer, SettlesOnce source (run source consumer)) ↔ ¬ source.Slips := by
  constructor
  · intro h hs
    have hseen := (run_seen source fun _ => false).slips hs
    simp only [Bool.false_eq_true, exists_false, false_or] at hseen
    obtain ⟨callback, hrun⟩ := hseen
    obtain ⟨once, honce⟩ := (h fun _ => false).once
    rw [hrun] at honce
    simp at honce
  · intro hs consumer
    exact (run_seen source consumer).settles.resolve_right fun h => hs h.1

/-- A stream of one chunk, with usage, held as the cost carrier, which raises the first time it is
formatted. -/
def slippingStream : Source :=
  { pulls := [.chunk { usage := some true, carrier := some true, formats := false }] }

/-- Both `on_complete` and `on_error` are invoked of it. -/
theorem slipping_stream_settles_twice :
    ¬ ∀ (source : Source) (consumer : ℕ → Bool), SettlesOnce source (run source consumer) := by
  intro h
  obtain ⟨callback, honce⟩ := (h slippingStream fun _ => false).once
  have htwice : run slippingStream (fun _ => false) =
      [.exhausted, .called .complete, .called .error] := rfl
  rw [htwice] at honce
  simp at honce

end Otari.Streaming
