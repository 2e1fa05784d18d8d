import Otari.Streaming.Delivery

/-!
# Streaming — Delivered — the consumer gets the upstream's chunks

Between two chunks what was received is what was yielded and then what is held, a carrier and fewer
than four that followed it (`Held`).  An exception leaves it so, but for one raised where the buffer
is being yielded: what was yielded of it is still in the buffer, and the error path yields the buffer
again.  So the stream is delivered faithfully, whatever the consumer, unless it `Repeats`
(`delivers_iff`).
-/

namespace Otari.Delivery
open Raising List
open Raising.Program
open Streaming (Exc Ending maxTerminalBufferChunks)

variable {κ : Type}

def Output.toChunk : Output κ → Option κ
  | .chunk c => some c
  | _ => none

def Locals.chunks (s : Locals κ) : List κ := s.yielded.filterMap Output.toChunk

def Stays (consumer : ℕ → Bool) : Prop := ∀ n, consumer n = false

/-! ### Yields and awaits -/

/-- Chunks are yielded, and nothing else changes but the moments. -/
structure Emits (added : List κ) (s s' : Locals κ) : Prop where
  chunks : s'.chunks = s.chunks ++ added
  terminalBuffer : s'.terminalBuffer = s.terminalBuffer
  costCarrier : s'.costCarrier = s.costCarrier
  bufferingTerminal : s'.bufferingTerminal = s.bufferingTerminal
  completed : s'.completed = s.completed
  hasUsage : s'.hasUsage = s.hasUsage
  attached : s'.attached = s.attached
  bounded : s.terminalBuffer.length ≤ 4 → (∀ n ∈ s.withheld, n ≤ 4) → ∀ n ∈ s'.withheld, n ≤ 4

namespace Emits
variable {a b : List κ} {s s' s'' : Locals κ}

theorem refl (s : Locals κ) : Emits [] s s :=
  ⟨(append_nil _).symm, rfl, rfl, rfl, rfl, rfl, rfl, fun _ h => h⟩

theorem trans (h : Emits a s s') (h' : Emits b s' s'') : Emits (a ++ b) s s'' where
  chunks := by rw [h'.chunks, h.chunks, append_assoc]
  terminalBuffer := h'.terminalBuffer.trans h.terminalBuffer
  costCarrier := h'.costCarrier.trans h.costCarrier
  bufferingTerminal := h'.bufferingTerminal.trans h.bufferingTerminal
  completed := h'.completed.trans h.completed
  hasUsage := h'.hasUsage.trans h.hasUsage
  attached := h'.attached.trans h.attached
  bounded hlen hs := h'.bounded (h.terminalBuffer ▸ hlen) (h.bounded hlen hs)

end Emits

section
variable (source : Upstream κ) (consumer : ℕ → Bool)

theorem pause_spec (s : Locals κ) : (pause consumer).Ends s (fun _ s' => Emits [] s s')
      (fun e s' => Emits [] s s' ∧ e = .left ∧ ¬ Stays consumer) := by
  have hpaused : Emits [] s { s with withheld := s.withheld ++ [s.terminalBuffer.length] } := by
    refine ⟨(append_nil _).symm, rfl, rfl, rfl, rfl, rfl, rfl, fun hlen hs n hn => ?_⟩
    rcases mem_append.mp hn with hn | hn
    · exact hs n hn
    · rw [mem_singleton.mp hn]
      exact hlen
  simp only [pause, ends_bind, ends_read, ends_update, ends_ite, ends_raise, ends_pure]
  exact ⟨fun h => ⟨hpaused, trivial, fun hs =>
    absurd ((hs _).symm.trans h) Bool.false_ne_true⟩, fun _ => hpaused⟩

theorem attempt_spec (raises : Bool) (s : Locals κ) :
    (attempt raises).Ends s (fun _ s' => s' = s ∧ raises = false)
      (fun e s' => s' = s ∧ e = .error ∧ raises = true) := by
  cases raises with
  | true => exact ⟨rfl, rfl, rfl⟩
  | false => exact ⟨rfl, rfl⟩

theorem answer_spec (o : Option Bool) (s : Locals κ) :
    (answer o).Ends s (fun a s' => s' = s ∧ o = some a)
      (fun e s' => s' = s ∧ e = .error ∧ o = none) := by
  cases o with
  | some a => exact ⟨rfl, rfl⟩
  | none => exact ⟨rfl, rfl, rfl⟩

theorem emit_spec (output : Output κ) (s : Locals κ) :
    (emit consumer output).Ends s (fun _ s' => Emits output.toChunk.toList s s')
      (fun e s' => Emits output.toChunk.toList s s' ∧ e = .left ∧ ¬ Stays consumer) := by
  have hemitted : Emits output.toChunk.toList s { s with yielded := s.yielded ++ [output] } := by
    refine ⟨?_, rfl, rfl, rfl, rfl, rfl, rfl, fun _ hs => hs⟩
    unfold Locals.chunks
    cases output <;> simp [filterMap_append, Output.toChunk]
  simp only [emit, ends_bind, ends_update]
  refine (pause_spec consumer _).mono (fun _ s' h => ?_) (fun e s' h => ⟨?_, h.2⟩)
  · simpa using hemitted.trans h
  · simpa using hemitted.trans h.1

theorem yieldAll_spec (formats : κ → Bool) (chunks : List κ) (s : Locals κ) :
    (yieldAll consumer formats chunks).Ends s
      (fun _ s' => Emits chunks s s' ∧ ∀ chunk ∈ chunks, formats chunk = true)
      (fun e s' => ∃ done, done <+: chunks ∧ (∀ chunk ∈ done, formats chunk = true) ∧
        Emits done s s' ∧ (e = .left → ¬ Stays consumer) ∧
        (e = .error → done = chunks.takeWhile formats ∧ ∃ chunk ∈ chunks, formats chunk = false)) := by
  induction chunks generalizing s with
  | nil => exact ⟨.refl s, by simp⟩
  | cons chunk chunks ih =>
    simp only [yieldAll, ends_bind]
    refine (attempt_spec _ s).mono ?_ ?_
    · rintro _ _ ⟨rfl, hf⟩
      have hformats : formats chunk = true := by simpa using hf
      refine (emit_spec consumer _ _).mono (fun _ s₁ h₁ => ?_) (fun e s₁ h₁ => ?_)
      · refine (ih s₁).mono ?_ ?_
        · rintro _ s' ⟨h, hall⟩
          exact ⟨h₁.trans h, forall_mem_cons.mpr ⟨hformats, hall⟩⟩
        · rintro e s' ⟨done, hdone, hall, h, hleft, herror⟩
          refine ⟨chunk :: done, cons_prefix_cons.mpr ⟨rfl, hdone⟩,
            forall_mem_cons.mpr ⟨hformats, hall⟩, h₁.trans h, hleft, ?_⟩
          intro he
          obtain ⟨rfl, bad, hbad, hraises⟩ := herror he
          rw [takeWhile_cons_of_pos hformats]
          exact ⟨rfl, bad, mem_cons_of_mem _ hbad, hraises⟩
      · obtain ⟨h₁, rfl, hstays⟩ := h₁
        exact ⟨[chunk], cons_prefix_cons.mpr ⟨rfl, nil_prefix⟩,
          forall_mem_singleton.mpr hformats, h₁, fun _ => hstays,
          fun he => (by cases he)⟩
    · rintro _ _ ⟨rfl, rfl, hf⟩
      have hraises : formats chunk = false := by simpa using hf
      refine ⟨[], nil_prefix, by simp, .refl _, fun he => (by cases he), fun _ => ?_⟩
      rw [takeWhile_cons_of_neg (by simp [hraises])]
      exact ⟨rfl, chunk, mem_cons_self, hraises⟩

theorem flush_spec (formats : κ → Bool) (s : Locals κ) : (flush consumer formats).Ends s
      (fun _ s' => ∃ s₁, Emits s.terminalBuffer s s₁ ∧ s' = { s₁ with terminalBuffer := [] } ∧
        ∀ chunk ∈ s.terminalBuffer, formats chunk = true)
      (fun e s' => ∃ done, done <+: s.terminalBuffer ∧ (∀ chunk ∈ done, formats chunk = true) ∧
        Emits done s s' ∧ (e = .left → ¬ Stays consumer) ∧
        (e = .error → done = s.terminalBuffer.takeWhile formats ∧
          ∃ chunk ∈ s.terminalBuffer, formats chunk = false)) := by
  simp only [flush, ends_bind, ends_read, ends_update]
  refine (yieldAll_spec consumer formats _ s).mono ?_ (fun _ _ h => h)
  rintro _ s₁ ⟨h, hall⟩
  exact ⟨s₁, h, rfl, hall⟩

end

/-! ### What the upstream sends -/

def chunksOf : List (Pull κ) → List κ
  | [] => []
  | .idle :: pulls => chunksOf pulls
  | .chunk c :: pulls => c :: chunksOf pulls

namespace Upstream
variable (source : Upstream κ)

def chunks : List κ := chunksOf source.pulls

/-- No function asked of the chunk raises before it is formatted. -/
def Fine (chunk : κ) : Prop :=
  (source.checksCompletion = true → (source.completes chunk).isSome) ∧
    (source.usage chunk).isSome ∧ (source.carrier chunk).isSome

/-- The completion test's answer after these chunks. -/
def completesAfter (received : List κ) : Bool :=
  !source.checksCompletion ||
    received.getLast?.elim false fun chunk => source.completes chunk == some true

/-- A carrier, and what followed it: no other carrier. -/
structure Carries (received pre : List κ) (carrier : κ) (followers : List κ) : Prop where
  split : received = pre ++ carrier :: followers
  carrier : source.carrier carrier = some true
  followers : ∀ chunk ∈ followers, source.carrier chunk ≠ some true

/-- The last carrier of these chunks, where fewer than four followed it. -/
def HeldCarrier (received : List κ) (carrier : κ) : Prop :=
  ∃ pre followers, source.Carries received pre carrier followers ∧ followers.length < 4

/-- Where a carrier's buffer is yielded while the stream goes well: another carrier comes, or one
chunk too many, or the stream ends complete. -/
def FlushedBy (followers post : List κ) : Prop :=
  (∃ next rest, post = next :: rest ∧ source.Fine next ∧
      (source.carrier next = some true ∨ followers.length = 3)) ∨
    post = [] ∧ source.ending = .exhausted ∧ source.completesAfter source.chunks = true

/-- A carrier is yielded, and then a chunk held with it raises, the first exception of the stream. -/
def FlushBreaks (carrier : κ) : Prop :=
  ∃ pre followers post, source.chunks = pre ++ carrier :: followers ++ post ∧
    source.Carries (pre ++ carrier :: followers) pre carrier followers ∧ followers.length < 4 ∧
    (∀ chunk ∈ pre ++ carrier :: followers, source.Fine chunk) ∧
    (∀ chunk ∈ pre, source.formats chunk = true) ∧ source.formats carrier = true ∧
    (∃ chunk ∈ followers, source.formats chunk = false) ∧ source.FlushedBy followers post

/-- The error path then yields that carrier again. -/
def Repeats : Prop := ∃ carrier, source.FlushBreaks carrier ∧ source.reformats carrier = true

end Upstream

/-! ### Between two chunks -/

/-- What is held: nothing, or a carrier and fewer than four chunks that followed it. -/
inductive Holds (source : Upstream κ) (received : List κ) (s : Locals κ) : Prop where
  | nothing (buffering : s.bufferingTerminal = false) (buffer : s.terminalBuffer = [])
      (carrier : s.costCarrier = none) (chunks : s.chunks = received)
      (none : ∀ c, ¬ source.HeldCarrier received c)
  | carrier {pre : List κ} {c : κ} {followers : List κ}
      (carries : source.Carries received pre c followers) (few : followers.length < 4)
      (buffering : s.bufferingTerminal = true) (buffer : s.terminalBuffer = c :: followers)
      (carrier : s.costCarrier = some c) (chunks : s.chunks = pre)

/-- Every call of `attach_settlement` was with the last carrier, if fewer than four chunks followed
it, and with none otherwise. -/
def Attaches (source : Upstream κ) (s : Locals κ) : Prop :=
  ∀ call ∈ s.attached, ∀ c, call = some c ↔ source.HeldCarrier source.chunks c

theorem Attaches.of_eq {source : Upstream κ} {s s' : Locals κ} (h : Attaches source s)
    (he : s'.attached = s.attached) : Attaches source s' :=
  fun call hcall => h call (he ▸ hcall)

/-- What is held and what was yielded, nothing having raised. -/
structure Holding (source : Upstream κ) (received : List κ) (s : Locals κ) : Prop where
  holds : Holds source received s
  formats : ∀ chunk ∈ s.chunks, source.formats chunk = true
  attached : Attaches source s
  bounded : ∀ n ∈ s.withheld, n ≤ 4

/-- The state between two chunks. -/
structure Held (source : Upstream κ) (received : List κ) (s : Locals κ) : Prop
    extends Holding source received s where
  fine : ∀ chunk ∈ received, source.Fine chunk
  completed : s.completed = source.completesAfter received
  usage : s.hasUsage = received.any fun chunk => source.usage chunk == some true
  unattached : s.attached = []

section
variable {source : Upstream κ} {received : List κ} {s s' : Locals κ}

namespace Holding

theorem split (h : Holding source received s) : received = s.chunks ++ s.terminalBuffer := by
  cases h.holds with
  | nothing _ hbuffer _ hchunks _ => rw [hbuffer, hchunks, append_nil]
  | carrier hcarries _ _ hbuffer _ hchunks => rw [hbuffer, hchunks, hcarries.split]

theorem length_le (h : Holding source received s) : s.terminalBuffer.length ≤ 4 := by
  cases h.holds with
  | nothing _ hbuffer _ _ _ => simp [hbuffer]
  | carrier _ hfew _ hbuffer _ _ =>
    rw [hbuffer, length_cons]
    exact hfew

theorem moves (h : Holding source received s) (he : Emits [] s s') :
    Holding source received s' where
  holds := by
    have hchunks := he.chunks
    rw [append_nil] at hchunks
    cases h.holds with
    | nothing hbuffering hbuffer hcarrier hc hnone =>
      exact .nothing (he.bufferingTerminal.trans hbuffering) (he.terminalBuffer.trans hbuffer)
        (he.costCarrier.trans hcarrier) (hchunks.trans hc) hnone
    | carrier hcarries hfew hbuffering hbuffer hcarrier hc =>
      exact .carrier hcarries hfew (he.bufferingTerminal.trans hbuffering)
        (he.terminalBuffer.trans hbuffer) (he.costCarrier.trans hcarrier) (hchunks.trans hc)
  formats := by
    rw [he.chunks, append_nil]
    exact h.formats
  attached := h.attached.of_eq he.attached
  bounded := he.bounded h.length_le h.bounded

end Holding

theorem Held.moves (h : Held source received s) (he : Emits [] s s') : Held source received s' where
  toHolding := h.toHolding.moves he
  fine := h.fine
  completed := he.completed.trans h.completed
  usage := he.hasUsage.trans h.usage
  unattached := he.attached.trans h.unattached

end

theorem held_start (source : Upstream κ) :
    Held source [] { completed := !source.checksCompletion } where
  holds := .nothing rfl rfl rfl rfl (by
    rintro c ⟨pre, followers, ⟨hsplit, -, -⟩, -⟩
    exact absurd hsplit.symm (by simp))
  formats := by simp [Locals.chunks]
  attached := by simp [Attaches]
  bounded := by simp
  fine := by simp
  completed := by simp [Upstream.completesAfter]
  usage := rfl
  unattached := rfl

/-- Where an exception is raised: what was yielded is in order, and then perhaps part of the buffer,
which for an error is a broken flush. -/
structure Broken (source : Upstream κ) (consumer : ℕ → Bool) (e : Exc) (s : Locals κ) : Prop where
  bounded : ∀ n ∈ s.withheld, n ≤ 4
  length_le : s.terminalBuffer.length ≤ 4
  attached : Attaches source s
  left : e = .left → ¬ Stays consumer
  yields : ∃ released done, s.chunks = released ++ done ∧
    released ++ s.terminalBuffer <+: source.chunks ∧ done <+: s.terminalBuffer ∧
    (e = .error → done ≠ [] → ∃ c, s.terminalBuffer.head? = some c ∧ source.FlushBreaks c)

def Locals.releases (source : Upstream κ) (s : Locals κ) (chunk : κ) : List κ :=
  if source.carrier chunk = some true then s.terminalBuffer
  else if s.bufferingTerminal then
    if maxTerminalBufferChunks ≤ s.terminalBuffer.length then s.terminalBuffer ++ [chunk] else []
  else [chunk]

def Clear (source : Upstream κ) (s : Locals κ) (chunk : κ) : Prop :=
  source.Fine chunk ∧ ∀ c ∈ s.releases source chunk, source.formats c = true

section
variable {source : Upstream κ} (consumer : ℕ → Bool) {received rest : List κ} {chunk : κ}

theorem Holding.broken {s : Locals κ} (h : Holding source received s)
    (hreceived : received <+: source.chunks) {e : Exc} (hleft : e = .left → ¬ Stays consumer) :
    Broken source consumer e s where
  bounded := h.bounded
  length_le := h.length_le
  attached := h.attached
  left := hleft
  yields := ⟨s.chunks, [], (append_nil _).symm, h.split ▸ hreceived, nil_prefix,
    fun _ hne => absurd rfl hne⟩

theorem flush_held {s : Locals κ} (h : Holding source received s)
    (hfine : ∀ c ∈ received, source.Fine c) {post : List κ} (hsplit : source.chunks = received ++ post)
    (hby : ∀ c followers, s.terminalBuffer = c :: followers → source.FlushedBy followers post) :
    (flush consumer source.formats).Ends s
      (fun _ s' => ∃ s₁, Emits s.terminalBuffer s s₁ ∧ s' = { s₁ with terminalBuffer := [] } ∧
        ∀ c ∈ s.terminalBuffer, source.formats c = true)
      (fun e s' => Broken source consumer e s' ∧ (e = .error →
        s'.terminalBuffer = s.terminalBuffer ∧
        s'.chunks = s.chunks ++ s.terminalBuffer.takeWhile source.formats ∧
        ∃ c ∈ s.terminalBuffer, source.formats c = false)) := by
  refine (flush_spec consumer source.formats s).mono (fun _ _ h => h) ?_
  rintro e s' ⟨done, hdone, -, he, hleft, herror⟩
  refine ⟨⟨he.bounded h.length_le h.bounded, he.terminalBuffer ▸ h.length_le,
    h.attached.of_eq he.attached, hleft, ?_⟩, ?_⟩
  · refine ⟨s.chunks, done, he.chunks, ?_, he.terminalBuffer ▸ hdone, fun hee hne => ?_⟩
    · rw [he.terminalBuffer, ← h.split, hsplit]
      exact prefix_append ..
    · obtain ⟨rfl, c, hc, hraises⟩ := herror hee
      rw [he.terminalBuffer]
      cases h.holds with
      | nothing _ hbuffer _ _ _ =>
        rw [hbuffer] at hc
        cases hc
      | @carrier pre first followers hcarries hfew _ hbuffer _ hchunks =>
        rw [hbuffer] at hne hc ⊢
        have hfirst : source.formats first = true := by
          by_contra hraise
          exact hne (takeWhile_cons_of_neg hraise)
        refine ⟨first, rfl, pre, followers, post, ?_, ?_, hfew, ?_, ?_, hfirst, ?_,
          hby first followers hbuffer⟩
        · rw [hsplit, hcarries.split]
        · exact hcarries.split ▸ hcarries
        · exact hcarries.split ▸ hfine
        · exact hchunks ▸ h.formats
        · rcases mem_cons.mp hc with rfl | hc
          · rw [hfirst] at hraises
            cases hraises
          · exact ⟨c, hc, hraises⟩
  · intro hee
    obtain ⟨rfl, hbad⟩ := herror hee
    exact ⟨he.terminalBuffer, he.chunks, hbad⟩

end

/-! ### The last carrier -/

namespace Upstream
variable {source : Upstream κ} {received pre pre' : List κ} {carrier carrier' chunk : κ}
  {followers followers' : List κ}

theorem Carries.unique (h : source.Carries received pre carrier followers)
    (h' : source.Carries received pre' carrier' followers') :
    carrier = carrier' ∧ followers = followers' := by
  classical
  have htake : ∀ {pre c fs}, source.Carries received pre c fs →
      received.reverse.takeWhile (fun d => source.carrier d ≠ some true) = fs.reverse ∧
      received.reverse.dropWhile (fun d => source.carrier d ≠ some true) = c :: pre.reverse := by
    intro pre c fs h
    have hreverse : received.reverse = fs.reverse ++ c :: pre.reverse := by
      rw [h.split]
      simp
    have hfs : ∀ d ∈ fs.reverse, decide (source.carrier d ≠ some true) = true :=
      fun d hd => decide_eq_true (h.followers d (mem_reverse.mp hd))
    rw [hreverse, takeWhile_append_of_pos hfs, dropWhile_append_of_pos hfs,
      takeWhile_cons_of_neg (by simp [h.carrier]),
      dropWhile_cons_of_neg (by simp [h.carrier]), append_nil]
    exact ⟨rfl, rfl⟩
  obtain ⟨hfollowers, hcarrier⟩ := htake h
  obtain ⟨hfollowers', hcarrier'⟩ := htake h'
  rw [hfollowers'] at hfollowers
  rw [hcarrier'] at hcarrier
  exact ⟨(List.cons.inj hcarrier).1.symm, (reverse_inj.mp hfollowers).symm⟩

theorem Carries.concat (h : source.Carries received pre carrier followers)
    (hchunk : source.carrier chunk ≠ some true) :
    source.Carries (received ++ [chunk]) pre carrier (followers ++ [chunk]) where
  split := by rw [h.split, append_assoc, cons_append]
  carrier := h.carrier
  followers c hc := by
    rcases mem_append.mp hc with hc | hc
    · exact h.followers c hc
    · rw [mem_singleton.mp hc]
      exact hchunk

theorem Carries.of_concat (h : source.Carries (received ++ [chunk]) pre carrier followers)
    (hchunk : source.carrier chunk ≠ some true) : ∃ followers', followers = followers' ++ [chunk] ∧
      source.Carries received pre carrier followers' := by
  rcases eq_nil_or_concat' followers with rfl | ⟨followers', last, rfl⟩
  · have hlast := h.split
    obtain ⟨-, heq⟩ := append_inj' hlast rfl
    obtain rfl := singleton_inj.mp heq
    exact absurd h.carrier hchunk
  · have hlast := h.split
    rw [← cons_append, ← append_assoc] at hlast
    obtain ⟨hinit, heq⟩ := append_inj' hlast rfl
    obtain rfl := singleton_inj.mp heq
    exact ⟨followers', rfl, hinit, h.carrier, fun c hc => h.followers c (by simp [hc])⟩

end Upstream

/-! ### One chunk -/

/-- Whether a chunk has what is held yielded. -/
def Locals.Flushing (source : Upstream κ) (s : Locals κ) (chunk : κ) : Prop :=
  source.carrier chunk = some true ∨
    s.bufferingTerminal = true ∧ maxTerminalBufferChunks ≤ s.terminalBuffer.length

/-- A flush that breaks leaves the buffer as it was, with what was yielded of it yielded. -/
def BreaksFlush (source : Upstream κ) (s s' : Locals κ) : Prop :=
  s'.terminalBuffer = s.terminalBuffer ∧
    s'.chunks = s.chunks ++ s.terminalBuffer.takeWhile source.formats

/-- A chunk was taken: what the generator holds of the chunks received, and what it released formats. -/
def Took (source : Upstream κ) (received : List κ) (chunk : κ) (s s' : Locals κ) : Prop :=
  Holding source (received ++ [chunk]) s' ∧ (source.carrier chunk).isSome ∧
    (∀ c ∈ s.releases source chunk, source.formats c = true) ∧
    s'.completed = s.completed ∧ s'.hasUsage = s.hasUsage ∧ s'.attached = s.attached

/-- It was not, with nothing received lost. -/
def Dropped (source : Upstream κ) (consumer : ℕ → Bool) (chunk : κ) (s : Locals κ) (e : Exc)
    (s' : Locals κ) : Prop :=
  Broken source consumer e s' ∧ (e = .error → ¬ Clear source s chunk) ∧
    (e = .error → (source.carrier chunk).isSome → s.Flushing source chunk →
      (∃ c ∈ s.terminalBuffer, source.formats c = false) → BreaksFlush source s s')

section
variable {source : Upstream κ} (consumer : ℕ → Bool) {received rest : List κ} {chunk : κ}

variable {s : Locals κ}

/-- A carrier takes the place of what was held. -/
theorem heldBy_carrier_spec (h : Holding source received s) (hfine : ∀ c ∈ received, source.Fine c)
    (hchunk : source.Fine chunk) (hsplit : source.chunks = received ++ chunk :: rest)
    (hcarrier : source.carrier chunk = some true) :
    (flush consumer source.formats).Ends s
      (fun _ s' => Took source received chunk s { s' with
        terminalBuffer := [chunk]
        costCarrier := some chunk
        bufferingTerminal := true })
      (Dropped source consumer chunk s) := by
  have hreleases : s.releases source chunk = s.terminalBuffer := if_pos hcarrier
  refine (flush_held consumer h hfine hsplit fun _ _ _ =>
    .inl ⟨chunk, rest, rfl, hchunk, .inl hcarrier⟩).mono ?_ ?_
  · rintro _ _ ⟨s₁, he, rfl, hall⟩
    refine ⟨⟨?_, ?_, h.attached.of_eq he.attached, he.bounded h.length_le h.bounded⟩, hchunk.2.2,
      hreleases ▸ hall, he.completed, he.hasUsage, he.attached⟩
    · refine .carrier ⟨rfl, hcarrier, by simp⟩ (by simp) rfl rfl rfl ?_
      exact he.chunks.trans h.split.symm
    · intro c hcmem
      have hmem : c ∈ s.chunks ++ s.terminalBuffer := he.chunks ▸ hcmem
      exact (mem_append.mp hmem).elim (h.formats c) (hall c)
  · rintro e s' ⟨hbroken, herror⟩
    refine ⟨hbroken, fun hee hclear => ?_, fun hee _ _ _ => ?_⟩
    · obtain ⟨-, -, c, hcmem, hraises⟩ := herror hee
      rw [hclear.2 c (hreleases ▸ hcmem)] at hraises
      cases hraises
    · exact ⟨(herror hee).1, (herror hee).2.1⟩

/-- Too much is held: it is yielded, and the chunk after it. -/
theorem full_spec (h : Holding source received s) (hfine : ∀ c ∈ received, source.Fine c)
    (hchunk : source.Fine chunk) (hsplit : source.chunks = received ++ chunk :: rest)
    (hcarrier : source.carrier chunk ≠ some true) (hb : s.bufferingTerminal = true)
    (hlen : maxTerminalBufferChunks ≤ s.terminalBuffer.length) :
    (flush consumer source.formats).Ends s
      (fun _ s' => (yieldAll consumer source.formats [chunk]).Ends
        { s' with costCarrier := none, bufferingTerminal := false }
        (fun _ => Took source received chunk s) (Dropped source consumer chunk s))
      (Dropped source consumer chunk s) := by
  have hprefix' : received ++ [chunk] <+: source.chunks := ⟨rest, by simp [hsplit]⟩
  have hreleases : s.releases source chunk = s.terminalBuffer ++ [chunk] := by
    rw [Locals.releases, if_neg hcarrier, if_pos hb, if_pos hlen]
  cases h.holds with
  | nothing hbuffering _ _ _ _ => rw [hbuffering] at hb; cases hb
  | @carrier pre first followers hcarries hfew _ hbuffer _ hchunks =>
    -- the carrier and the three chunks after it fill the buffer
    have hthree : followers.length = 3 := by
      rw [hbuffer, length_cons] at hlen
      unfold maxTerminalBufferChunks at hlen
      omega
    refine (flush_held consumer h hfine hsplit fun c fs heq =>
      .inl ⟨chunk, rest, rfl, hchunk, .inr ?_⟩).mono ?_ ?_
    · rw [hbuffer] at heq
      cases heq
      exact hthree
    · rintro _ _ ⟨s₁, he, rfl, hall⟩
      -- more followed the carrier than are ever held, so no carrier is held from here on
      have hnone : ∀ c, ¬ source.HeldCarrier (received ++ [chunk]) c := by
        rintro c ⟨pre', fs, hlast, hlt⟩
        obtain ⟨fs', rfl, hearlier⟩ := hlast.of_concat hcarrier
        obtain ⟨-, rfl⟩ := hcarries.unique hearlier
        rw [length_append, length_singleton] at hlt
        omega
      have hflushed : s₁.chunks = received := he.chunks.trans h.split.symm
      refine (yieldAll_spec consumer source.formats [chunk] _).mono ?_ ?_
      · rintro _ s' ⟨he', hall'⟩
        refine ⟨⟨.nothing he'.bufferingTerminal he'.terminalBuffer he'.costCarrier ?_ hnone,
          ?_, ?_, ?_⟩, hchunk.2.2, ?_, he'.completed.trans he.completed,
          he'.hasUsage.trans he.hasUsage, he'.attached.trans he.attached⟩
        · exact he'.chunks.trans (congrArg (· ++ [chunk]) hflushed)
        · intro c hcmem
          have hmem : c ∈ (s.chunks ++ s.terminalBuffer) ++ [chunk] := by
            rw [← he.chunks]
            exact he'.chunks ▸ hcmem
          rcases mem_append.mp hmem with hmem | hmem
          · exact (mem_append.mp hmem).elim (h.formats c) (hall c)
          · exact hall' c hmem
        · exact h.attached.of_eq (he'.attached.trans he.attached)
        · exact he'.bounded (Nat.zero_le _) (he.bounded h.length_le h.bounded)
        · rw [hreleases]
          exact fun c hcmem => (mem_append.mp hcmem).elim (hall c) (hall' c)
      · rintro e s' ⟨done, hdone, -, he', hleft, herror⟩
        have hbuffer' : s'.terminalBuffer = [] := he'.terminalBuffer
        have hchunks' : s'.chunks = received ++ done := by
          rw [he'.chunks]
          exact congrArg (· ++ done) hflushed
        refine ⟨⟨he'.bounded (Nat.zero_le _) (he.bounded h.length_le h.bounded), ?_, ?_, hleft,
          received ++ done, [], (hchunks'.trans (append_nil _).symm), ?_,
          nil_prefix, fun _ hne => absurd rfl hne⟩, fun hee hclear => ?_,
          fun hee _ _ hbad => ?_⟩
        · rw [hbuffer']
          exact Nat.zero_le _
        · exact h.attached.of_eq (he'.attached.trans he.attached)
        · rw [hbuffer', append_nil]
          exact ((prefix_append_right_inj received).mpr hdone).trans hprefix'
        · obtain ⟨-, c, hcmem, hraises⟩ := herror hee
          rw [hclear.2 c (hreleases ▸ mem_append_right _ hcmem)] at hraises
          cases hraises
        · obtain ⟨c, hcmem, hraises⟩ := hbad
          rw [hall c hcmem] at hraises
          cases hraises
    · rintro e s' ⟨hbroken, herror⟩
      refine ⟨hbroken, fun hee hclear => ?_, fun hee _ _ _ => ?_⟩
      · obtain ⟨-, -, c, hcmem, hraises⟩ := herror hee
        rw [hclear.2 c (hreleases ▸ mem_append_left _ hcmem)] at hraises
        cases hraises
      · exact ⟨(herror hee).1, (herror hee).2.1⟩

/-- The chunk is held behind a carrier. -/
theorem held_spec (h : Holding source received s) (hchunk : source.Fine chunk)
    (hcarrier : source.carrier chunk ≠ some true) (hb : s.bufferingTerminal = true)
    (hlen : ¬ maxTerminalBufferChunks ≤ s.terminalBuffer.length) :
    Took source received chunk s { s with terminalBuffer := s.terminalBuffer ++ [chunk] } := by
  have hreleases : s.releases source chunk = [] := by
    rw [Locals.releases, if_neg hcarrier, if_pos hb, if_neg hlen]
  cases h.holds with
  | nothing hbuffering _ _ _ _ => rw [hbuffering] at hb; cases hb
  | carrier hcarries hfew hbuffering hbuffer hcost hchunks =>
    refine ⟨⟨.carrier (hcarries.concat hcarrier) ?_ hbuffering ?_ hcost hchunks, h.formats,
      h.attached, h.bounded⟩, hchunk.2.2, by simp [hreleases], rfl, rfl, rfl⟩
    · rw [hbuffer, length_cons] at hlen
      unfold maxTerminalBufferChunks at hlen
      rw [length_append, length_singleton]
      omega
    · rw [hbuffer]
      rfl

/-- Nothing is held, and the chunk is yielded. -/
theorem passed_spec (h : Holding source received s) (hchunk : source.Fine chunk)
    (hsplit : source.chunks = received ++ chunk :: rest)
    (hcarrier : source.carrier chunk ≠ some true) (hb : ¬ s.bufferingTerminal = true) :
    (yieldAll consumer source.formats [chunk]).Ends s (fun _ => Took source received chunk s)
      (Dropped source consumer chunk s) := by
  have hprefix' : received ++ [chunk] <+: source.chunks := ⟨rest, by simp [hsplit]⟩
  have hreleases : s.releases source chunk = [chunk] := by
    rw [Locals.releases, if_neg hcarrier, if_neg hb]
  cases h.holds with
  | carrier _ _ hbuffering _ _ _ => exact absurd hbuffering hb
  | nothing hbuffering hbuffer hcost hchunks hnone =>
    have hnone' : ∀ c, ¬ source.HeldCarrier (received ++ [chunk]) c := by
      rintro c ⟨pre, fs, hlast, hlt⟩
      obtain ⟨fs', rfl, hearlier⟩ := hlast.of_concat hcarrier
      rw [length_append, length_singleton] at hlt
      exact hnone c ⟨pre, fs', hearlier, by omega⟩
    refine (yieldAll_spec consumer source.formats [chunk] s).mono ?_ ?_
    · rintro _ s' ⟨he, hall⟩
      refine ⟨⟨.nothing (he.bufferingTerminal.trans hbuffering)
        (he.terminalBuffer.trans hbuffer) (he.costCarrier.trans hcost) ?_ hnone', ?_,
        h.attached.of_eq he.attached, he.bounded h.length_le h.bounded⟩, hchunk.2.2,
        hreleases ▸ hall, he.completed, he.hasUsage, he.attached⟩
      · rw [he.chunks, hchunks]
      · intro c hcmem
        rw [he.chunks] at hcmem
        exact (mem_append.mp hcmem).elim (h.formats c) (hall c)
    · rintro e s' ⟨done, hdone, -, he, hleft, herror⟩
      refine ⟨⟨he.bounded h.length_le h.bounded, he.terminalBuffer ▸ h.length_le, ?_, hleft,
        received ++ done, [], ?_, ?_, nil_prefix, fun _ hne => absurd rfl hne⟩,
        fun hee hclear => ?_, fun hee _ hflushing => ?_⟩
      · exact h.attached.of_eq he.attached
      · rw [he.chunks, hchunks, append_nil]
      · rw [he.terminalBuffer, hbuffer, append_nil]
        exact ((prefix_append_right_inj received).mpr hdone).trans hprefix'
      · obtain ⟨-, c, hcmem, hraises⟩ := herror hee
        rw [hclear.2 c (hreleases ▸ hcmem)] at hraises
        cases hraises
      · rcases hflushing with hcarries | ⟨hbuffers, -⟩
        · exact absurd hcarries hcarrier
        · exact absurd hbuffers hb

theorem holdOrYield_spec (h : Holding source received s) (hfine : ∀ c ∈ received, source.Fine c)
    (hasked : (source.checksCompletion = true → (source.completes chunk).isSome) ∧
      (source.usage chunk).isSome) (hsplit : source.chunks = received ++ chunk :: rest) :
    (holdOrYield source consumer chunk).Ends s (fun _ => Took source received chunk s)
      (Dropped source consumer chunk s) := by
  have hprefix : received <+: source.chunks := hsplit ▸ prefix_append ..
  simp only [holdOrYield, ends_bind, ends_ite, ends_read, ends_update]
  refine (answer_spec _ s).mono ?_ ?_
  · rintro carrier s ⟨rfl, hc⟩
    have hchunk : source.Fine chunk := ⟨hasked.1, hasked.2, by simp [hc]⟩
    refine ⟨fun ht => heldBy_carrier_spec consumer h hfine hchunk hsplit (by rw [hc, ht]),
      fun ht => ?_⟩
    have hcarrier : source.carrier chunk ≠ some true := by simp [hc, ht]
    exact ⟨fun hb => ⟨full_spec consumer h hfine hchunk hsplit hcarrier hb,
      held_spec h hchunk hcarrier hb⟩, passed_spec consumer h hchunk hsplit hcarrier⟩
  · rintro e s ⟨rfl, rfl, hc⟩
    refine ⟨h.broken consumer hprefix fun he => (by cases he), fun _ hclear => ?_,
      fun _ hsome => ?_⟩
    · simpa [hc] using hclear.1.2.2
    · simp [hc] at hsome

theorem noteCompletion_spec (source : Upstream κ) (chunk : κ) (s : Locals κ) :
    (noteCompletion source chunk).Ends s
      (fun _ s' => (source.checksCompletion = true → (source.completes chunk).isSome) ∧
        s' = { s with completed :=
          if source.checksCompletion then source.completes chunk == some true else s.completed })
      (fun e s' => s' = s ∧ e = .error ∧ ¬ source.Fine chunk) := by
  by_cases hs : source.checksCompletion = true
  · simp only [noteCompletion, hs, if_true, ends_bind, ends_update]
    refine (answer_spec _ s).mono ?_ ?_
    · rintro a _ ⟨rfl, ha⟩
      simp [ha]
    · rintro _ _ ⟨rfl, rfl, ha⟩
      exact ⟨rfl, rfl, fun hf => by simpa [ha] using hf.1 hs⟩
  · simp [noteCompletion, hs]

theorem noteUsage_spec (source : Upstream κ) (chunk : κ) (s : Locals κ) :
    (noteUsage source chunk).Ends s (fun _ s' => (source.usage chunk).isSome ∧
        s' = { s with hasUsage := s.hasUsage || source.usage chunk == some true })
      (fun e s' => s' = s ∧ e = .error ∧ ¬ source.Fine chunk) := by
  simp only [noteUsage, ends_bind, ends_update]
  refine (answer_spec _ s).mono ?_ ?_
  · rintro a _ ⟨rfl, ha⟩
    simp [ha]
  · rintro _ _ ⟨rfl, rfl, ha⟩
    exact ⟨rfl, rfl, fun hf => by simpa [ha] using hf.2.1⟩

theorem Holding.noted (h : Holding source received s) (completed hasUsage : Bool) :
    Holding source received { s with completed := completed, hasUsage := hasUsage } where
  holds := by
    cases h.holds with
    | nothing hbuffering hbuffer hcarrier hchunks hnone =>
      exact .nothing hbuffering hbuffer hcarrier hchunks hnone
    | carrier hcarries hfew hbuffering hbuffer hcarrier hchunks =>
      exact .carrier hcarries hfew hbuffering hbuffer hcarrier hchunks
  formats := h.formats
  attached := h.attached
  bounded := h.bounded

theorem takeChunk_spec (h : Held source received s)
    (hsplit : source.chunks = received ++ chunk :: rest) : (takeChunk source consumer chunk).Ends s
      (fun _ s' => Held source (received ++ [chunk]) s' ∧ Clear source s chunk)
      (fun e s' => Broken source consumer e s' ∧ (e = .error → ¬ Clear source s chunk) ∧
        (e = .error → source.Fine chunk → s.Flushing source chunk →
          (∃ c ∈ s.terminalBuffer, source.formats c = false) → BreaksFlush source s s')) := by
  have hprefix : received <+: source.chunks := hsplit ▸ prefix_append ..
  simp only [takeChunk, ends_bind]
  refine (noteCompletion_spec source chunk s).mono ?_ ?_
  · rintro _ s₁ ⟨hcompletes, rfl⟩
    refine (noteUsage_spec source chunk _).mono ?_ ?_
    · rintro _ s₂ ⟨husage, rfl⟩
      refine (holdOrYield_spec consumer (h.toHolding.noted _ _) h.fine ⟨hcompletes, husage⟩
        hsplit).mono ?_ ?_
      · rintro _ s' ⟨hholding, hcarrier, hformats, hcompleted, hhasUsage, hattached⟩
        have hfine : source.Fine chunk := ⟨hcompletes, husage, hcarrier⟩
        refine ⟨⟨hholding, fun c hc => ?_, ?_, ?_, hattached.trans h.unattached⟩, hfine, hformats⟩
        · rcases mem_append.mp hc with hc | hc
          · exact h.fine c hc
          · rw [mem_singleton.mp hc]
            exact hfine
        · rw [hcompleted]
          by_cases hs : source.checksCompletion = true
          · simp [Upstream.completesAfter, hs]
          · simp [Upstream.completesAfter, hs, h.completed]
        · rw [hhasUsage, any_append]
          simp [h.usage]
      · rintro e s' ⟨hbroken, hclear, hbreaks⟩
        exact ⟨hbroken, hclear, fun hee hfine => hbreaks hee hfine.2.2⟩
    · rintro e _ ⟨rfl, rfl, hfine⟩
      exact ⟨(h.toHolding.noted _ _).broken consumer hprefix fun he => (by cases he),
        fun _ hclear => hfine hclear.1, fun _ hf => absurd hf hfine⟩
  · rintro e s ⟨rfl, rfl, hfine⟩
    exact ⟨h.toHolding.broken consumer hprefix fun he => (by cases he),
      fun _ hclear => hfine hclear.1, fun _ hf => absurd hf hfine⟩

/-! ### Any run -/

theorem Broken.moves {e e' : Exc} {s' : Locals κ} (h : Broken source consumer e s)
    (he : Emits [] s s') (hleft : e' = .left → ¬ Stays consumer) (herror : e' = .error → e = .error) :
    Broken source consumer e' s' where
  bounded := he.bounded h.length_le h.bounded
  length_le := he.terminalBuffer ▸ h.length_le
  attached := h.attached.of_eq he.attached
  left := hleft
  yields := by
    obtain ⟨released, done, hchunks, hprefix, hdone, hbreaks⟩ := h.yields
    refine ⟨released, done, ?_, ?_, ?_, fun hee => ?_⟩
    · rw [he.chunks, append_nil, hchunks]
    · rwa [he.terminalBuffer]
    · rwa [he.terminalBuffer]
    · rw [he.terminalBuffer]
      exact hbreaks (herror hee)

theorem pump_spec {pulls : List (Pull κ)} (h : Held source received s)
    (hsplit : source.chunks = received ++ chunksOf pulls) : (pump source consumer pulls).Ends s
      (fun _ s' => Held source source.chunks s' ∧ source.ending = .exhausted)
      (fun e s' => Broken source consumer e s') := by
  have hprefix : received <+: source.chunks := hsplit ▸ prefix_append ..
  induction pulls generalizing received s with
  | nil =>
    rw [chunksOf, append_nil] at hsplit
    simp only [pump, ends_bind]
    refine (pause_spec consumer s).mono ?_ ?_
    · rintro _ s₁ he
      refine (attempt_spec _ s₁).mono ?_ ?_
      · rintro _ _ ⟨rfl, hending⟩
        refine ⟨hsplit ▸ h.moves he, ?_⟩
        cases hsource : source.ending with
        | exhausted => rfl
        | raised => simp [hsource] at hending
      · rintro e _ ⟨rfl, rfl, -⟩
        exact (h.moves he).toHolding.broken consumer hprefix fun he => (by cases he)
    · rintro e s₁ ⟨he, rfl, hstays⟩
      exact (h.moves he).toHolding.broken consumer hprefix fun _ => hstays
  | cons pull pulls ih =>
    cases pull with
    | idle =>
      rw [chunksOf] at hsplit
      simp only [pump, ends_bind, ends_ite]
      refine (pause_spec consumer s).mono ?_ ?_
      · rintro _ s₁ he
        refine ⟨fun _ => ?_, fun _ => ih (h.moves he) hsplit hprefix⟩
        refine (emit_spec consumer _ s₁).mono ?_ ?_
        · rintro _ s₂ he'
          exact ih ((h.moves he).moves he') hsplit hprefix
        · rintro e s₂ ⟨he', rfl, hstays⟩
          exact ((h.moves he).moves he').toHolding.broken consumer hprefix fun _ => hstays
      · rintro e s₁ ⟨he, rfl, hstays⟩
        exact (h.moves he).toHolding.broken consumer hprefix fun _ => hstays
    | chunk c =>
      rw [chunksOf] at hsplit
      have hsplit' : source.chunks = (received ++ [c]) ++ chunksOf pulls := by
        rw [hsplit, append_assoc]
        rfl
      simp only [pump, ends_bind]
      refine (pause_spec consumer s).mono ?_ ?_
      · rintro _ s₁ he
        refine (takeChunk_spec consumer (h.moves he) hsplit).mono ?_ ?_
        · rintro _ s₂ ⟨h₂, -⟩
          exact ih h₂ hsplit' (hsplit' ▸ prefix_append ..)
        · rintro e s₂ ⟨hbroken, -, -⟩
          exact hbroken
      · rintro e s₁ ⟨he, rfl, hstays⟩
        exact (h.moves he).toHolding.broken consumer hprefix fun _ => hstays

theorem awaitSettlement_spec (n : ℕ) (s : Locals κ) :
    (awaitSettlement consumer n).Ends s (fun _ s' => Emits [] s s')
      (fun e s' => Emits [] s s' ∧ e = .left ∧ ¬ Stays consumer) := by
  induction n generalizing s with
  | zero => exact pause_spec consumer s
  | succ n ih =>
    simp only [awaitSettlement, ends_bind]
    refine (pause_spec consumer s).mono (fun _ s₁ he => ?_) (fun e s₁ h => h)
    refine (emit_spec consumer _ s₁).mono (fun _ s₂ he' => ?_) (fun e s₂ h => ?_)
    · refine (ih s₂).mono (fun _ s₃ he'' => ?_) (fun e s₃ h => ?_)
      · exact (he.trans he').trans he''
      · exact ⟨(he.trans he').trans h.1, h.2⟩
    · exact ⟨he.trans h.1, h.2⟩

theorem Holding.costCarrier_iff (h : Holding source source.chunks s) (c : κ) :
    s.costCarrier = some c ↔ source.HeldCarrier source.chunks c := by
  cases h.holds with
  | nothing _ _ hcarrier _ hnone => simp [hcarrier, hnone c]
  | @carrier pre first followers hcarries hfew _ _ hcarrier _ =>
    rw [hcarrier, Option.some.injEq]
    constructor
    · rintro rfl
      exact ⟨pre, followers, hcarries, hfew⟩
    · rintro ⟨pre', followers', hcarries', -⟩
      exact (hcarries.unique hcarries').1

theorem settle_spec (h : Held source source.chunks s) : (settle source consumer).Ends s
      (fun _ s' => Holding source source.chunks s' ∧ s'.terminalBuffer = s.terminalBuffer ∧
        s'.chunks = s.chunks ∧ s'.attached =
          if s.hasUsage && source.settlement && source.attaches then [s.costCarrier] else [])
      (fun e s' => Broken source consumer e s' ∧ e = .left) := by
  have hcarrier := h.toHolding.costCarrier_iff
  simp only [settle, ends_bind, ends_read, ends_ite, ends_update, ends_pure]
  refine (awaitSettlement_spec consumer _ s).mono (fun _ s₁ he => ?_) (fun e s₁ h₁ => ?_)
  · have h₁ := h.moves he
    have hchunks : s₁.chunks = s.chunks := he.chunks.trans (append_nil _)
    refine ⟨fun hattach => ?_, fun hattach => ?_⟩
    · have hattached : s₁.attached ++ [s₁.costCarrier] = [s.costCarrier] := by
        rw [h₁.unattached, he.costCarrier]
        rfl
      refine ⟨⟨?_, h₁.formats, fun call hcall c => ?_, h₁.bounded⟩, he.terminalBuffer, hchunks, ?_⟩
      · cases h₁.holds with
        | nothing hbuffering hbuffer hcost hc hnone =>
          exact .nothing hbuffering hbuffer hcost hc hnone
        | carrier hcarries hfew hbuffering hbuffer hcost hc =>
          exact .carrier hcarries hfew hbuffering hbuffer hcost hc
      · have hmem : call ∈ [s.costCarrier] := hattached ▸ hcall
        rw [mem_singleton.mp hmem]
        exact hcarrier c
      · rw [if_pos hattach]
        exact hattached
    · rw [if_neg hattach]
      exact ⟨h₁.toHolding, he.terminalBuffer, hchunks, h₁.unattached⟩
  · obtain ⟨he, rfl, hstays⟩ := h₁
    exact ⟨(h.moves he).toHolding.broken consumer (prefix_refl _) fun _ => hstays, rfl⟩

/-- What holds of every state in which a run ends. -/
structure Faithful (source : Upstream κ) (s : Locals κ) : Prop where
  chunks : s.chunks <+: source.chunks
  bounded : ∀ n ∈ s.withheld, n ≤ 4
  attached : Attaches source s

theorem Broken.faithful {e : Exc} (h : Broken source consumer e s) : Faithful source s where
  chunks := by
    obtain ⟨released, done, hchunks, hprefix, hdone, -⟩ := h.yields
    rw [hchunks]
    exact ((prefix_append_right_inj released).mpr hdone).trans hprefix
  bounded := h.bounded
  attached := h.attached

theorem Faithful.moves {s' : Locals κ} (h : Faithful source s) (hbuffer : s.terminalBuffer = [])
    (he : Emits [] s s') : Faithful source s' where
  chunks := by
    rw [he.chunks, append_nil]
    exact h.chunks
  bounded := he.bounded (by simp [hbuffer]) h.bounded
  attached := h.attached.of_eq he.attached

theorem body_spec : (body source consumer).Ends { completed := !source.checksCompletion }
    (fun _ s' => Faithful source s') (fun e s' => Broken source consumer e s') := by
  simp only [body, ends_bind, ends_read, ends_ensure]
  refine (pump_spec consumer (held_start source) rfl).mono ?_ ?_
  · rintro _ s₁ ⟨h₁, hending⟩
    refine (pause_spec consumer s₁).mono (fun _ s₂ he => ?_) (fun e s₂ h₂ => ?_)
    · have h₂ := h₁.moves he
      refine (attempt_spec _ s₂).mono ?_ ?_
      · rintro _ _ ⟨rfl, hcompleted⟩
        have hcompletes : source.completesAfter source.chunks = true := by
          rw [← h₂.completed]
          simpa using hcompleted
        refine (settle_spec consumer h₂).mono ?_ (fun e s' h => h.1)
        rintro _ s₃ ⟨h₃, hbuffer, hchunks, -⟩
        refine (flush_held consumer h₃ h₂.fine (append_nil _).symm fun _ _ _ =>
          .inr ⟨rfl, hending, hcompletes⟩).mono ?_ (fun e s' h => h.1)
        rintro _ _ ⟨s₄, he₄, rfl, -⟩
        have h₅ : Faithful source { s₄ with terminalBuffer := [] } := by
          refine ⟨?_, he₄.bounded h₃.length_le h₃.bounded, h₃.attached.of_eq he₄.attached⟩
          have hall : s₄.chunks = source.chunks := he₄.chunks.trans h₃.split.symm
          exact hall ▸ prefix_refl _
        refine (emit_spec consumer .done _).mono (fun _ s' he' => h₅.moves rfl he') ?_
        rintro e s' ⟨he', rfl, hstays⟩
        have h' := h₅.moves rfl he'
        refine ⟨h'.bounded, by simp [he'.terminalBuffer], h'.attached, fun _ => hstays, s'.chunks, [],
          (append_nil _).symm, ?_, nil_prefix, fun he => (by cases he)⟩
        rw [he'.terminalBuffer, append_nil]
        exact h'.chunks
      · rintro e _ ⟨rfl, rfl, -⟩
        exact h₂.toHolding.broken consumer (prefix_refl _) fun he => (by cases he)
    · obtain ⟨he, rfl, hstays⟩ := h₂
      exact (h₁.moves he).toHolding.broken consumer (prefix_refl _) fun _ => hstays
  · rintro e s₁ h₁
    refine (pause_spec consumer s₁).mono (fun _ s₂ he => ?_) (fun e' s₂ h₂ => ?_)
    · exact h₁.moves consumer he h₁.left id
    · obtain ⟨he, rfl, hstays⟩ := h₂
      exact h₁.moves consumer he (fun _ => hstays) fun he => (by cases he)

theorem failed_spec (hrepeats : ¬ source.Repeats) (h : Broken source consumer .error s) :
    (failed source consumer).Ends s (fun _ s' => Faithful source s')
      (fun _ s' => Faithful source s') := by
  obtain ⟨released, done, hchunks, hprefix, hdone, hbreaks⟩ := h.yields
  have hhead : done ≠ [] → ∃ c, s.terminalBuffer.head? = some c ∧ source.reformats c = false := by
    intro hne
    obtain ⟨c, hc, hflush⟩ := hbreaks rfl hne
    refine ⟨c, hc, ?_⟩
    by_contra hreformats
    exact hrepeats ⟨c, hflush, by simpa using hreformats⟩
  simp only [failed, ends_bind, ends_ite, ends_pure]
  refine (flush_spec consumer source.reformats s).mono ?_ ?_
  · rintro _ _ ⟨s₁, he, rfl, hall⟩
    have hnone : done = [] := by
      by_contra hne
      obtain ⟨c, hc, hraises⟩ := hhead hne
      rw [hall c (mem_of_head? hc)] at hraises
      cases hraises
    have h₁ : Faithful source { s₁ with terminalBuffer := [] } := by
      refine ⟨?_, he.bounded h.length_le h.bounded, h.attached.of_eq he.attached⟩
      have hall' : s₁.chunks = released ++ s.terminalBuffer := by
        rw [he.chunks, hchunks, hnone, append_nil]
      exact hall' ▸ hprefix
    refine (attempt_spec _ _).mono ?_ ?_
    · rintro _ _ ⟨rfl, -⟩
      refine (emit_spec consumer .failure _).mono (fun _ s₂ he₂ => ?_)
        (fun e s₂ h₂ => h₁.moves rfl h₂.1)
      have h₂ := h₁.moves rfl he₂
      refine ⟨fun _ => ?_, fun _ => h₂⟩
      exact (emit_spec consumer .done s₂).mono (fun _ s₃ he₃ => h₂.moves he₂.terminalBuffer he₃)
        (fun e s₃ h₃ => h₂.moves he₂.terminalBuffer h₃.1)
    · rintro e _ ⟨rfl, -, -⟩
      exact h₁
  · rintro e s₁ ⟨done', hdone', hall, he, -, -⟩
    refine ⟨?_, he.bounded h.length_le h.bounded, h.attached.of_eq he.attached⟩
    by_cases hne : done = []
    · rw [he.chunks, hchunks, hne, append_nil]
      exact ((prefix_append_right_inj released).mpr hdone').trans hprefix
    · obtain ⟨c, hc, hraises⟩ := hhead hne
      have hnone' : done' = [] := by
        cases done' with
        | nil => rfl
        | cons d rest =>
          obtain ⟨after, hafter⟩ := hdone'
          rw [← hafter, cons_append, List.head?_cons] at hc
          obtain rfl := Option.some.inj hc
          rw [hall d mem_cons_self] at hraises
          cases hraises
      rw [he.chunks, hchunks, hnone', append_nil]
      exact ((prefix_append_right_inj released).mpr hdone).trans hprefix

/-- **A stream that does not repeat is delivered faithfully**, whatever the consumer. -/
theorem faithful_run (hrepeats : ¬ source.Repeats) : Faithful source (run source consumer) := by
  refine Ends.state (P := Faithful source) ?_
  rw [streamingGenerator, ends_rescue]
  refine (body_spec consumer).mono (fun _ s' h => h) ?_
  intro e s' h
  cases e with
  | left => exact h.faithful
  | error => exact failed_spec consumer hrepeats h

end

/-! ### A consumer that stays -/

section
variable {source : Upstream κ} {consumer : ℕ → Bool} {received rest : List κ} {chunk : κ}

variable {s : Locals κ}

theorem Held.of_carries (h : Held source received s) {pre followers : List κ} {c : κ}
    (hcarries : source.Carries received pre c followers) (hfew : followers.length < 4) :
    s.bufferingTerminal = true ∧ s.terminalBuffer = c :: followers ∧ s.chunks = pre := by
  cases h.holds with
  | nothing _ _ _ _ hnone => exact absurd ⟨pre, followers, hcarries, hfew⟩ (hnone c)
  | carrier hcarries' _ hbuffering hbuffer _ hchunks =>
    obtain ⟨rfl, rfl⟩ := hcarries.unique hcarries'
    refine ⟨hbuffering, hbuffer, hchunks.trans ?_⟩
    exact append_cancel_right (hcarries'.split.symm.trans hcarries.split)

theorem Holding.releases_subset (h : Holding source received s) (chunk : κ) :
    s.releases source chunk ⊆ received ++ [chunk] := by
  intro c hc
  have hbuffer : s.terminalBuffer ⊆ received := by
    rw [h.split]
    exact subset_append_right _ _
  unfold Locals.releases at hc
  split_ifs at hc
  · exact mem_append_left _ (hbuffer hc)
  · exact (mem_append.mp hc).elim (fun hc => mem_append_left _ (hbuffer hc))
      (mem_append_right _)
  · cases hc
  · exact mem_append_right _ hc

variable {pulls : List (Pull κ)} {Q : Unit → Locals κ → Prop} {E : Exc → Locals κ → Prop}

theorem pump_takes (hstays : Stays consumer)
    (hpulls : chunksOf pulls = chunk :: rest) (h : Held source received s)
    (htakes : ∀ pulls' s', chunksOf pulls' = rest → Held source received s' →
      (takeChunk source consumer chunk >>= fun _ => pump source consumer pulls').Ends s' Q E) :
    (pump source consumer pulls).Ends s Q E := by
  induction pulls generalizing s with
  | nil => cases hpulls
  | cons pull pulls ih =>
    cases pull with
    | idle =>
      rw [chunksOf] at hpulls
      simp only [pump, ends_bind, ends_ite]
      refine (pause_spec consumer s).mono (fun _ s₁ he => ⟨fun _ => ?_, fun _ => ?_⟩)
        fun e s₁ h₁ => absurd hstays h₁.2.2
      · exact (emit_spec consumer _ s₁).mono
          (fun _ s₂ he' => ih hpulls ((h.moves he).moves he'))
          fun e s₂ h₂ => absurd hstays h₂.2.2
      · exact ih hpulls (h.moves he)
    | chunk c =>
      rw [chunksOf] at hpulls
      obtain ⟨rfl, hrest⟩ := List.cons.inj hpulls
      simp only [pump]
      rw [ends_bind]
      exact (pause_spec consumer s).mono (fun _ s₁ he => htakes pulls s₁ hrest (h.moves he))
        fun e s₁ h₁ => absurd hstays h₁.2.2

theorem pump_passes (hstays : Stays consumer)
    (hpulls : chunksOf pulls = chunk :: rest) (h : Held source received s)
    (hsplit : source.chunks = received ++ chunk :: rest)
    (hclear : ∀ s, Held source received s → Clear source s chunk)
    (hgoes : ∀ pulls' s', chunksOf pulls' = rest → Held source (received ++ [chunk]) s' →
      (pump source consumer pulls').Ends s' Q E) : (pump source consumer pulls).Ends s Q E := by
  refine pump_takes hstays hpulls h fun pulls' s' hpulls' h' => ?_
  rw [ends_bind]
  refine (takeChunk_spec consumer h' hsplit).mono (fun _ s₁ h₁ => hgoes pulls' s₁ hpulls' h₁.1) ?_
  rintro e s₁ ⟨hbroken, hnot, -⟩
  cases e with
  | left => exact absurd hstays (hbroken.left rfl)
  | error => exact absurd (hclear s' h') (hnot rfl)

theorem pump_passes_all (hstays : Stays consumer) {before : List κ}
    (hpulls : chunksOf pulls = before ++ rest) (h : Held source received s)
    (hsplit : source.chunks = received ++ before ++ rest)
    (hfine : ∀ c ∈ before, source.Fine c) (hreceived : ∀ c ∈ received, source.formats c = true)
    (hformats : ∀ c ∈ before, source.formats c = true)
    (hgoes : ∀ pulls' s', chunksOf pulls' = rest → Held source (received ++ before) s' →
      (pump source consumer pulls').Ends s' Q E) : (pump source consumer pulls).Ends s Q E := by
  induction before generalizing received pulls s with
  | nil => exact hgoes pulls s hpulls (by rwa [append_nil])
  | cons c before ih =>
    have hall : ∀ d ∈ received ++ [c], source.formats d = true := by
      intro d hd
      rcases mem_append.mp hd with hd | hd
      · exact hreceived d hd
      · exact hformats d (mem_singleton.mp hd ▸ mem_cons_self)
    refine pump_passes hstays hpulls h (by simpa using hsplit)
      (fun s h => ⟨hfine c mem_cons_self,
        fun d hd => hall d (h.toHolding.releases_subset c hd)⟩) fun pulls' s' hpulls' h' => ?_
    refine ih hpulls' h' (by simpa using hsplit) (fun d hd => hfine d (mem_cons_of_mem _ hd))
      hall (fun d hd => hformats d (mem_cons_of_mem _ hd)) fun pulls'' s'' hp'' h'' => ?_
    exact hgoes pulls'' s'' hp'' (by simpa using h'')

theorem pump_passes_followers (hstays : Stays consumer) {pre followers more : List κ} {c : κ}
    (hpulls : chunksOf pulls = more ++ rest)
    (h : Held source received s) (hsplit : source.chunks = received ++ more ++ rest)
    (hcarries : source.Carries received pre c followers)
    (hmore : ∀ d ∈ more, source.carrier d ≠ some true) (hfew : (followers ++ more).length < 4)
    (hfine : ∀ d ∈ more, source.Fine d)
    (hgoes : ∀ pulls' s', chunksOf pulls' = rest → Held source (received ++ more) s' →
      (pump source consumer pulls').Ends s' Q E) : (pump source consumer pulls).Ends s Q E := by
  induction more generalizing received followers pulls s with
  | nil => exact hgoes pulls s hpulls (by rwa [append_nil])
  | cons d more ih =>
    have hd := hmore d mem_cons_self
    have hlt : followers.length + 1 < 4 := by
      simp only [length_append, length_cons] at hfew
      omega
    have hclear : ∀ s, Held source received s → Clear source s d := by
      intro s h
      obtain ⟨hbuffering, hbuffer, -⟩ := h.of_carries hcarries (by omega)
      refine ⟨hfine d mem_cons_self, fun e he => ?_⟩
      have hnot : ¬ maxTerminalBufferChunks ≤ s.terminalBuffer.length := by
        rw [hbuffer, length_cons]
        unfold maxTerminalBufferChunks
        omega
      rw [Locals.releases, if_neg hd, if_pos hbuffering, if_neg hnot] at he
      cases he
    refine pump_passes hstays hpulls h (by simpa using hsplit) hclear
      fun pulls' s' hpulls' h' => ?_
    refine ih hpulls' h' (by simpa using hsplit) (hcarries.concat hd)
      (fun e he => hmore e (mem_cons_of_mem _ he)) (by simpa using hfew)
      (fun e he => hfine e (mem_cons_of_mem _ he)) fun pulls'' s'' hp'' h'' => ?_
    exact hgoes pulls'' s'' hp'' (by simpa using h'')

theorem pump_ends (hstays : Stays consumer)
    (hpulls : chunksOf pulls = []) (h : Held source received s) :
    (pump source consumer pulls).Ends s
      (fun _ s' => Held source received s' ∧ source.ending = .exhausted)
      (fun e s' => e = .error ∧ Held source received s' ∧ source.ending = .raised) := by
  induction pulls generalizing s with
  | nil =>
    simp only [pump, ends_bind]
    refine (pause_spec consumer s).mono (fun _ s₁ he => ?_) fun e s₁ h₁ => absurd hstays h₁.2.2
    refine (attempt_spec _ s₁).mono ?_ ?_
    · rintro _ _ ⟨rfl, hending⟩
      refine ⟨h.moves he, ?_⟩
      cases hsource : source.ending with
      | exhausted => rfl
      | raised => simp [hsource] at hending
    · rintro e _ ⟨rfl, rfl, hending⟩
      exact ⟨rfl, h.moves he, of_decide_eq_true hending⟩
  | cons pull pulls ih =>
    cases pull with
    | chunk c => cases hpulls
    | idle =>
      rw [chunksOf] at hpulls
      simp only [pump, ends_bind, ends_ite]
      refine (pause_spec consumer s).mono (fun _ s₁ he => ⟨fun _ => ?_, fun _ => ?_⟩)
        fun e s₁ h₁ => absurd hstays h₁.2.2
      · exact (emit_spec consumer _ s₁).mono
          (fun _ s₂ he' => ih hpulls ((h.moves he).moves he'))
          fun e s₂ h₂ => absurd hstays h₂.2.2
      · exact ih hpulls (h.moves he)

end

/-! ### All of the stream -/

namespace Upstream
variable (source : Upstream κ)

/-- Nothing asked of a chunk raises, and every chunk is formatted. -/
def AllFormat : Prop := ∀ chunk ∈ source.chunks, source.Fine chunk ∧ source.formats chunk = true

/-- The upstream ends, and with a complete stream. -/
def EndsComplete : Prop :=
  source.ending = .exhausted ∧ source.completesAfter source.chunks = true

/-- There is a settlement, and a hook to attach it. -/
def Settles : Prop :=
  (source.chunks.any fun chunk => source.usage chunk == some true) = true ∧
    source.settlement = true ∧ source.attaches = true

end Upstream

section
variable {source : Upstream κ} {consumer : ℕ → Bool}

theorem body_all (hstays : Stays consumer) (hall : source.AllFormat) :
    (body source consumer).Ends { completed := !source.checksCompletion }
      (fun _ s' => s'.chunks = source.chunks ∧ (source.Settles → ∃ call, s'.attached = [call]))
      (fun e s' => e = .error ∧ Held source source.chunks s' ∧ ¬ source.EndsComplete) := by
  simp only [body, ends_bind, ends_read, ends_ensure]
  have hpulls : chunksOf source.pulls = source.chunks ++ [] := (append_nil _).symm
  refine pump_passes_all hstays hpulls (held_start source) hpulls (fun c hc => (hall c hc).1) (by simp)
    (fun c hc => (hall c hc).2) fun pulls s hpulls h => ?_
  refine (pump_ends hstays hpulls h).mono ?_ ?_
  · rintro _ s₁ ⟨h₁, hending⟩
    refine (pause_spec consumer s₁).mono (fun _ s₂ he => ?_) fun e s₂ h₂ => absurd hstays h₂.2.2
    have h₂ : Held source source.chunks s₂ := h₁.moves he
    refine (attempt_spec _ s₂).mono ?_ ?_
    · rintro _ _ ⟨rfl, -⟩
      refine (settle_spec consumer h₂).mono ?_ ?_
      · rintro _ s₃ ⟨h₃, -, -, hattached⟩
        refine (flush_spec consumer source.formats s₃).mono ?_ ?_
        · rintro _ _ ⟨s₄, he₄, rfl, -⟩
          refine (emit_spec consumer .done _).mono (fun _ s' he' => ⟨?_, fun hsettles => ?_⟩)
            fun e s' h' => absurd hstays h'.2.2
          · rw [he'.chunks]
            exact (append_nil _).trans (he₄.chunks.trans h₃.split.symm)
          · obtain ⟨husage, hsettlement, hattaches⟩ := hsettles
            refine ⟨_, (he'.attached.trans he₄.attached).trans (hattached.trans (if_pos ?_))⟩
            rw [h₂.usage, husage, hsettlement, hattaches]
            rfl
        · rintro e s' ⟨done, -, -, -, hleft, herror⟩
          cases e with
          | left => exact absurd hstays (hleft rfl)
          | error =>
            obtain ⟨-, c, hc, hraises⟩ := herror rfl
            have hmem : c ∈ source.chunks := by
              rw [h₃.split]
              exact mem_append_right _ hc
            rw [(hall c hmem).2] at hraises
            cases hraises
      · rintro e s' ⟨hbroken, rfl⟩
        exact absurd hstays (hbroken.left rfl)
    · rintro e _ ⟨rfl, rfl, hcompleted⟩
      refine ⟨rfl, h₂, fun hends => ?_⟩
      rw [h₂.completed, hends.2] at hcompleted
      cases hcompleted
  · rintro e s₁ ⟨rfl, h₁, hending⟩
    refine (pause_spec consumer s₁).mono (fun _ s₂ he => ⟨rfl, h₁.moves he, fun hends => ?_⟩)
      fun e s₂ h₂ => absurd hstays h₂.2.2
    rw [hends.1] at hending
    cases hending

theorem failed_all (hstays : Stays consumer) (hreformats : ∀ c ∈ source.chunks, source.reformats c = true)
    {s : Locals κ} (h : Held source source.chunks s) :
    (failed source consumer).Ends s (fun _ s' => s'.chunks = source.chunks)
      (fun _ s' => s'.chunks = source.chunks) := by
  simp only [failed, ends_bind, ends_ite, ends_pure]
  refine (flush_spec consumer source.reformats s).mono ?_ ?_
  · rintro _ _ ⟨s₁, he, rfl, -⟩
    have hchunks : s₁.chunks = source.chunks := he.chunks.trans h.split.symm
    refine (attempt_spec _ _).mono ?_ ?_
    · rintro _ _ ⟨rfl, -⟩
      refine (emit_spec consumer .failure _).mono (fun _ s₂ he₂ => ?_) fun e s₂ h₂ =>
        absurd hstays h₂.2.2
      have hchunks₂ : s₂.chunks = source.chunks := he₂.chunks.trans
        ((append_nil _).trans hchunks)
      refine ⟨fun _ => ?_, fun _ => hchunks₂⟩
      exact (emit_spec consumer .done s₂).mono
        (fun _ s₃ he₃ => he₃.chunks.trans ((append_nil _).trans hchunks₂))
        fun e s₃ h₃ => absurd hstays h₃.2.2
    · rintro e _ ⟨rfl, -, -⟩
      exact hchunks
  · rintro e s₁ ⟨done, -, -, -, hleft, herror⟩
    cases e with
    | left => exact absurd hstays (hleft rfl)
    | error =>
      obtain ⟨-, c, hc, hraises⟩ := herror rfl
      have hmem : c ∈ source.chunks := by
        rw [h.split]
        exact mem_append_right _ hc
      rw [hreformats c hmem] at hraises
      cases hraises

theorem run_all (hstays : Stays consumer) (hall : source.AllFormat)
    (hreformats : ∀ c ∈ source.chunks, source.reformats c = true) :
    (run source consumer).chunks = source.chunks := by
  refine Ends.state (P := fun s : Locals κ => s.chunks = source.chunks) ?_
  rw [streamingGenerator, ends_rescue]
  refine (body_all hstays hall).mono (fun _ s' h => h.1) ?_
  rintro e s' ⟨rfl, h, -⟩
  exact failed_all hstays hreformats h

theorem run_settles (hstays : Stays consumer) (hall : source.AllFormat)
    (hends : source.EndsComplete) (hsettles : source.Settles) :
    ∃ call, (run source consumer).attached = [call] := by
  refine Ends.state (P := fun s : Locals κ => ∃ call, s.attached = [call]) ?_
  rw [streamingGenerator, ends_rescue]
  refine (body_all hstays hall).mono (fun _ s' h => h.2 hsettles) ?_
  rintro e s' ⟨rfl, -, hincomplete⟩
  exact absurd hends hincomplete

end

/-! ### A broken flush -/

section
variable {source : Upstream κ} {consumer : ℕ → Bool} {pre followers post : List κ} {c : κ}

theorem pump_reaches (hstays : Stays consumer)
    (hsplit : source.chunks = pre ++ c :: followers ++ post)
    (hcarries : source.Carries (pre ++ c :: followers) pre c followers) (hfew : followers.length < 4)
    (hfine : ∀ chunk ∈ pre ++ c :: followers, source.Fine chunk)
    (hformats : ∀ chunk ∈ pre, source.formats chunk = true)
    {Q : Unit → Locals κ → Prop} {E : Exc → Locals κ → Prop}
    (hgoes : ∀ pulls s, chunksOf pulls = post → Held source (pre ++ c :: followers) s →
      (pump source consumer pulls).Ends s Q E) :
    (pump source consumer source.pulls).Ends { completed := !source.checksCompletion } Q E := by
  have hpulls : chunksOf source.pulls = pre ++ (c :: followers ++ post) := by
    rw [← append_assoc]
    exact hsplit
  refine pump_passes_all hstays hpulls (held_start source) hpulls
    (fun d hd => hfine d (mem_append_left _ hd)) (by simp) hformats fun pulls s hp h => ?_
  have hreceived : source.chunks = pre ++ c :: (followers ++ post) := by simpa using hsplit
  refine pump_passes hstays hp h (by simpa using hreceived) (fun s h => ⟨hfine c (by simp), ?_⟩)
    fun pulls s hp h => ?_
  · intro d hd
    rw [Locals.releases, if_pos hcarries.carrier] at hd
    refine hformats d ?_
    have hmem : d ∈ s.chunks ++ s.terminalBuffer := mem_append_right _ hd
    rwa [← h.split] at hmem
  have hfirst : source.Carries (pre ++ [c]) pre c [] := ⟨rfl, hcarries.carrier, by simp⟩
  rw [nil_append] at h
  refine pump_passes_followers hstays hp h (by simpa using hreceived) hfirst hcarries.followers
    (by simpa using hfew) (fun d hd => hfine d (by simp [hd])) fun pulls s hp h => ?_
  exact hgoes pulls s hp (by simpa using h)

theorem body_breaks (hstays : Stays consumer)
    (hsplit : source.chunks = pre ++ c :: followers ++ post)
    (hcarries : source.Carries (pre ++ c :: followers) pre c followers) (hfew : followers.length < 4)
    (hfine : ∀ chunk ∈ pre ++ c :: followers, source.Fine chunk)
    (hformats : ∀ chunk ∈ pre, source.formats chunk = true)
    (hbad : ∃ chunk ∈ followers, source.formats chunk = false)
    (hflushed : source.FlushedBy followers post) :
    (body source consumer).Ends { completed := !source.checksCompletion } (fun _ _ => False)
      (fun e s' => e = .error ∧ s'.terminalBuffer = c :: followers ∧
        s'.chunks = pre ++ (c :: followers).takeWhile source.formats) := by
  have hbad' : ∃ chunk ∈ c :: followers, source.formats chunk = false := by
    obtain ⟨chunk, hchunk, hraises⟩ := hbad
    exact ⟨chunk, mem_cons_of_mem _ hchunk, hraises⟩
  simp only [body, ends_bind, ends_read, ends_ensure]
  refine pump_reaches hstays hsplit hcarries hfew hfine hformats fun pulls s hp h => ?_
  rcases hflushed with ⟨next, rest, rfl, hnext, hwhy⟩ | ⟨rfl, hending, hcompletes⟩
  · -- the next chunk has the buffer yielded
    refine pump_takes hstays hp h fun pulls' s hp' h => ?_
    obtain ⟨hbuffering, hbuffer, hchunks⟩ := h.of_carries hcarries hfew
    have hflushing : s.Flushing source next := by
      refine hwhy.imp id fun hthree => ⟨hbuffering, ?_⟩
      rw [hbuffer, length_cons, hthree]
      exact le_rfl
    rw [← hbuffer] at hbad'
    rw [ends_bind]
    refine (takeChunk_spec consumer h hsplit).mono ?_ ?_
    · rintro _ s' ⟨-, hclear⟩
      obtain ⟨chunk, hchunk, hraises⟩ := hbad'
      have hreleased : chunk ∈ s.releases source next := by
        unfold Locals.releases
        by_cases hcarrier : source.carrier next = some true
        · rwa [if_pos hcarrier]
        · obtain ⟨hb, hlen⟩ := hflushing.resolve_left hcarrier
          rw [if_neg hcarrier, if_pos hb, if_pos hlen]
          exact mem_append_left _ hchunk
      rw [hclear.2 chunk hreleased] at hraises
      cases hraises
    · rintro e s' ⟨hbroken, -, hbreaks⟩
      cases e with
      | left => exact absurd hstays (hbroken.left rfl)
      | error =>
        obtain ⟨hbuffer', hchunks'⟩ := hbreaks rfl hnext hflushing hbad'
        refine (pause_spec consumer s').mono (fun _ s'' he => ⟨rfl, ?_, ?_⟩) fun e s'' h' =>
          absurd hstays h'.2.2
        · rw [he.terminalBuffer, hbuffer', hbuffer]
        · rw [he.chunks, append_nil, hchunks', hbuffer, hchunks]
  · -- the end has
    rw [append_nil] at hsplit
    rw [← hsplit] at h hcarries hfine
    refine (pump_ends hstays hp h).mono ?_ ?_
    · rintro _ s₁ ⟨h₁, -⟩
      refine (pause_spec consumer s₁).mono (fun _ s₂ he => ?_) fun e s₂ h₂ => absurd hstays h₂.2.2
      have h₂ : Held source source.chunks s₂ := h₁.moves he
      obtain ⟨-, hbuffer, hchunks⟩ := h₂.of_carries hcarries hfew
      refine (attempt_spec _ s₂).mono ?_ ?_
      · rintro _ _ ⟨rfl, -⟩
        refine (settle_spec consumer h₂).mono ?_ ?_
        · rintro _ s₃ ⟨h₃, hbuffer₃, hchunks₃, -⟩
          have hheld : s₃.terminalBuffer = c :: followers := hbuffer₃.trans hbuffer
          refine (flush_held consumer h₃ hfine (append_nil _).symm fun _ _ _ =>
            .inr ⟨rfl, hending, hcompletes⟩).mono ?_ ?_
          · rintro _ _ ⟨s₄, -, -, hall⟩
            obtain ⟨chunk, hchunk, hraises⟩ := hbad'
            rw [hall chunk (hheld ▸ hchunk)] at hraises
            cases hraises
          · rintro e s' ⟨hbroken, hbreaks⟩
            cases e with
            | left => exact absurd hstays (hbroken.left rfl)
            | error =>
              obtain ⟨hbuffer', hchunks', -⟩ := hbreaks rfl
              refine ⟨rfl, hbuffer'.trans hheld, ?_⟩
              rw [hchunks', hheld, hchunks₃, hchunks]
        · rintro e s' ⟨hbroken, rfl⟩
          exact absurd hstays (hbroken.left rfl)
      · rintro e _ ⟨rfl, rfl, hcompleted⟩
        rw [h₂.completed, hcompletes] at hcompleted
        cases hcompleted
    · rintro e s₁ ⟨-, -, hraised⟩
      rw [hending] at hraised
      cases hraised

theorem failed_repeats (hreformats : source.reformats c = true) {s : Locals κ}
    (hbuffer : s.terminalBuffer = c :: followers) :
    (failed source consumer).Ends s (fun _ s' => ∃ more, s'.chunks = s.chunks ++ c :: more)
      (fun e s' => (e = .left → ¬ Stays consumer) ∧
        (e = .error → ∃ more, s'.chunks = s.chunks ++ c :: more)) := by
  simp only [failed, ends_bind, ends_ite, ends_pure]
  refine (flush_spec consumer source.reformats s).mono ?_ ?_
  · rintro _ _ ⟨s₁, he, rfl, -⟩
    have hchunks : s₁.chunks = s.chunks ++ c :: followers := by rw [he.chunks, hbuffer]
    refine (attempt_spec _ _).mono ?_ ?_
    · rintro _ _ ⟨rfl, -⟩
      refine (emit_spec consumer .failure _).mono (fun _ s₂ he₂ => ?_) ?_
      · have hchunks₂ : s₂.chunks = s.chunks ++ c :: followers :=
          he₂.chunks.trans ((append_nil _).trans hchunks)
        refine ⟨fun _ => ?_, fun _ => ⟨followers, hchunks₂⟩⟩
        refine (emit_spec consumer .done s₂).mono
          (fun _ s₃ he₃ => ⟨followers, he₃.chunks.trans ((append_nil _).trans hchunks₂)⟩) ?_
        rintro e s₃ ⟨-, rfl, hleaves⟩
        exact ⟨fun _ => hleaves, fun he => (by cases he)⟩
      · rintro e s₂ ⟨-, rfl, hleaves⟩
        exact ⟨fun _ => hleaves, fun he => (by cases he)⟩
    · rintro e _ ⟨rfl, rfl, -⟩
      exact ⟨fun he => (by cases he), fun _ => ⟨followers, hchunks⟩⟩
  · rintro e s₁ ⟨done, -, -, he, hleft, herror⟩
    refine ⟨hleft, fun hee => ?_⟩
    obtain ⟨rfl, -⟩ := herror hee
    rw [he.chunks, hbuffer, takeWhile_cons_of_pos hreformats]
    exact ⟨_, rfl⟩

/-- **A broken flush is not a prefix**: the carrier comes where the chunk that raised would. -/
theorem run_repeats (hstays : Stays consumer) (hrepeats : source.Repeats) :
    ¬ (run source consumer).chunks <+: source.chunks := by
  obtain ⟨c, ⟨pre, followers, post, hsplit, hcarries, hfew, hfine, hformats, hfirst, hbad, hflushed⟩,
    hreformats⟩ := hrepeats
  have hrun : ∃ more,
      (run source consumer).chunks = pre ++ (c :: followers).takeWhile source.formats ++ c :: more := by
    refine Ends.state (P := fun s : Locals κ =>
      ∃ more, s.chunks = pre ++ (c :: followers).takeWhile source.formats ++ c :: more) ?_
    rw [streamingGenerator, ends_rescue]
    refine (body_breaks hstays hsplit hcarries hfew hfine hformats hbad hflushed).mono
      (fun _ s' h => h.elim) ?_
    rintro e s' ⟨rfl, hbuffer, hchunks⟩
    refine (failed_repeats hreformats hbuffer).mono (fun _ s'' h => ?_) fun e s'' h => ?_
    · exact hchunks ▸ h
    · cases e with
      | left => exact absurd hstays (h.1 rfl)
      | error => exact hchunks ▸ h.2 rfl
  obtain ⟨more, hmore⟩ := hrun
  obtain ⟨chunk, hchunk, hraises⟩ := hbad
  intro hprefix
  -- after the part yielded comes a chunk that raises, and the carrier is not one
  have hdrop : (c :: followers).dropWhile source.formats ≠ [] := by
    intro hnil
    have hall := dropWhile_eq_nil_iff.mp hnil chunk (mem_cons_of_mem _ hchunk)
    rw [hraises] at hall
    cases hall
  obtain ⟨bad, after, hafter⟩ := exists_cons_of_ne_nil hdrop
  have hbadRaises : source.formats bad = false := by
    have hhead := head_dropWhile_not source.formats hdrop
    simpa [hafter] using hhead
  have hheld : c :: followers = (c :: followers).takeWhile source.formats ++ bad :: after := by
    rw [← hafter, takeWhile_append_dropWhile]
  have hsent : source.chunks
      = pre ++ ((c :: followers).takeWhile source.formats ++ bad :: after) ++ post := by
    rw [← hheld]
    exact hsplit
  rw [hmore, hsent] at hprefix
  simp only [append_assoc, prefix_append_right_inj, cons_append,
    cons_prefix_cons] at hprefix
  rw [← hprefix.1, hfirst] at hbadRaises
  cases hbadRaises

end

/-! ### The delivery -/

/-- The stream is delivered: the consumer gets a prefix of it in order, and all of it if it stays and
every chunk is formatted; at no moment is more than four chunks held; and a settlement is attached
to the last carrier if fewer than four chunks followed it. -/
structure Delivers (source : Upstream κ) (consumer : ℕ → Bool) (s : Locals κ) : Prop
    extends Faithful source s where
  all : Stays consumer → source.AllFormat → (∀ chunk ∈ source.chunks, source.reformats chunk = true) →
    s.chunks = source.chunks
  settles : Stays consumer → source.AllFormat → source.EndsComplete → source.Settles →
    ∃ call, s.attached = [call] ∧ ∀ c, call = some c ↔ source.HeldCarrier source.chunks c

/-- **A stream is delivered, unless it repeats**: to every consumer, if and only if no carrier's
buffer breaks while it is yielded and then has the carrier formatted again. -/
theorem delivers_iff (source : Upstream κ) :
    (∀ consumer, Delivers source consumer (run source consumer)) ↔ ¬ source.Repeats := by
  constructor
  · intro hdelivers hrepeats
    have hstays : Stays fun _ => false := fun _ => rfl
    exact run_repeats hstays hrepeats (hdelivers _).chunks
  · intro hrepeats consumer
    have hfaithful : Faithful source (run source consumer) := faithful_run consumer hrepeats
    refine ⟨hfaithful, run_all, fun hstays hall hends hsettles => ?_⟩
    obtain ⟨call, hcall⟩ := run_settles hstays hall hends hsettles
    exact ⟨call, hcall, hfaithful.attached call (hcall ▸ List.mem_singleton_self call)⟩

/-- A carrier 0 with one chunk after it, which is not formatted. -/
def brokenFlush : Upstream ℕ where
  pulls := [.chunk 0, .chunk 1]
  ending := .exhausted
  completes _ := some true
  usage _ := some true
  carrier chunk := some (chunk == 0)
  formats chunk := chunk == 0
  reformats chunk := chunk == 0
  keepalive := false
  checksCompletion := false
  settlement := true
  attaches := true
  settlementWaits := 0
  payloadRaises := false
  doneOnError := true

/-- The carrier is yielded at the end of the stream and again by the error path. -/
theorem carrier_yielded_twice : (run brokenFlush fun _ => false).chunks = [0, 0] ∧
      ¬ Delivers brokenFlush (fun _ => false) (run brokenFlush fun _ => false) := by
  have hchunks : (run brokenFlush fun _ => false).chunks = [0, 0] := by decide
  refine ⟨hchunks, fun hdelivers => ?_⟩
  have hprefix := hdelivers.chunks
  rw [hchunks] at hprefix
  revert hprefix
  decide

end Otari.Delivery
