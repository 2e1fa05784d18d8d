import Mathlib

/-!
# Support — Utf8 — bytes read as text

UTF-8 decoded a byte at a time, with the replacement character for each maximal part of a sequence
that is none (`decode`), and line ends translated to `\n` (`translateNewlines`).

Text is read up to an ASCII byte as it is read alone (`decode_append_ascii`), and an ASCII character
is read of its own byte only (`byte_of_mem_decode`): what a sequence begun can still read is a
scalar past them (`Pending.Sound`).
-/

namespace Utf8
open List

/-- A sequence begun: its bits so far, the bytes still to come and the range of the next. -/
structure Pending where
  value : ℕ
  left : ℕ
  low : ℕ := 0x80
  high : ℕ := 0xBF

/-- What is read for bytes that are no sequence. -/
def replacement : Char := '\uFFFD'

/-- The first byte of a sequence. -/
def lead (b : UInt8) : List Char × Option Pending :=
  let n := b.toNat
  if n < 0x80 then ([Char.ofNat n], none)
  else if n < 0xC2 then ([replacement], none)
  else if n < 0xE0 then ([], some { value := n - 0xC0, left := 1 })
  else if n < 0xF0 then
    -- no overlong form, and no surrogate
    let low := if n = 0xE0 then 0xA0 else 0x80
    let high := if n = 0xED then 0x9F else 0xBF
    ([], some { value := n - 0xE0, left := 2, low, high })
  else if n < 0xF5 then
    let low := if n = 0xF0 then 0x90 else 0x80
    let high := if n = 0xF4 then 0x8F else 0xBF
    ([], some { value := n - 0xF0, left := 3, low, high })
  else ([replacement], none)

/-- A byte that a sequence begun goes on with, or that breaks it off. -/
def follow (pending : Pending) (b : UInt8) : List Char × Option Pending :=
  if pending.low ≤ b.toNat ∧ b.toNat ≤ pending.high then
    let value := pending.value * 64 + (b.toNat - 0x80)
    if pending.left = 1 then ([Char.ofNat value], none)
    else ([], some { value, left := pending.left - 1 })
  else (replacement :: (lead b).1, (lead b).2)

def feed : Option Pending → UInt8 → List Char × Option Pending
  | none => lead
  | some pending => follow pending

/-- The text read from the rest of the bytes. -/
def decodeFrom : Option Pending → List UInt8 → List Char
  | none, [] => []
  | some _, [] => [replacement]
  | pending, b :: rest => (feed pending b).1 ++ decodeFrom (feed pending b).2 rest

/-- `bytes.decode("utf-8", errors="replace")`. -/
def decode (bytes : List UInt8) : List Char := decodeFrom none bytes

/-- `\r\n` and `\r` read as `\n`. -/
def translateNewlines : List Char → List Char
  | [] => []
  | '\r' :: '\n' :: rest => '\n' :: translateNewlines rest
  | '\r' :: rest => '\n' :: translateNewlines rest
  | c :: rest => c :: translateNewlines rest

/-! ### Sequences begun -/

/-- The least scalar a sequence begun can still read. -/
def Pending.least (p : Pending) : ℕ := p.value * 64 ^ p.left + (p.low - 0x80) * 64 ^ (p.left - 1)

/-- The bound of the scalars a sequence begun can still read. -/
def Pending.bound (p : Pending) : ℕ :=
  p.value * 64 ^ p.left + (p.high - 0x7F) * 64 ^ (p.left - 1)

/-- It reads a scalar, and no ASCII one. -/
structure Pending.Sound (p : Pending) : Prop where
  left : 1 ≤ p.left ∧ p.left ≤ 3
  low : 0x80 ≤ p.low
  high : 0x80 ≤ p.high
  wide : 0x80 ≤ p.least
  scalar : p.bound ≤ 0xD800 ∨ (0xE000 ≤ p.least ∧ p.bound ≤ 0x110000)

variable {b : UInt8}

theorem sound_of_lead {pending : Pending} (h : (lead b).2 = some pending) : pending.Sound := by
  have hb := b.toNat_lt
  simp only [lead] at h
  split at h
  · cases h
  split at h
  · cases h
  split at h
  · obtain rfl := Option.some.inj h
    constructor <;> simp only [Pending.least, Pending.bound] <;> omega
  split at h
  · obtain rfl := Option.some.inj h
    constructor <;> simp only [Pending.least, Pending.bound] <;> (try split_ifs) <;> omega
  split at h
  · obtain rfl := Option.some.inj h
    constructor <;> simp only [Pending.least, Pending.bound] <;> (try split_ifs) <;> omega
  · cases h

theorem sound_of_follow {p pending : Pending} (hp : p.Sound)
    (h : (follow p b).2 = some pending) : pending.Sound := by
  obtain ⟨⟨hleft, hleft'⟩, hlow, hhigh, hwide, hscalar⟩ := hp
  simp only [follow] at h
  split at h
  · rename_i hrange
    split at h
    · cases h
    · obtain rfl := Option.some.inj h
      have hfrom : p.low - 0x80 ≤ b.toNat - 0x80 := by omega
      have hto : b.toNat - 0x80 + 1 ≤ p.high - 0x7F := by omega
      simp only [Pending.least, Pending.bound] at hwide hscalar
      obtain ht | ht : p.left = 2 ∨ p.left = 3 := by omega
      all_goals
        rw [ht] at hwide hscalar
        norm_num at hwide hscalar
        constructor <;> simp only [Pending.least, Pending.bound, ht] <;> norm_num
        · linarith
        · rcases hscalar with hscalar | ⟨hleast, hbound⟩
          · exact .inl (by linarith)
          · exact .inr ⟨by linarith, by linarith⟩
  · exact sound_of_lead h

theorem sound_of_feed {pending : Option Pending} (hp : ∀ p ∈ pending, p.Sound) :
    ∀ p ∈ (feed pending b).2, p.Sound := by
  intro p h
  cases pending with
  | none => exact sound_of_lead h
  | some q => exact sound_of_follow (hp q rfl) h

/-! ### ASCII bytes -/

theorem lead_of_ascii (h : b.toNat < 0x80) : lead b = ([Char.ofNat b.toNat], none) := by
  rw [lead, if_pos h]

theorem feed_ascii {pending : Option Pending} (hp : ∀ p ∈ pending, p.Sound) (h : b.toNat < 0x80) :
    feed pending b = ((pending.map fun _ => replacement).toList ++ [Char.ofNat b.toNat], none) := by
  cases pending with
  | none => exact lead_of_ascii h
  | some p =>
    have hlow := (hp p rfl).low
    have hout : ¬ (p.low ≤ b.toNat ∧ b.toNat ≤ p.high) := by omega
    rw [feed, follow, if_neg hout, lead_of_ascii h]
    rfl

theorem decodeFrom_nil (pending : Option Pending) :
    decodeFrom pending [] = (pending.map fun _ => replacement).toList := by
  cases pending <;> rfl

theorem decodeFrom_cons (pending : Option Pending) (b : UInt8) (rest : List UInt8) :
    decodeFrom pending (b :: rest) = (feed pending b).1 ++ decodeFrom (feed pending b).2 rest := by
  cases pending <;> rfl

/-- **Text is read up to an ASCII byte as it is read alone.** -/
theorem decode_append_ascii (bytes : List UInt8) (h : b.toNat < 0x80) (rest : List UInt8) :
    decode (bytes ++ b :: rest) = decode bytes ++ Char.ofNat b.toNat :: decode rest := by
  have hfrom : ∀ (bytes : List UInt8) (pending : Option Pending), (∀ p ∈ pending, p.Sound) →
      decodeFrom pending (bytes ++ b :: rest) =
        decodeFrom pending bytes ++ Char.ofNat b.toNat :: decode rest := by
    intro bytes
    induction bytes with
    | nil =>
      intro pending hpending
      rw [nil_append, decodeFrom_cons, feed_ascii hpending h, decodeFrom_nil,
        append_assoc]
      rfl
    | cons a bytes ih =>
      intro pending hpending
      rw [cons_append, decodeFrom_cons, decodeFrom_cons, append_assoc,
        ih _ (sound_of_feed hpending)]
  exact hfrom bytes none fun p hp => by cases hp

/-- A character read where a byte is fed is the byte's own, or past ASCII. -/
def ReadOf (b : UInt8) (c : Char) : Prop := c.toNat = b.toNat ∨ 0x80 ≤ c.toNat

theorem readOf_replacement (b : UInt8) : ReadOf b replacement := .inr (by decide)

theorem readOf_lead : ∀ c ∈ (lead b).1, ReadOf b c := by
  intro c hc
  simp only [lead] at hc
  split at hc
  · rename_i hascii
    rw [mem_singleton] at hc
    subst hc
    left
    rw [Char.toNat_ofNat, if_pos (.inl (by omega))]
  split at hc
  · rw [mem_singleton.mp hc]
    exact readOf_replacement b
  split at hc
  · cases hc
  split at hc
  · cases hc
  split at hc
  · cases hc
  · rw [mem_singleton.mp hc]
    exact readOf_replacement b

theorem readOf_follow {p : Pending} (hp : p.Sound) : ∀ c ∈ (follow p b).1, ReadOf b c := by
  intro c hc
  simp only [follow] at hc
  split at hc
  · rename_i hrange
    split at hc
    · rename_i hlast
      obtain ⟨-, hlow, hhigh, hwide, hscalar⟩ := hp
      simp only [Pending.least, Pending.bound, hlast] at hwide hscalar
      have hread := mem_singleton.mp hc
      have hvalid : (p.value * 64 + (b.toNat - 0x80)).isValidChar := by
        simp only [Nat.isValidChar]
        omega
      right
      rw [hread, Char.toNat_ofNat, if_pos hvalid]
      omega
    · cases hc
  · rcases mem_cons.mp hc with rfl | hc
    · exact readOf_replacement b
    · exact readOf_lead c hc

variable {c : Char}

/-- **An ASCII character is read of its own byte.** -/
theorem byte_of_mem_decode {bytes : List UInt8} (h : c ∈ decode bytes)
    (hascii : c.toNat < 0x80) : ∃ b ∈ bytes, b.toNat = c.toNat := by
  have hfrom : ∀ (bytes : List UInt8) (pending : Option Pending), (∀ p ∈ pending, p.Sound) →
      c ∈ decodeFrom pending bytes → ∃ b ∈ bytes, b.toNat = c.toNat := by
    intro bytes
    induction bytes with
    | nil =>
      intro pending _ hc
      rw [decodeFrom_nil] at hc
      cases pending with
      | none => cases hc
      | some p =>
        obtain rfl : c = replacement := mem_singleton.mp hc
        exact absurd hascii (by decide)
    | cons b bytes ih =>
      intro pending hpending hc
      rw [decodeFrom_cons] at hc
      rcases mem_append.mp hc with hc | hc
      · have hread : ReadOf b c := by
          cases pending with
          | none => exact readOf_lead c hc
          | some p => exact readOf_follow (hpending p rfl) c hc
        rcases hread with hread | hpast
        · exact ⟨b, mem_cons_self, hread.symm⟩
        · omega
      · obtain ⟨a, ha, hread⟩ := ih _ (sound_of_feed hpending) hc
        exact ⟨a, mem_cons_of_mem _ ha, hread⟩
  exact hfrom bytes none (fun p hp => by cases hp) h

/-! ### Line ends -/

theorem translateNewlines_cons (h : c ≠ '\r') (rest : List Char) :
    translateNewlines (c :: rest) = c :: translateNewlines rest := by
  rw [translateNewlines]
  · rintro _ rfl
    exact absurd rfl h
  · rintro rfl
    exact absurd rfl h

theorem translateNewlines_of_not_mem {text : List Char} (h : '\r' ∉ text) :
    translateNewlines text = text := by
  induction text with
  | nil => rfl
  | cons c text ih =>
    rw [mem_cons, not_or] at h
    rw [translateNewlines_cons (fun e => h.1 e.symm), ih h.2]

theorem translateNewlines_append (hcr : c ≠ '\r') (hlf : c ≠ '\n') (text rest : List Char) :
    translateNewlines (text ++ c :: rest) =
      translateNewlines text ++ c :: translateNewlines rest := by
  fun_induction translateNewlines text with
  | case1 => exact translateNewlines_cons hcr rest
  | case2 text ih => rw [cons_append, cons_append, translateNewlines, ih, cons_append]
  | case3 text hnext ih =>
    cases text with
    | nil =>
      have hline : translateNewlines ('\r' :: c :: rest) = '\n' :: translateNewlines (c :: rest) := by
        rw [translateNewlines]
        rintro _ h
        exact hlf (List.cons.inj h).1
      rw [cons_append, nil_append, hline, translateNewlines_cons hcr]
      rfl
    | cons d text =>
      rw [cons_append, translateNewlines, ih, cons_append]
      rintro _ h
      exact hnext _ (by rw [(List.cons.inj h).1])
  | case4 d text _ hd ih => rw [cons_append, translateNewlines_cons hd, ih, cons_append]

theorem mem_of_mem_translateNewlines {text : List Char} (hlf : c ≠ '\n')
    (h : c ∈ translateNewlines text) : c ∈ text := by
  fun_induction translateNewlines text with
  | case1 => cases h
  | case2 text ih => simp_all
  | case3 text _ ih => simp_all
  | case4 d text _ _ ih => 
      rcases mem_cons.mp h with rfl | h
      · exact mem_cons_self
      · exact mem_cons_of_mem _ (ih h)

end Utf8
