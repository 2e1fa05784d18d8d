import Mathlib

/-!
# Support — Base64 — bytes as text

Base64 in the alphabet that is safe in a URL, padded to a multiple of four characters (`encode`), and a
lenient decoder that reads either alphabet, passes over other characters and stops at the padding
(`decode`).  A text without its padding can be padded again (`repad`), and so decodes to the bytes it
was made of (`decode_repad`).
-/

namespace Base64
open List

/-- The character of six bits. -/
def digit (n : ℕ) : Char :=
  "ABCDEFGHIJKLMNOPQRSTUVWXYZabcdefghijklmnopqrstuvwxyz0123456789-_".toList.getD n 'A'

/-- The six bits of a character, in either alphabet. -/
def value (c : Char) : Option ℕ :=
  if 'A' ≤ c ∧ c ≤ 'Z' then some (c.toNat - 'A'.toNat)
  else if 'a' ≤ c ∧ c ≤ 'z' then some (c.toNat - 'a'.toNat + 26)
  else if '0' ≤ c ∧ c ≤ '9' then some (c.toNat - '0'.toNat + 52)
  else if c = '+' ∨ c = '-' then some 62
  else if c = '/' ∨ c = '_' then some 63
  else none

/-- The characters of some bytes, three bytes to four. -/
def unpadded : List ℕ → List Char
  | a :: b :: c :: rest =>
    digit (a / 4) :: digit (a % 4 * 16 + b / 16) :: digit (b % 16 * 4 + c / 64) :: digit (c % 64) ::
      unpadded rest
  | [a, b] => [digit (a / 4), digit (a % 4 * 16 + b / 16), digit (b % 16 * 4)]
  | [a] => [digit (a / 4), digit (a % 4 * 16)]
  | [] => []

/-- What a text is short of a multiple of four characters, in padding. -/
def repad (text : List Char) : List Char :=
  text ++ List.replicate ((4 - text.length % 4) % 4) '='

def encode (bytes : List ℕ) : List Char := repad (unpadded bytes)

/-- Reading on in a group of four characters: how many were read, the bits left of them, and the
padding met. -/
def decodeFrom : ℕ → ℕ → ℕ → List Char → Option (List ℕ)
  | quad, _, _, [] => if quad = 0 then some [] else none
  | quad, left, pads, c :: rest =>
    if c = '=' then
      if 2 ≤ quad then
        if 4 ≤ quad + (pads + 1) then some [] else decodeFrom quad left (pads + 1) rest
      else decodeFrom quad left pads rest
    else
      match value c with
      | none => decodeFrom quad left pads rest
      | some v =>
        match quad with
        | 0 => decodeFrom 1 v 0 rest
        | 1 => (decodeFrom 2 (v % 16) 0 rest).map ((left * 4 + v / 16) :: ·)
        | 2 => (decodeFrom 3 (v % 4) 0 rest).map ((left * 16 + v / 4) :: ·)
        | _ => (decodeFrom 0 0 0 rest).map ((left * 64 + v) :: ·)

def decode (text : List Char) : Option (List ℕ) := decodeFrom 0 0 0 text

theorem value_digit {n : ℕ} (h : n < 64) : value (digit n) = some n := by
  have hall : ∀ n < 64, value (digit n) = some n := by decide +kernel
  exact hall n h

theorem digit_ne_pad {n : ℕ} (h : n < 64) : digit n ≠ '=' := by
  have hall : ∀ n < 64, digit n ≠ '=' := by decide +kernel
  exact hall n h

section
variable {n : ℕ} (h : n < 64) (left pads : ℕ) (rest : List Char)
include h

theorem decodeFrom_zero : decodeFrom 0 left pads (digit n :: rest) = decodeFrom 1 n 0 rest := by
  rw [decodeFrom, if_neg (digit_ne_pad h), value_digit h]
  rfl

theorem decodeFrom_one : decodeFrom 1 left pads (digit n :: rest) =
    (decodeFrom 2 (n % 16) 0 rest).map ((left * 4 + n / 16) :: ·) := by
  rw [decodeFrom, if_neg (digit_ne_pad h), value_digit h]
  rfl

theorem decodeFrom_two : decodeFrom 2 left pads (digit n :: rest) =
    (decodeFrom 3 (n % 4) 0 rest).map ((left * 16 + n / 4) :: ·) := by
  rw [decodeFrom, if_neg (digit_ne_pad h), value_digit h]
  rfl

theorem decodeFrom_three : decodeFrom 3 left pads (digit n :: rest) =
    (decodeFrom 0 0 0 rest).map ((left * 64 + n) :: ·) := by
  rw [decodeFrom, if_neg (digit_ne_pad h), value_digit h]
  rfl

end

theorem ne_pad_of_mem_unpadded : ∀ {bytes : List ℕ}, (∀ b ∈ bytes, b < 256) →
    ∀ c ∈ unpadded bytes, c ≠ '='
  | [], _, c, hc => nomatch hc
  | [a], hbytes, c, hc => by
    simp only [forall_mem_cons, not_mem_nil, false_imp_iff, implies_true, and_true] at hbytes
    simp only [unpadded, mem_cons, not_mem_nil, or_false] at hc
    rcases hc with rfl | rfl <;> exact digit_ne_pad (by omega)
  | [a, b], hbytes, c, hc => by
    simp only [forall_mem_cons, not_mem_nil, false_imp_iff, implies_true, and_true] at hbytes
    simp only [unpadded, mem_cons, not_mem_nil, or_false] at hc
    rcases hc with rfl | rfl | rfl <;> exact digit_ne_pad (by omega)
  | a :: b :: d :: rest, hbytes, c, hc => by
    simp only [forall_mem_cons] at hbytes
    simp only [unpadded, mem_cons] at hc
    rcases hc with rfl | rfl | rfl | rfl | hc
    · exact digit_ne_pad (by omega)
    · exact digit_ne_pad (by omega)
    · exact digit_ne_pad (by omega)
    · exact digit_ne_pad (by omega)
    · exact ne_pad_of_mem_unpadded hbytes.2.2.2 c hc

/-- **What is encoded decodes to itself.** -/
theorem decode_encode : ∀ {bytes : List ℕ}, (∀ b ∈ bytes, b < 256) → decode (encode bytes) = some bytes
  | [], _ => rfl
  | [a], hbytes => by
    simp only [forall_mem_cons, not_mem_nil, false_imp_iff, implies_true, and_true] at hbytes
    have htext : encode [a] = [digit (a / 4), digit (a % 4 * 16), '=', '='] := rfl
    rw [decode, htext, decodeFrom_zero (by omega), decodeFrom_one (by omega)]
    have hdone : decodeFrom 2 (a % 4 * 16 % 16) 0 ['=', '='] = some [] := rfl
    rw [hdone, Option.map_some]
    congr 2
    omega
  | [a, b], hbytes => by
    simp only [forall_mem_cons, not_mem_nil, false_imp_iff, implies_true, and_true] at hbytes
    have htext : encode [a, b] =
        [digit (a / 4), digit (a % 4 * 16 + b / 16), digit (b % 16 * 4), '='] := rfl
    rw [decode, htext, decodeFrom_zero (by omega), decodeFrom_one (by omega),
      decodeFrom_two (by omega)]
    have hdone : decodeFrom 3 (b % 16 * 4 % 4) 0 ['='] = some [] := rfl
    rw [hdone, Option.map_some, Option.map_some]
    congr 2
    · omega
    · congr 1
      omega
  | a :: b :: c :: rest, hbytes => by
    simp only [forall_mem_cons] at hbytes
    have htext : encode (a :: b :: c :: rest) =
        digit (a / 4) :: digit (a % 4 * 16 + b / 16) :: digit (b % 16 * 4 + c / 64) ::
          digit (c % 64) :: encode rest := by
      have hmod : ((unpadded rest).length + 1 + 1 + 1 + 1) % 4 = (unpadded rest).length % 4 :=
        Nat.add_mod_right _ 4
      simp only [encode, repad, unpadded, length_cons, cons_append, hmod]
    have ih : decodeFrom 0 0 0 (encode rest) = some rest := decode_encode hbytes.2.2.2
    rw [decode, htext, decodeFrom_zero (by omega), decodeFrom_one (by omega),
      decodeFrom_two (by omega), decodeFrom_three (by omega), ih]
    simp only [Option.map_some]
    congr 2
    · omega
    · congr 1
      · omega
      · congr 1
        omega

/-- **A text decodes to the bytes it was made of with its padding cut off and put back.** -/
theorem decode_repad {bytes : List ℕ} (h : ∀ b ∈ bytes, b < 256) :
    decode (repad ((encode bytes).rdropWhile (· = '='))) = some bytes := by
  have hcut : (encode bytes).rdropWhile (· = '=') = unpadded bytes := by
    rw [encode, repad, List.rdropWhile, reverse_append, reverse_replicate,
      dropWhile_append_of_pos]
    · rw [← List.rdropWhile, rdropWhile_eq_self_iff]
      intro hne hpad
      exact ne_pad_of_mem_unpadded h _ (getLast_mem hne) (of_decide_eq_true hpad)
    · intro c hc
      rw [eq_of_mem_replicate hc]
      rfl
  rw [hcut]
  exact decode_encode h

end Base64
