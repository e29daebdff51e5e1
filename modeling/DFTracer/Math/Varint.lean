/-
# Numbers of variable length

A number is written in groups of seven bits, lowest first, with the high bit set on every byte but
the last. It is read back in 64 bits, and what follows it is left untouched.
-/

import DFTracer.Math.Cursor
import Mathlib.Tactic.Ring
import Mathlib.Tactic.Linarith

namespace DFTracer.Math.Varint

/-- The bytes of a number. -/
def write (n : Nat) : List UInt8 :=
  if n < 128 then [UInt8.ofNat n] else UInt8.ofNat (n ||| 128) :: write (n / 128)
termination_by n
decreasing_by omega

/-- Read on from a shift, with the bits below it already known. The end of the bytes ends the
number. -/
def readFrom (shift known : Nat) : List UInt8 → Nat × List UInt8
  | [] => (known, [])
  | b :: rest =>
    let known := known ||| (b.toNat % 128) <<< shift % 2 ^ 64
    if b.toNat < 128 then (known, rest) else readFrom (shift + 7) known rest

/-- The number at the front of bytes, in 64 bits, and what follows it. -/
def read (bytes : List UInt8) : Nat × List UInt8 := readFrom 0 0 bytes

variable {n known shift : Nat}

theorem write_of_lt (h : n < 128) : write n = [UInt8.ofNat n] := by
  rw [write, if_pos h]

theorem write_ne_nil (n : Nat) : write n ≠ [] := by
  rw [write]
  split
  · exact List.cons_ne_nil _ _
  · exact List.cons_ne_nil _ _

theorem length_write_pos (n : Nat) : 0 < (write n).length :=
  List.length_pos_iff.mpr (write_ne_nil n)

/-- The byte of a number that goes on. -/
theorem toNat_continued (n : Nat) : (UInt8.ofNat (n ||| 128)).toNat = n % 128 + 128 := by
  have low : (n ||| 128) % 256 = n % 128 + 128 := by
    apply Nat.eq_of_testBit_eq
    intro i
    rw [show (256 : Nat) = 2 ^ 8 from rfl, show n % 128 + 128 = 2 ^ 7 * 1 + n % 128 by omega,
      Nat.testBit_mod_two_pow, Nat.testBit_or, Nat.testBit_two_pow_mul_add 1 (by omega) i,
      show (128 : Nat) = 2 ^ 7 from rfl, Nat.testBit_two_pow, Nat.testBit_mod_two_pow]
    by_cases below : i < 7
    · have : i < 8 := by omega
      have : 7 ≠ i := by omega
      simp [*]
    · by_cases top : i = 7
      · subst top
        simp
      · have : ¬ i < 8 := by omega
        have : i - 7 ≠ 0 := by omega
        have one : Nat.testBit 1 (i - 7) = false := by
          obtain ⟨k, hk⟩ := Nat.exists_eq_succ_of_ne_zero this
          rw [hk]
          simp [Nat.testBit_succ]
        simp [*]
  exact low

/-- New bits go above the known ones. -/
theorem or_shift {bits : Nat} (below : known < 2 ^ shift) (fits : bits * 2 ^ shift < 2 ^ 64) :
    known ||| bits <<< shift % 2 ^ 64 = known + bits * 2 ^ shift := by
  rw [Nat.shiftLeft_eq, Nat.mod_eq_of_lt fits, Nat.or_comm, Nat.mul_comm bits,
    ← Nat.two_pow_add_eq_or_of_lt below, Nat.add_comm]

theorem readFrom_write (n : Nat) (rest : List UInt8)
    (below : known < 2 ^ shift) (fits : n * 2 ^ shift < 2 ^ 64) :
    readFrom shift known (write n ++ rest) = (known + n * 2 ^ shift, rest) := by
  induction n using Nat.strongRecOn generalizing shift known with
  | ind n ih =>
    rw [write]
    by_cases last : n < 128
    · have byte : (UInt8.ofNat n).toNat = n := by
        rw [UInt8.toNat_ofNat']
        omega
      rw [if_pos last, List.singleton_append, readFrom, byte, Nat.mod_eq_of_lt last,
        or_shift below fits]
      exact if_pos last
    · have split : n * 2 ^ shift = n % 128 * 2 ^ shift + n / 128 * 2 ^ (shift + 7) := by
        conv_lhs => rw [← Nat.div_add_mod n 128]
        ring
      have lowFits : n % 128 * 2 ^ shift < 2 ^ 64 := by omega
      have highFits : n / 128 * 2 ^ (shift + 7) < 2 ^ 64 := by omega
      have room : known + n % 128 * 2 ^ shift < 2 ^ (shift + 7) := by
        rw [pow_add]
        have := Nat.mul_le_mul_right (2 ^ shift) (show n % 128 ≤ 127 by omega)
        omega
      have goes : ¬ n % 128 + 128 < 128 := by omega
      rw [if_neg last, List.cons_append, readFrom, toNat_continued, Nat.add_mod_right,
        Nat.mod_mod, or_shift below lowFits]
      simp only [if_neg goes]
      rw [ih (n / 128) (by omega) room highFits, split, Nat.add_assoc]

/-- A number is read back, and what follows it is left. -/
theorem read_write (fits : n < 2 ^ 64) (rest : List UInt8) :
    read (write n ++ rest) = (n, rest) := by
  rw [read, readFrom_write n rest (by decide) (by omega)]
  simp

/-- Read on from a shift for so many bytes at most, with the bits below it already known. -/
def readLimited : (rounds shift known : Nat) → Cursor UInt8 Nat
  | 0, _, _ => failure
  | rounds + 1, shift, known => do
      let b ← Cursor.next
      let known := known ||| (b.toNat % 128) <<< shift % 2 ^ 64
      if b.toNat < 128 then pure known else readLimited rounds (shift + 7) known

theorem readLimited_local (rounds : Nat) :
    ∀ shift known, (readLimited rounds shift known).Local := by
  induction rounds with
  | zero => exact fun _ _ => Cursor.Local.failure
  | succ rounds ih =>
    intro shift known
    apply Cursor.Local.next.bind
    intro b
    by_cases last : b.toNat < 128
    · simp only [if_pos last]
      exact Cursor.Local.pure _
    · simp only [if_neg last]
      exact ih _ _

theorem readLimited_cons (rounds shift known : Nat) (b : UInt8) (rest : List UInt8) :
    readLimited (rounds + 1) shift known (b :: rest) =
      if b.toNat < 128 then some (known ||| (b.toNat % 128) <<< shift % 2 ^ 64, rest)
      else readLimited rounds (shift + 7) (known ||| (b.toNat % 128) <<< shift % 2 ^ 64) rest := by
  by_cases last : b.toNat < 128
  · rw [if_pos last]
    change (if _ then pure _ else _ : Cursor UInt8 Nat) rest = _
    rw [if_pos last]
    rfl
  · rw [if_neg last]
    change (if _ then pure _ else _ : Cursor UInt8 Nat) rest = _
    rw [if_neg last]

/-- A number of few enough bytes is read as it is without a limit. -/
theorem readLimited_write (n : Nat) (rest : List UInt8) {rounds : Nat}
    (few : n < 128 ^ (rounds + 1)) :
    readLimited (rounds + 1) shift known (write n ++ rest) =
      some (readFrom shift known (write n ++ rest)) := by
  induction rounds generalizing n shift known with
  | zero =>
    have last : n < 128 := by omega
    have byte : (UInt8.ofNat n).toNat < 128 := by
      rw [UInt8.toNat_ofNat']
      omega
    rw [write_of_lt last, List.singleton_append, readLimited_cons, readFrom, if_pos byte,
      if_pos byte]
  | succ rounds ih =>
    rw [write]
    by_cases last : n < 128
    · have byte : (UInt8.ofNat n).toNat < 128 := by
        rw [UInt8.toNat_ofNat']
        omega
      rw [if_pos last, List.singleton_append, readLimited_cons, readFrom, if_pos byte,
        if_pos byte]
    · have goes : ¬ (UInt8.ofNat (n ||| 128)).toNat < 128 := by
        rw [toNat_continued]
        omega
      have fewer : n / 128 < 128 ^ (rounds + 1) := by
        apply Nat.div_lt_of_lt_mul
        rwa [← Nat.pow_succ']
      rw [if_neg last, List.cons_append, readLimited_cons, readFrom, if_neg goes, if_neg goes,
        ih _ fewer]

/-- A number of 64 bits is read back from ten bytes at most. -/
theorem readLimited_answers (fits : n < 2 ^ 64) :
    (readLimited 10 0 0).Answers (write n) (some n) := by
  intro rest
  rw [readLimited_write n rest (by omega), readFrom_write n rest (by decide) (by omega)]
  simp

end DFTracer.Math.Varint
