/-
# Numbers in words

A large number is kept in words of 64 bits, the least significant one first. An operation goes
through the words once and carries what does not fit into the next. The words it leaves and the
last carry are together the sum of what was computed for each word.
-/

import Mathlib

namespace DFTracer.Math.Limbs

/-- What a list stands for when each place weighs as much as all numbers of one word. -/
def total {α : Type} (f : α → Nat) (xs : List α) : Nat :=
  xs.foldr (fun x rest => f x + 2 ^ 64 * rest) 0

/-- The number in some words. -/
def value (words : List UInt64) : Nat := total UInt64.toNat words

/-- One word after the other: the low bits of what is computed with the carry stay, and the high
bits are carried. -/
def ripple {α : Type} (f : α → Nat) : List α → Nat → List UInt64 × Nat
  | [], carry => ([], carry)
  | x :: xs, carry =>
    (UInt64.ofNat (f x + carry) :: (ripple f xs ((f x + carry) / 2 ^ 64)).1,
      (ripple f xs ((f x + carry) / 2 ^ 64)).2)

section Ripple

variable {α : Type} {f g : α → Nat} {xs : List α} {carry : Nat}

@[simp] theorem length_ripple : (ripple f xs carry).1.length = xs.length := by
  induction xs generalizing carry with
  | nil => rfl
  | cons x xs ih => exact congrArg (· + 1) ih

/-- The words and the last carry are what was computed. -/
theorem value_ripple :
    value (ripple f xs carry).1 + 2 ^ (64 * xs.length) * (ripple f xs carry).2 =
      total f xs + carry := by
  induction xs generalizing carry with
  | nil =>
    change 0 + 2 ^ 0 * carry = 0 + carry
    rw [Nat.pow_zero, Nat.one_mul]
  | cons x xs ih =>
    have rest := @ih ((f x + carry) / 2 ^ 64)
    change (UInt64.ofNat (f x + carry)).toNat + 2 ^ 64 * value (ripple f xs _).1 +
      2 ^ (64 * (xs.length + 1)) * (ripple f xs _).2 = f x + 2 ^ 64 * total f xs + carry
    rw [UInt64.toNat_ofNat', Nat.mul_succ, Nat.pow_add, Nat.mul_comm (2 ^ (64 * xs.length)),
      Nat.mul_assoc]
    generalize 2 ^ (64 * xs.length) * (ripple f xs ((f x + carry) / 2 ^ 64)).2 = carried
      at rest ⊢
    omega

theorem total_lt (fits : ∀ x ∈ xs, f x < 2 ^ 64) : total f xs < 2 ^ (64 * xs.length) := by
  induction xs with
  | nil => exact Nat.one_pos
  | cons x xs ih =>
    have head := fits x List.mem_cons_self
    have tail := ih fun y mem => fits y (List.mem_cons_of_mem _ mem)
    change f x + 2 ^ 64 * total f xs < 2 ^ (64 * (xs.length + 1))
    rw [Nat.mul_succ, Nat.pow_add]
    generalize 2 ^ (64 * xs.length) = width at tail ⊢
    omega

theorem total_mul (k : Nat) : total (fun x => f x * k) xs = total f xs * k := by
  induction xs with
  | nil => exact (Nat.zero_mul k).symm
  | cons x xs ih =>
    change f x * k + 2 ^ 64 * total (fun x => f x * k) xs = (f x + 2 ^ 64 * total f xs) * k
    rw [ih]
    ring

end Ripple

theorem value_lt (words : List UInt64) : value words < 2 ^ (64 * words.length) :=
  total_lt fun word _ => word.toNat_lt

section Operations

variable {words words' : List UInt64}

/-- The words of a product with a small number. -/
theorem value_times (k carry : Nat) :
    value (ripple (fun w => w.toNat * k) words carry).1 +
        2 ^ (64 * words.length) * (ripple (fun w => w.toNat * k) words carry).2 =
      value words * k + carry := by
  rw [value_ripple, total_mul]
  rfl

/-- The words of a sum. -/
theorem value_plus (same : words.length = words'.length) (carry : Nat) :
    value (ripple (fun p => p.1.toNat + p.2.toNat) (words.zip words') carry).1 +
        2 ^ (64 * words.length) *
          (ripple (fun p => p.1.toNat + p.2.toNat) (words.zip words') carry).2 =
      value words + value words' + carry := by
  have length : (words.zip words').length = words.length := by
    rw [List.length_zip, same, Nat.min_self]
  have parts : total (fun p => p.1.toNat + p.2.toNat) (words.zip words') =
      value words + value words' := by
    clear length
    induction words generalizing words' with
    | nil =>
      obtain rfl := List.length_eq_zero_iff.mp same.symm
      rfl
    | cons w words ih =>
      obtain ⟨w', words', rfl⟩ := List.exists_cons_of_length_eq_add_one same.symm
      have rest := ih (Nat.succ.inj same)
      change w.toNat + w'.toNat + 2 ^ 64 * total _ (words.zip words') =
        w.toNat + 2 ^ 64 * value words + (w'.toNat + 2 ^ 64 * value words')
      omega
  rw [← length, value_ripple, parts]

/-- The words of a complement. -/
theorem total_complement :
    total (fun w => (~~~ w).toNat) words + value words + 1 = 2 ^ (64 * words.length) := by
  induction words with
  | nil => rfl
  | cons w words ih =>
    have bits : (~~~ w).toNat + w.toNat + 1 = 2 ^ 64 := by
      rw [UInt64.toNat_not]
      have := w.toNat_lt
      change 2 ^ 64 - 1 - w.toNat + w.toNat + 1 = 2 ^ 64
      omega
    change (~~~ w).toNat + 2 ^ 64 * total (fun w => (~~~ w).toNat) words +
      (w.toNat + 2 ^ 64 * value words) + 1 = 2 ^ (64 * (words.length + 1))
    rw [Nat.mul_succ, Nat.pow_add]
    omega

/-- The words of what a number lacks to the next power. -/
theorem value_complement :
    value (ripple (fun w => (~~~ w).toNat) words 1).1 =
      (2 ^ (64 * words.length) - value words) % 2 ^ (64 * words.length) := by
  have sum := @value_ripple _ (fun w => (~~~ w).toNat) words 1
  have complement := @total_complement words
  have small := value_lt (ripple (fun w => (~~~ w).toNat) words 1).1
  rw [length_ripple] at small
  generalize 2 ^ (64 * words.length) = width at *
  have eq : width - value words = value (ripple (fun w => (~~~ w).toNat) words 1).1 +
      width * (ripple (fun w => (~~~ w).toNat) words 1).2 := by omega
  rw [eq, Nat.add_mul_mod_self_left, Nat.mod_eq_of_lt small]

/-- Words are compared from the most significant one. -/
def compareWords : List UInt64 → List UInt64 → Ordering
  | w :: words, w' :: words' => (compareWords words words').then (compare w.toNat w'.toNat)
  | _, _ => .eq

theorem compareWords_eq (same : words.length = words'.length) :
    compareWords words words' = compare (value words) (value words') := by
  induction words generalizing words' with
  | nil =>
    obtain rfl := List.length_eq_zero_iff.mp same.symm
    rfl
  | cons w words ih =>
    obtain ⟨w', words', rfl⟩ := List.exists_cons_of_length_eq_add_one same.symm
    have low := w.toNat_lt
    have low' := w'.toNat_lt
    change (compareWords words words').then _ =
      compare (w.toNat + 2 ^ 64 * value words) (w'.toNat + 2 ^ 64 * value words')
    rw [ih (Nat.succ.inj same)]
    rcases lt_trichotomy (value words) (value words') with lt | eq | gt
    · have whole : w.toNat + 2 ^ 64 * value words < w'.toNat + 2 ^ 64 * value words' := by omega
      rw [compare_lt_iff_lt.mpr lt, compare_lt_iff_lt.mpr whole]
      rfl
    · rw [eq, compare_eq_iff_eq.mpr (rfl : value words' = value words')]
      change compare w.toNat w'.toNat = _
      rcases lt_trichotomy w.toNat w'.toNat with lt' | eq' | gt'
      · rw [compare_lt_iff_lt.mpr lt', compare_lt_iff_lt.mpr (Nat.add_lt_add_right lt' _)]
      · rw [eq', compare_eq_iff_eq.mpr rfl, compare_eq_iff_eq.mpr rfl]
      · rw [compare_gt_iff_gt.mpr gt', compare_gt_iff_gt.mpr (Nat.add_lt_add_right gt' _)]
    · have whole : w'.toNat + 2 ^ 64 * value words' < w.toNat + 2 ^ 64 * value words := by omega
      rw [compare_gt_iff_gt.mpr gt, compare_gt_iff_gt.mpr whole]
      rfl

end Operations

end DFTracer.Math.Limbs
