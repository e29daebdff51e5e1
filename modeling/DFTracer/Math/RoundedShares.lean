/-
# Rounded shares of a count

A span of numbers is cut at the multiples of a width. A count is shared among the pieces by their
lengths, each share rounded on its own, and the last piece takes what the others leave. It can
only do so when the others did not take more than there is.
-/

import Mathlib.Algebra.Group.Action.Defs
import Mathlib.Data.Rat.Floor
import Mathlib.Tactic.Positivity

namespace DFTracer.Math.RoundedShares

open List

/-- The integer nearest to a share, the larger of two. -/
def roundedShare (count part whole : Nat) : Nat := (2 * count * part + whole) / (2 * whole)

theorem roundedShare_le {count part whole : Nat} (positive : 0 < whole) (inside : part ≤ whole) :
    roundedShare count part whole ≤ count := by
  have below : 2 * count * part ≤ 2 * count * whole := Nat.mul_le_mul_left _ inside
  rw [roundedShare, Nat.div_le_iff_le_mul_add_pred (by omega)]
  have same : 2 * whole * count = 2 * count * whole := by ring
  omega

/-- The share as a number. -/
theorem floor_share (count part : Nat) {whole : Nat} (positive : 0 < whole) :
    ⌊(count : ℚ) * ((part : ℚ) / (whole : ℚ)) + 1 / 2⌋ = (roundedShare count part whole : ℤ) := by
  have fraction : (count : ℚ) * ((part : ℚ) / (whole : ℚ)) + 1 / 2 =
      ((2 * count * part + whole : ℕ) : ℚ) / ((2 * whole : ℕ) : ℚ) := by
    push_cast
    field_simp
  rw [fraction, Rat.floor_natCast_div_natCast]
  rfl

theorem roundedShare_zero (part whole : Nat) : roundedShare 0 part whole = 0 := by
  exact Nat.div_eq_zero_iff.mpr (by omega)

/-- Fractions of one whole add up to a fraction of it. -/
theorem sum_map_div {ι : Type} (part : ι → Nat) (whole : ℚ) (l : List ι) :
    (l.map fun i => (part i : ℚ) / whole).sum = ((l.map part).sum : ℕ) / whole := by
  induction l with
  | nil => simp
  | cons i l ih =>
    rw [map_cons, sum_cons, ih, map_cons, sum_cons, Nat.cast_add, add_div]

/-! ## Pieces -/

/-- The length of a span in the piece of a multiple. -/
def tile (lo hi width k : Nat) : Nat := min hi ((k + 1) * width) - max lo (k * width)

/-- The multiples whose pieces have some of a span. -/
def touched (lo hi width : Nat) : List Nat :=
  List.range' (lo / width) ((hi - 1) / width + 1 - lo / width)

section Pieces

variable {lo hi width : Nat}

theorem mem_touched (cut : 0 < width) (inhabited : lo < hi) {k : Nat} :
    k ∈ touched lo hi width ↔ k * width < hi ∧ lo < (k + 1) * width := by
  rw [touched, mem_range'_1]
  have low : lo / width ≤ k ↔ lo < (k + 1) * width := by
    rw [← Nat.lt_succ_iff, Nat.div_lt_iff_lt_mul cut]
  have high : k ≤ (hi - 1) / width ↔ k * width ≤ hi - 1 := Nat.le_div_iff_mul_le cut
  omega

theorem sum_steps {f : Nat → Nat} (up : ∀ k, f k ≤ f (k + 1)) (a n : Nat) :
    ((List.range' a n).map fun k => f (k + 1) - f k).sum = f (a + n) - f a := by
  have climbs : ∀ n, f a ≤ f (a + n) := by
    intro n
    induction n with
    | zero => exact Nat.le_refl _
    | succ n ih => exact ih.trans (up (a + n))
  induction n with
  | zero => simp
  | succ n ih =>
    have before := climbs n
    have step := up (a + n)
    rw [range'_1_concat, map_append, sum_append, map_singleton, sum_singleton, ← Nat.add_assoc]
    omega

/-- The pieces make up the span. -/
theorem sum_tiles (cut : 0 < width) (inhabited : lo < hi) :
    ((touched lo hi width).map (tile lo hi width)).sum = hi - lo := by
  have up : ∀ k, max lo (min hi (k * width)) ≤ max lo (min hi ((k + 1) * width)) := by
    intro k
    have := Nat.mul_le_mul_right width (Nat.le_add_right k 1)
    omega
  have steps : (touched lo hi width).map (tile lo hi width) =
      (touched lo hi width).map fun k =>
        max lo (min hi ((k + 1) * width)) - max lo (min hi (k * width)) := by
    apply map_congr_left
    intro k hk
    rw [tile]
    omega
  have last : lo / width ≤ (hi - 1) / width := Nat.div_le_div_right (by omega)
  have front := Nat.div_mul_le_self lo width
  have back : hi - 1 < ((hi - 1) / width + 1) * width := 
    Nat.lt_mul_of_div_lt (Nat.lt_succ_self _) cut
  rw [steps, touched, sum_steps up,
    Nat.add_sub_cancel' (show lo / width ≤ (hi - 1) / width + 1 by omega)]
  omega

theorem tile_le (lo hi width k : Nat) : tile lo hi width k ≤ hi - lo := by
  rw [tile]
  omega

/-- The shares of all pieces but the last: the first has a part of a width, the others have all of
it. -/
def earlierShares (count lo hi width : Nat) : Nat :=
  let inner := (hi - 1) / width - lo / width
  if inner = 0 then 0
  else
    roundedShare count ((lo / width + 1) * width - lo) (hi - lo) +
      (inner - 1) * roundedShare count width (hi - lo)

theorem earlierShares_zero (lo hi width : Nat) : earlierShares 0 lo hi width = 0 := by
  rw [earlierShares]
  split
  next => rfl
  next => rw [roundedShare_zero, roundedShare_zero, Nat.mul_zero]

theorem touched_eq (inhabited : lo < hi) :
    touched lo hi width = List.range' (lo / width) ((hi - 1) / width - lo / width) ++
      [(hi - 1) / width] := by
  have ordered : lo / width ≤ (hi - 1) / width := Nat.div_le_div_right (by omega)
  have size : (hi - 1) / width + 1 - lo / width = ((hi - 1) / width - lo / width) + 1 := by omega
  rw [touched, size, range'_1_concat, Nat.add_sub_cancel' ordered]

/-- The rounded shares of all pieces but the last add up to that. -/
theorem sum_earlierShares (cut : 0 < width) (inhabited : lo < hi) (count : Nat) :
    ((List.range' (lo / width) ((hi - 1) / width - lo / width)).map fun k =>
      roundedShare count (tile lo hi width k) (hi - lo)).sum = earlierShares count lo hi width := by
  rw [earlierShares]
  have front := Nat.div_mul_le_self lo width
  have past : lo < (lo / width + 1) * width := Nat.lt_mul_of_div_lt (Nat.lt_succ_self _) cut
  have upper := Nat.div_mul_le_self (hi - 1) width
  cases size : (hi - 1) / width - lo / width with
  | zero => rfl
  | succ n =>
    have whole : ∀ k, k < (hi - 1) / width → (k + 1) * width < hi := by
      intro k hk
      have := Nat.mul_le_mul_right width (Nat.succ_le_of_lt hk)
      simp only [Nat.succ_eq_add_one] at this
      omega
    have first : tile lo hi width (lo / width) = (lo / width + 1) * width - lo := by
      have := whole (lo / width) (by omega)
      rw [tile]
      omega
    have rest : (List.range' (lo / width + 1) n).map (fun k =>
        roundedShare count (tile lo hi width k) (hi - lo)) =
        List.replicate n (roundedShare count width (hi - lo)) := by
      rw [eq_replicate_iff]
      refine ⟨by rw [length_map, length_range'], ?_⟩
      intro share hshare
      obtain ⟨k, hk, rfl⟩ := mem_map.mp hshare
      rw [mem_range'_1] at hk
      have below := whole k (by omega)
      have above := Nat.mul_le_mul_right width hk.1
      have step : (k + 1) * width = k * width + width := Nat.succ_mul k width
      have full : tile lo hi width k = width := by
        rw [tile]
        omega
      rw [full]
    rw [range'_succ, map_cons, sum_cons, first, rest, sum_replicate,
      if_neg (Nat.succ_ne_zero n), Nat.add_sub_cancel, smul_eq_mul]

end Pieces

end DFTracer.Math.RoundedShares
