/-
# Text that tells its parts

Parts are written one behind the other. Numbers are written in decimal, and bytes of any kind
with their number in front. As long as no number stands directly before another one, the text
tells the parts, and the rest behind them.
-/

import Mathlib

namespace DFTracer.Math.DelimitedText

open List

abbrev Text := List UInt8

/-- Two texts in front of longer ones. When these are the same, the property holds, and what is
behind the texts is the same. -/
def Tells (x y : Text) (p : Prop) : Prop := ∀ u v, x ++ u = y ++ v → p ∧ u = v

namespace Tells

variable {x y : Text} {p q : Prop}

theorem nil : Tells [] [] True := fun _ _ same => ⟨trivial, same⟩

theorem mono (tells : Tells x y p) (weaker : p → q) : Tells x y q := fun u v same =>
  ⟨weaker (tells u v same).1, (tells u v same).2⟩

theorem cons (c : UInt8) (tells : Tells x y p) : Tells (c :: x) (c :: y) p := fun u v same =>
  tells u v (List.cons.inj same).2

theorem of_ne {c d : UInt8} (other : c ≠ d) : Tells (c :: x) (d :: y) p := fun _ _ same =>
  absurd (List.cons.inj same).1 other

/-- Equal texts in front of the whole. -/
theorem eq (tells : Tells x y p) (same : x = y) : p :=
  (tells [] [] (by rw [append_nil, append_nil, same])).1

end Tells

/-! ## Numbers -/

/-- `std::to_string` of an integer. -/
def number (n : Int) : Text :=
  ((if n < 0 then ['-'] else []) ++ Nat.toDigits 10 n.natAbs).map Char.toUInt8

/-- A byte of a number. -/
def Numeric (c : UInt8) : Prop := c.toNat = 45 ∨ 48 ≤ c.toNat ∧ c.toNat ≤ 57

/-- Behind a number, the text goes on with a byte of another kind. -/
def Stops (x : Text) : Prop := ∃ c rest, x = c :: rest ∧ ¬ Numeric c

theorem Stops.cons {c : UInt8} (rest : Text) (stop : ¬ Numeric c) : Stops (c :: rest) :=
  ⟨c, rest, rfl, stop⟩

variable {c : Char} {n m : Int} {s t x y : Text} {p : Prop} {sep : UInt8}

theorem digit_toNat (digit : c.isDigit = true) :
    c.toUInt8.toNat = c.toNat ∧ 48 ≤ c.toNat ∧ c.toNat ≤ 57 := by
  obtain ⟨low, high⟩ := Char.isDigit_iff_toNat.mp digit
  have high : c.toNat ≤ 57 := high
  refine ⟨?_, low, high⟩
  change c.toNat % 2 ^ 8 = c.toNat
  omega

theorem mem_digits {n : Nat} (listed : c ∈ Nat.toDigits 10 n) :
    c.toUInt8.toNat = c.toNat ∧ 48 ≤ c.toNat ∧ c.toNat ≤ 57 :=
  digit_toNat (Nat.isDigit_of_mem_toDigits (by decide) (by decide) listed)

theorem numeric_of_mem {c : UInt8} (listed : c ∈ number n) : Numeric c := by
  obtain ⟨d, mem, rfl⟩ := mem_map.mp listed
  rcases mem_append.mp mem with sign | digit
  · split_ifs at sign
    · obtain rfl := mem_singleton.mp sign
      exact .inl rfl
    · cases sign
  · obtain ⟨same, low, high⟩ := mem_digits digit
    exact .inr ⟨same ▸ low, same ▸ high⟩

theorem number_ne_nil (n : Int) : number n ≠ [] := by
  unfold number
  rw [Ne, map_eq_nil_iff, append_eq_nil_iff]
  exact fun both => Nat.toDigits_ne_nil both.2

theorem digits_back (n : Nat) :
    ((Nat.toDigits 10 n).map Char.toUInt8).map (fun b => Char.ofNat b.toNat) =
      Nat.toDigits 10 n := by
  rw [map_map]
  refine (map_congr_left fun c listed => ?_).trans (map_id _)
  rw [Function.comp_apply, (mem_digits listed).1, Char.ofNat_toNat, id]

theorem digits_injective {m n : Nat}
    (same : (Nat.toDigits 10 m).map Char.toUInt8 = (Nat.toDigits 10 n).map Char.toUInt8) :
    m = n := by
  have chars := congrArg (List.map fun b => Char.ofNat b.toNat) same
  rw [digits_back, digits_back] at chars
  rw [← Nat.ofDigitChars_ten_toDigits (n := m), chars, Nat.ofDigitChars_ten_toDigits]

/-- A number has a sign when it is negative. -/
theorem sign_mem (n : Int) : '-'.toUInt8 ∈ number n ↔ n < 0 := by
  unfold number
  rw [map_append, mem_append]
  constructor
  · rintro (sign | digit)
    · by_contra positive
      rw [if_neg positive] at sign
      cases sign
    · obtain ⟨c, listed, same⟩ := mem_map.mp digit
      obtain ⟨value, low, -⟩ := mem_digits listed
      rw [same] at value
      rw [← value] at low
      exact absurd low (by decide)
  · intro negative
    rw [if_pos negative]
    exact .inl mem_cons_self

theorem number_injective (same : number m = number n) : m = n := by
  have sign : m < 0 ↔ n < 0 := by rw [← sign_mem, same, sign_mem]
  unfold number at same
  by_cases negative : n < 0
  · rw [if_pos negative, if_pos (sign.mpr negative)] at same
    have := digits_injective (List.cons.inj same).2
    omega
  · rw [if_neg negative, if_neg (mt sign.mp negative)] at same
    have := digits_injective same
    omega

/-- The bytes of a number end at the first byte of another kind. -/
theorem numeric_front {u v : Text} (s_numeric : ∀ c ∈ s, Numeric c)
    (t_numeric : ∀ c ∈ t, Numeric c) (left : Stops u) (right : Stops v)
    (same : s ++ u = t ++ v) : s = t ∧ u = v := by
  obtain ⟨c, rest, rfl, c_stops⟩ := left
  obtain ⟨d, rest', rfl, d_stops⟩ := right
  induction s generalizing t with
  | nil =>
    cases t with
    | nil => exact ⟨rfl, same⟩
    | cons b t =>
      obtain ⟨rfl, -⟩ := List.cons.inj same
      exact absurd (t_numeric _ mem_cons_self) c_stops
  | cons a s ih =>
    cases t with
    | nil =>
      obtain ⟨rfl, -⟩ := List.cons.inj same
      exact absurd (s_numeric _ mem_cons_self) d_stops
    | cons b t =>
      obtain ⟨rfl, behind⟩ := List.cons.inj same
      obtain ⟨rfl, rests⟩ := ih (fun c mem => s_numeric c (mem_cons_of_mem _ mem))
        (fun c mem => t_numeric c (mem_cons_of_mem _ mem)) behind
      exact ⟨rfl, rests⟩

theorem Stops.append (stops : Stops x) (u : Text) : Stops (x ++ u) := by
  obtain ⟨c, rest, rfl, stop⟩ := stops
  exact ⟨c, rest ++ u, rfl, stop⟩

/-- Numbers in front of texts that stop them. What follows may depend on the number. -/
theorem Tells.number (left : Stops x) (right : Stops y) (tells : m = n → Tells x y p) :
    Tells (DelimitedText.number m ++ x) (DelimitedText.number n ++ y) (m = n ∧ p) := by
  intro u v same
  rw [append_assoc, append_assoc] at same
  obtain ⟨numbers, rest⟩ := numeric_front (fun _ => numeric_of_mem) (fun _ => numeric_of_mem)
    (left.append u) (right.append v) same
  obtain ⟨told, behind⟩ := tells (number_injective numbers) u v rest
  exact ⟨⟨number_injective numbers, told⟩, behind⟩

/-- Text behind their number. -/
def sized (s : Text) : Text := number s.length ++ ':'.toUInt8 :: s

theorem Tells.sized (tells : Tells x y p) :
    Tells (DelimitedText.sized s ++ x) (DelimitedText.sized t ++ y) (s = t ∧ p) := by
  have colon : ¬ Numeric ':'.toUInt8 := by unfold Numeric; decide
  intro u v same
  unfold DelimitedText.sized at same
  rw [append_assoc, append_assoc, append_assoc, append_assoc] at same
  obtain ⟨numbers, rest⟩ := numeric_front (fun _ => numeric_of_mem) (fun _ => numeric_of_mem)
    (.cons _ colon) (.cons _ colon) same
  have length : s.length = t.length := Int.ofNat_inj.mp (number_injective numbers)
  have behind : s ++ (x ++ u) = t ++ (y ++ v) := (List.cons.inj rest).2
  obtain ⟨bytes, rest⟩ := append_inj behind length
  obtain ⟨told, behind⟩ := tells u v rest
  exact ⟨⟨bytes, told⟩, behind⟩

theorem sized_head (s : Text) : ∃ c rest, sized s = c :: rest ∧ Numeric c := by
  obtain ⟨c, rest, digits⟩ := exists_cons_of_ne_nil (number_ne_nil s.length)
  refine ⟨c, rest ++ ':'.toUInt8 :: s, ?_, ?_⟩
  · unfold sized
    rw [digits]
    rfl
  · exact numeric_of_mem (n := s.length) (by rw [digits]; exact mem_cons_self)

/-- Parts, each behind a separator, and a separator behind the last. -/
def separated (sep : UInt8) (parts : List Text) (x : Text) : Text :=
  parts.flatMap (fun s => sep :: sized s) ++ sep :: x

theorem separated_cons (sep : UInt8) (s : Text) (parts : List Text) (x : Text) :
    separated sep (s :: parts) x = sep :: (sized s ++ separated sep parts x) := by
  unfold separated
  rw [flatMap_cons, append_assoc]
  rfl

theorem separated_stops (stop : ¬ Numeric sep) (parts : List Text) (x : Text) :
    Stops (separated sep parts x) := by
  cases parts with
  | nil => exact .cons _ stop
  | cons s parts => exact separated_cons sep s parts x ▸ .cons _ stop

/-- The number of parts is told by the text behind them, which does not start as a part does. -/
theorem Tells.separated {parts parts' : List Text}
    (left : Stops x) (right : Stops y) (tells : Tells x y p) :
    Tells (DelimitedText.separated sep parts x) (DelimitedText.separated sep parts' y)
      (parts = parts' ∧ p) := by
  induction parts generalizing parts' with
  | nil =>
    cases parts' with
    | nil => exact (tells.cons sep).mono fun told => ⟨rfl, told⟩
    | cons t parts' =>
      obtain ⟨c, rest, rfl, stop⟩ := left
      obtain ⟨d, rest', head, numeric⟩ := sized_head t
      rw [separated_cons, head]
      have other : c ≠ d := fun same => stop (same ▸ numeric)
      exact .cons sep (.of_ne other)
  | cons s parts ih =>
    cases parts' with
    | nil =>
      obtain ⟨d, rest', rfl, stop⟩ := right
      obtain ⟨c, rest, head, numeric⟩ := sized_head s
      rw [separated_cons, head]
      have other : c ≠ d := fun same => stop (same ▸ numeric)
      exact .cons sep (.of_ne other)
    | cons t parts' =>
      rw [separated_cons, separated_cons]
      refine ((ih.sized).cons sep).mono ?_
      rintro ⟨rfl, rfl, told⟩
      exact ⟨rfl, told⟩

end DFTracer.Math.DelimitedText
