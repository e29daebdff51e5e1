/-
# Decoders

A decoder takes a value off the front of a list of symbols, or fails. It reads a code when it
takes exactly the code, whatever follows, and fails on every part of it that is cut short.
Codes that are read one after the other are read together.
-/

import Mathlib

namespace DFTracer.Math

open List

/-- A value off the front of the symbols, with the symbols that are left. -/
abbrev Decoder (σ ε : Type) := StateT (List σ) (Except ε)

namespace Decoder

variable {σ ε α β : Type} {short : ε}

/-- The next `n` symbols. -/
def take (short : ε) (n : Nat) : Decoder σ ε (List σ) := fun symbols =>
  if n ≤ symbols.length then .ok (symbols.take n, symbols.drop n) else .error short

/-- The decoder takes exactly the code, and does not accept less. -/
structure Reads (d : Decoder σ ε α) (short : ε) (code : List σ) (a : α) : Prop where
  whole : ∀ rest, d (code ++ rest) = .ok (a, rest)
  cut : ∀ part, part <+: code → part ≠ code → d part = .error short

variable {code : List σ} {d : Decoder σ ε α} {a : α}

/-- A part of two codes ends in the first or in the second. -/
theorem prefix_append_cases {part code' : List σ} (h : part <+: code ++ code')
    (hne : part ≠ code ++ code') :
    (part <+: code ∧ part ≠ code) ∨ ∃ part', part = code ++ part' ∧ part' <+: code' ∧
      part' ≠ code' := by
  rcases prefix_or_prefix_of_prefix h (List.prefix_append code code') with before | after
  · by_cases same : part = code
    · subst same
      refine .inr ⟨[], (append_nil _).symm, nil_prefix, ?_⟩
      rintro rfl
      exact hne (append_nil _).symm
    · exact .inl ⟨before, same⟩
  · obtain ⟨part', rfl⟩ := after
    refine .inr ⟨part', rfl, (prefix_append_right_inj code).mp h, ?_⟩
    rintro rfl
    exact hne rfl

theorem Reads.pure (a : α) : Reads (Pure.pure a : Decoder σ ε α) short [] a where
  whole _ := rfl
  cut _ h hne := absurd (prefix_nil.mp h) hne

/-- Codes that are read one after the other. -/
theorem Reads.bind {d : Decoder σ ε α} {k : α → Decoder σ ε β} {code' : List σ} {a : α}
    {b : β} (hd : Reads d short code a) (hk : Reads (k a) short code' b) :
    Reads (d >>= k) short (code ++ code') b where
  whole rest := by
    have first := hd.whole (code' ++ rest)
    rw [← append_assoc] at first
    change (d (code ++ code' ++ rest)).bind _ = _
    rw [first]
    exact hk.whole rest
  cut part h hne := by
    change (d part).bind _ = _
    rcases prefix_append_cases h hne with ⟨h, hne⟩ | ⟨part', rfl, h, hne⟩
    · rw [hd.cut part h hne]
      rfl
    · rw [hd.whole part']
      exact hk.cut part' h hne

/-- What is made of a code that is read. -/
theorem Reads.then (f : α → β)
    (h : Reads d short code a) : Reads (d >>= fun a => Pure.pure (f a)) short code (f a) := by
  have both : Reads (d >>= fun a => Pure.pure (f a)) short (code ++ []) (f a) :=
    h.bind (Reads.pure (f a))
  rwa [append_nil] at both

theorem Reads.map (f : α → β) (h : Reads d short code a) : Reads (f <$> d) short code (f a) := by
  exact h.then f

/-- So many symbols are read as they are. -/
theorem reads_take {n : Nat} (h : code.length = n) :
    Reads (take short n) short code code where
  whole rest := by
    subst h
    unfold take
    rw [if_pos (by rw [length_append]; omega), take_left, drop_left]
  cut part hpart hne := by
    have less := hpart.length_le
    have other : part.length ≠ code.length := fun same => hne (hpart.eq_of_length same)
    exact if_neg (by omega)

end Decoder

end DFTracer.Math
