/-
# The file of padded stripes

The writes of a session never overlap, so the file is the same in whatever order they are made.
Stripe by stripe it holds a group of chunks, padding members, and zeros where a padding member
was too large.
-/

import DFTracer.Output.Packing
import Mathlib.Tactic.Ring

namespace DFTracer.Output

open List

open Math.SparseBytes (Apart fill write)

variable {stripeSize : Nat} {groups : List (List Bytes)} {i : Nat}

theorem length_padToStripe_le {out : Bytes} (fits : out.length ≤ stripeSize) :
    (padToStripe out stripeSize).length ≤ stripeSize := by
  have length := length_padToStripe fits
  omega

/-- The writes of stripes are between the first stripe and the one after the last. -/
theorem stripeWrites_within (fits : ∀ group ∈ groups, group.flatten.length ≤ stripeSize) :
    ∀ e ∈ stripeWrites stripeSize i groups, (i + 1) * stripeSize ≤ e.1 ∧
      e.1 + e.2.length ≤ (i + 1 + groups.length) * stripeSize := by
  induction groups generalizing i with
  | nil => exact fun _ h => absurd h not_mem_nil
  | cons group rest ih =>
    intro e listed
    have more : (i + 1 + (group :: rest).length) * stripeSize
        = (i + 1) * stripeSize + stripeSize + rest.length * stripeSize := by
      rw [length_cons]
      ring
    rcases mem_cons.mp listed with rfl | listed
    · have le := length_padToStripe_le (fits group mem_cons_self)
      dsimp only
      omega
    · have within := ih (fun g h => fits g (mem_cons_of_mem _ h)) e listed
      have shift : (i + 1 + 1 + rest.length) * stripeSize
          = (i + 1) * stripeSize + stripeSize + rest.length * stripeSize := by ring
      have next : (i + 1 + 1) * stripeSize = (i + 1) * stripeSize + stripeSize := by ring
      omega

theorem stripeWrites_apart (fits : ∀ group ∈ groups, group.flatten.length ≤ stripeSize) :
    (stripeWrites stripeSize i groups).Pairwise Apart := by
  induction groups generalizing i with
  | nil => exact List.Pairwise.nil
  | cons group rest ih =>
    have fits' : ∀ g ∈ rest, g.flatten.length ≤ stripeSize := fun g h =>
      fits g (mem_cons_of_mem _ h)
    refine List.Pairwise.cons (fun e listed => .inl ?_) (ih fits')
    have within := (stripeWrites_within fits' e listed).1
    have le := length_padToStripe_le (fits group mem_cons_self)
    have next : (i + 1 + 1) * stripeSize = (i + 1) * stripeSize + stripeSize := by ring
    dsimp only
    omega

/-- The number of the footer's stripe is that of the last stripe and one, or 1. -/
theorem writes_apart {stripeSize : Nat} {header footer : Bytes} {groups : List (List Bytes)}
    (head : header.length ≤ stripeSize)
    (fits : ∀ group ∈ groups, group.flatten.length ≤ stripeSize) :
    ((0, padToStripe header stripeSize) :: stripeWrites stripeSize 0 groups
      ++ [((max 1 groups.length + 1) * stripeSize, footer)]).Pairwise Apart := by
  have le := length_padToStripe_le head
  have stripe : stripeSize ≤ (max 1 groups.length + 1) * stripeSize :=
    Nat.le_mul_of_pos_left _ (Nat.zero_lt_succ _)
  have after : ∀ e ∈ (0, padToStripe header stripeSize) :: stripeWrites stripeSize 0 groups,
      e.1 + e.2.length ≤ (max 1 groups.length + 1) * stripeSize := by
    intro e listed
    rcases mem_cons.mp listed with rfl | listed
    · dsimp only
      omega
    · have within := (stripeWrites_within fits e listed).2
      have last : (0 + 1 + groups.length) * stripeSize
          ≤ (max 1 groups.length + 1) * stripeSize := by
        apply Nat.mul_le_mul_right
        omega
      omega
  refine pairwise_append.mpr ⟨?_, pairwise_singleton _ _, ?_⟩
  · refine List.Pairwise.cons (fun e listed => .inl ?_) (stripeWrites_apart fits)
    have within := (stripeWrites_within fits e listed).1
    dsimp only
    omega
  · intro e listed e' last
    rw [mem_singleton.mp last]
    exact .inl (after e listed)

/-! ## The file -/

/-- The bytes of a stripe: a group, padding members, and zeros for the rest. -/
def stripeBytes (stripeSize : Nat) (group : List Bytes) : Bytes :=
  group.flatten ++ (paddings (stripeSize - group.flatten.length)).flatMap paddingMember
    ++ List.replicate (slack (stripeSize - group.flatten.length)) 0

/-- Writing stripes in order appends their bytes, but for the zeros at the end. -/
theorem fill_stripeWrites (room : PAD_MEMBER_FIXED_OVERHEAD ≤ stripeSize) {file : Bytes}
    (fits : ∀ group ∈ groups, group.flatten.length ≤ stripeSize)
    (before : file.length ≤ (i + 1) * stripeSize) :
    ((stripeWrites stripeSize i groups).foldl (write 0) file).length
        ≤ (i + 1 + groups.length) * stripeSize ∧
    fill 0 ((i + 1 + groups.length) * stripeSize)
        ((stripeWrites stripeSize i groups).foldl (write 0) file)
      = fill 0 ((i + 1) * stripeSize) file ++ groups.flatMap (stripeBytes stripeSize) := by
  induction groups generalizing i file with
  | nil => exact ⟨before, (append_nil _).symm⟩
  | cons group rest ih =>
    have length := length_padToStripe (fits group mem_cons_self)
    have small := slack_lt (stripeSize - group.flatten.length)
    have some : padToStripe group.flatten stripeSize ≠ [] := by
      apply ne_nil_of_length_pos
      omega
    have written := Math.SparseBytes.write_past 0 file before some
    have filled : (fill 0 ((i + 1) * stripeSize) file).length = (i + 1) * stripeSize := by
      rw [Math.SparseBytes.length_fill, Nat.max_eq_left before]
    have next : (i + 1 + 1) * stripeSize = (i + 1) * stripeSize + stripeSize := by ring
    have after : (write 0 file ((i + 1) * stripeSize, padToStripe group.flatten stripeSize)).length
        ≤ (i + 1 + 1) * stripeSize := by
      rw [written, length_append]
      omega
    have tail := ih (fun g h => fits g (mem_cons_of_mem _ h)) after
    have shift : i + 1 + (group :: rest).length = i + 1 + 1 + rest.length := by
      rw [length_cons]
      omega
    have stripe : fill 0 ((i + 1 + 1) * stripeSize)
        (write 0 file ((i + 1) * stripeSize, padToStripe group.flatten stripeSize))
        = fill 0 ((i + 1) * stripeSize) file ++ stripeBytes stripeSize group := by
      have rest : (i + 1 + 1) * stripeSize
          - ((i + 1) * stripeSize + (padToStripe group.flatten stripeSize).length)
          = slack (stripeSize - group.flatten.length) := by omega
      rw [written, fill, length_append, filled, rest, append_assoc, padToStripe_eq, stripeBytes]
    rw [stripeWrites, foldl_cons, shift]
    refine ⟨tail.1, ?_⟩
    rw [tail.2, stripe, flatMap_cons, append_assoc]

/-- What a header's stripe keeps of the placeholder. -/
def leftover (stripeSize : Nat) (header : Bytes) : Bytes :=
  fill 0 (slack (stripeSize - header.length))
    ((padToStripe [] stripeSize).drop (padToStripe header stripeSize).length)

theorem write_start (file : Bytes) {data : Bytes} (some : data ≠ []) :
    write 0 file (0, data) = data ++ file.drop data.length := by
  have same : fill 0 0 file = file := by
    rw [fill, Nat.zero_sub, replicate_zero, append_nil]
  unfold write
  rw [if_neg some, same, take_zero, nil_append, Nat.zero_add]

/-- The stripe of the header, over the placeholder. -/
theorem fill_header {header : Bytes}
    (fits : header.length + PAD_MEMBER_FIXED_OVERHEAD ≤ stripeSize) :
    let file := write 0 (write 0 [] (PaddedStripedWriter.placeholder stripeSize))
      (0, padToStripe header stripeSize)
    file.length ≤ stripeSize ∧ (leftover stripeSize header).length < PAD_MEMBER_FIXED_OVERHEAD ∧
    (leftover stripeSize header).length = slack (stripeSize - header.length) ∧
    fill 0 stripeSize file
      = header ++ ((paddings (stripeSize - header.length)).flatMap paddingMember
        ++ leftover stripeSize header) := by
  have length := length_padToStripe (Nat.le_of_add_right_le fits)
  have small := slack_lt (stripeSize - header.length)
  have some : padToStripe header stripeSize ≠ [] := by
    apply ne_nil_of_length_pos
    omega
  have none : ([] : Bytes).length ≤ stripeSize := Nat.zero_le _
  have empty := length_padToStripe none
  have emptySmall := slack_lt (stripeSize - ([] : Bytes).length)
  have some' : padToStripe [] stripeSize ≠ [] := by
    apply ne_nil_of_length_pos
    omega
  have opened : write 0 [] (PaddedStripedWriter.placeholder stripeSize)
      = padToStripe [] stripeSize := by
    rw [PaddedStripedWriter.placeholder, write_start _ some', drop_nil, append_nil]
  have kept : ((padToStripe [] stripeSize).drop (padToStripe header stripeSize).length).length
      ≤ slack (stripeSize - header.length) := by
    rw [length_drop]
    omega
  have leftLength : (leftover stripeSize header).length = slack (stripeSize - header.length) := by
    rw [leftover, Math.SparseBytes.length_fill, Nat.max_eq_left kept]
  intro file
  have fileEq : file = padToStripe header stripeSize
      ++ (padToStripe [] stripeSize).drop (padToStripe header stripeSize).length := by
    rw [← write_start _ some, ← opened]
  refine ⟨?_, by omega, leftLength, ?_⟩
  · rw [fileEq, length_append]
    omega
  · have rest : stripeSize - file.length = slack (stripeSize - header.length)
        - ((padToStripe [] stripeSize).drop (padToStripe header stripeSize).length).length := by
      rw [fileEq, length_append]
      omega
    rw [fill, rest, fileEq, append_assoc, ← fill, ← leftover, padToStripe_eq,
      append_assoc]

/-- The file of a session, for groups of chunks in stripes. -/
theorem file_eq {s : Session} {footer : Nat × Bytes}
    (head : s.header.length + PAD_MEMBER_FIXED_OVERHEAD ≤ s.stripeSize)
    (fits : ∀ group ∈ groups, group.flatten.length ≤ s.stripeSize)
    (some : s.footer ≠ []) (last : footer = ((max 1 groups.length + 1) * s.stripeSize, s.footer))
    {order : List (Nat × Bytes)} (perm : order.Perm
      ((0, padToStripe s.header s.stripeSize) :: stripeWrites s.stripeSize 0 groups)) :
    s.file order footer
      = s.header ++ ((paddings (s.stripeSize - s.header.length)).flatMap paddingMember
          ++ leftover s.stripeSize s.header ++ groups.flatMap (stripeBytes s.stripeSize)
          ++ List.replicate (if groups = [] then s.stripeSize else 0) 0) ++ s.footer := by
  have apart := @writes_apart s.stripeSize s.header s.footer groups
    (Nat.le_of_add_right_le head) fits
  have apart := (pairwise_append.mp apart).1
  have header := fill_header head
  generalize opened : write 0 (write 0 [] (PaddedStripedWriter.placeholder s.stripeSize))
    (0, padToStripe s.header s.stripeSize) = file at header
  have room : PAD_MEMBER_FIXED_OVERHEAD ≤ s.stripeSize := by omega
  have one : (0 + 1) * s.stripeSize = s.stripeSize := by ring
  have start : file.length ≤ (0 + 1) * s.stripeSize := one.symm ▸ header.1
  have stripes := fill_stripeWrites room fits start
  rw [one, header.2.2.2] at stripes
  have ordered : s.file order footer
      = write 0 ((stripeWrites s.stripeSize 0 groups).foldl (write 0) file) footer := by
    rw [Session.file, cons_append, foldl_cons, foldl_append,
      Math.SparseBytes.writes_perm 0 perm apart, foldl_cons, foldl_nil, foldl_cons,
      opened]
  rw [ordered, last]
  cases groups with
  | nil =>
    have two : (max 1 ([] : List (List Bytes)).length + 1) * s.stripeSize
        = s.stripeSize + s.stripeSize := by
      rw [length_nil, Nat.max_eq_left (Nat.zero_le 1)]
      ring
    have more : fill 0 (s.stripeSize + s.stripeSize) file
        = fill 0 s.stripeSize file ++ List.replicate s.stripeSize 0 := by
      rw [fill, fill, append_assoc, ← replicate_add]
      congr 2
      omega
    rw [stripeWrites, foldl_nil, two,
      Math.SparseBytes.write_past 0 file (Nat.le_add_right_of_le header.1) some, more,
      header.2.2.2, if_pos rfl]
    simp only [flatMap_nil, append_nil, append_assoc]
  | cons group rest =>
    have next : (max 1 (group :: rest).length + 1) * s.stripeSize
        = (0 + 1 + (group :: rest).length) * s.stripeSize := by
      congr 1
      rw [length_cons]
      omega
    rw [next, Math.SparseBytes.write_past 0 _ stripes.1 some, stripes.2, if_neg (cons_ne_nil _ _),
      replicate_zero, append_nil]
    simp only [append_assoc]

end DFTracer.Output
