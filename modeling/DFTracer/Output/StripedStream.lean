/-
# When padded stripes are one stream

The file of a session is one stream of gzip members exactly if there is a chunk and padding
members fill what the header and every group of chunks leave of their stripes: a rest that is too
small for a member stays a gap, and so does the stripe that is claimed for chunks that never come.
-/

import DFTracer.Output.StripedFile

namespace DFTracer.Output

open List

namespace Piece

theorem placed_append (offset : Nat) (pieces rest : List Piece) :
    placed offset (pieces ++ rest)
      = placed offset pieces ++ placed (offset + (pieces.flatMap bytes).length) rest := by
  induction pieces generalizing offset with
  | nil => rfl
  | cons piece pieces ih =>
    rw [flatMap_cons, length_append, ← Nat.add_assoc]
    cases piece with
    | given data => exact congrArg ((offset, data) :: ·) (ih _)
    | padding xlen => exact ih _

theorem flatMap_padding (xs : List UInt16) :
    (xs.map padding).flatMap bytes = xs.flatMap paddingMember :=
  flatMap_map _ _ _

theorem placed_padding (offset : Nat) (xs : List UInt16) : placed offset (xs.map padding) = [] := by
  induction xs generalizing offset with
  | nil => rfl
  | cons x xs ih => exact ih _

theorem flatMap_given (group : List Bytes) : (group.map given).flatMap bytes = group.flatten := by
  induction group with
  | nil => rfl
  | cons chunk group ih =>
    rw [map_cons, flatMap_cons, ih]
    rfl

theorem placed_given (offset : Nat) (group : List Bytes) :
    placed offset (group.map given) = groupSpans offset group := by
  induction group generalizing offset with
  | nil => rfl
  | cons chunk group ih => exact congrArg ((offset, chunk) :: ·) (ih _)

variable {offset : Nat} {pieces : List Piece} {rest : List (Nat × Bytes)}

/-- Before the first given member there is nothing but padding. -/
theorem placed_cons {o : Nat} {chunk : Bytes} (first : placed offset pieces = (o, chunk) :: rest) :
    ∃ (xs : List UInt16) (later : List Piece), pieces.flatMap bytes = xs.flatMap paddingMember ++ (chunk ++ later.flatMap bytes) ∧
      o = offset + (xs.flatMap paddingMember).length ∧
      placed (o + chunk.length) later = rest := by
  induction pieces generalizing offset with
  | nil => cases first
  | cons piece pieces ih =>
    cases piece with
    | given data =>
      cases first
      exact ⟨[], pieces, rfl, rfl, rfl⟩
    | padding xlen =>
      obtain ⟨xs, later, bytes_eq, o_eq, rest_eq⟩ := ih first
      refine ⟨xlen :: xs, later, ?_, ?_, rest_eq⟩
      · rw [flatMap_cons, bytes_eq, flatMap_cons, append_assoc]
        rfl
      · rw [o_eq, flatMap_cons, length_append, Nat.add_assoc]
        rfl

theorem placed_nil (none : placed offset pieces = []) :
    ∃ xs : List UInt16, pieces.flatMap bytes = xs.flatMap paddingMember := by
  induction pieces generalizing offset with
  | nil => exact ⟨[], rfl⟩
  | cons piece pieces ih =>
    cases piece with
    | given data => cases none
    | padding xlen =>
      obtain ⟨xs, eq⟩ := ih none
      exact ⟨xlen :: xs, by rw [flatMap_cons, eq]; rfl⟩

/-- Members that follow one another have no padding between them. -/
theorem placed_group {group : List Bytes} (first : placed offset pieces = groupSpans offset group ++ rest) :
    ∃ later, pieces.flatMap bytes = group.flatten ++ later.flatMap bytes ∧
      placed (offset + group.flatten.length) later = rest := by
  induction group generalizing offset pieces with
  | nil => exact ⟨pieces, rfl, first⟩
  | cons chunk group ih =>
    obtain ⟨xs, later, bytes_eq, o_eq, rest_eq⟩ := placed_cons first
    have none : xs.flatMap paddingMember = [] := eq_nil_of_length_eq_zero (by omega)
    obtain ⟨later', bytes_eq', rest_eq'⟩ := ih rest_eq
    refine ⟨later', ?_, ?_⟩
    · rw [bytes_eq, none, bytes_eq', nil_append, flatten_cons, append_assoc]
    · rw [flatten_cons, length_append, ← Nat.add_assoc, rest_eq']

end Piece

open Piece

section Groups

variable {stripeSize : Nat}

/-- The pieces of stripes. -/
def stripePieces (stripeSize : Nat) (groups : List (List Bytes)) : List Piece :=
  groups.flatMap fun group =>
    group.map given ++ (paddings (stripeSize - group.flatten.length)).map padding

theorem length_stripeBytes {group : List Bytes} (fits : group.flatten.length ≤ stripeSize) :
    (stripeBytes stripeSize group).length = stripeSize := by
  have room := length_paddings (stripeSize - group.flatten.length)
  rw [stripeBytes, length_append, length_append, length_replicate]
  omega

/-- Where padding members fill every stripe, the stripes are their pieces. -/
theorem stripePieces_spec {groups : List (List Bytes)} {i : Nat}
    (fits : ∀ group ∈ groups, group.flatten.length ≤ stripeSize)
    (fills : ∀ group ∈ groups, slack (stripeSize - group.flatten.length) = 0) :
    (stripePieces stripeSize groups).flatMap bytes = groups.flatMap (stripeBytes stripeSize) ∧
    placed ((i + 1) * stripeSize) (stripePieces stripeSize groups)
      = stripeSpans stripeSize i groups := by
  induction groups generalizing i with
  | nil => exact ⟨rfl, rfl⟩
  | cons group rest ih =>
    have tail := @ih (i + 1) (fun g h => fits g (mem_cons_of_mem _ h))
      (fun g h => fills g (mem_cons_of_mem _ h))
    have own : (group.map given ++ (paddings (stripeSize - group.flatten.length)).map
        padding).flatMap bytes = stripeBytes stripeSize group := by
      rw [flatMap_append, flatMap_given, flatMap_padding, stripeBytes,
        fills group mem_cons_self, replicate_zero, append_nil]
    have next : (i + 1) * stripeSize + stripeSize = (i + 1 + 1) * stripeSize := by ring
    constructor
    · rw [stripePieces, flatMap_cons, flatMap_append, own, flatMap_cons,
        ← stripePieces, tail.1]
    · rw [stripePieces, flatMap_cons, placed_append, own,
        length_stripeBytes (fits group mem_cons_self), next, ← stripePieces, tail.2,
        placed_append, placed_given, placed_padding, append_nil, stripeSpans]

/-- Pieces that read as padding members, a short rest and stripes, with the groups of the stripes
in their places, leave no rest and no gap in a stripe. -/
theorem no_gap {groups : List (List Bytes)} {i offset : Nat} {pieces : List Piece}
    {ys : List UInt16} {left : Bytes} (some : ∀ group ∈ groups, group ≠ [])
    (fits : ∀ group ∈ groups, group.flatten.length ≤ stripeSize)
    (short : left.length < PAD_MEMBER_FIXED_OVERHEAD)
    (ends : offset + (ys.flatMap paddingMember).length + left.length = (i + 1) * stripeSize)
    (reads : pieces.flatMap bytes
      = ys.flatMap paddingMember ++ left ++ groups.flatMap (stripeBytes stripeSize))
    (places : placed offset pieces = stripeSpans stripeSize i groups) :
    left = [] ∧ ∀ group ∈ groups, slack (stripeSize - group.flatten.length) = 0 := by
  induction groups generalizing i offset pieces ys left with
  | nil =>
    obtain ⟨xs, eq⟩ := placed_nil places
    rw [eq, flatMap_nil, append_nil] at reads
    exact ⟨paddings_unique reads short, fun _ h => absurd h not_mem_nil⟩
  | cons group rest ih =>
    cases group with
    | nil => exact absurd rfl (some [] mem_cons_self)
    | cons chunk group =>
      have own := fits (chunk :: group) mem_cons_self
      obtain ⟨xs, later, eq, start, after⟩ := placed_cons places
      rw [eq, flatMap_cons] at reads
      have gap : (xs.flatMap paddingMember).length
          = (ys.flatMap paddingMember ++ left).length := by
        rw [length_append]
        omega
      obtain ⟨pads, stripe⟩ := append_inj reads gap
      have none := paddings_unique pads short
      obtain ⟨later', eq', after'⟩ := placed_group after
      have lengths : (i + 1) * stripeSize + chunk.length + group.flatten.length
          = (i + 1) * stripeSize + (chunk :: group).flatten.length := by
        rw [flatten_cons, length_append, Nat.add_assoc]
      have tail : later'.flatMap bytes
          = (paddings (stripeSize - (chunk :: group).flatten.length)).flatMap paddingMember
            ++ List.replicate (slack (stripeSize - (chunk :: group).flatten.length)) 0
            ++ rest.flatMap (stripeBytes stripeSize) := by
        have whole : (chunk :: group).flatten ++ later'.flatMap bytes
            = stripeBytes stripeSize (chunk :: group)
              ++ rest.flatMap (stripeBytes stripeSize) := by
          rw [← stripe, eq', flatten_cons, append_assoc]
        rw [stripeBytes, append_assoc, append_assoc] at whole
        rw [append_cancel_left whole, append_assoc]
      have room := length_paddings (stripeSize - (chunk :: group).flatten.length)
      have small := slack_lt (stripeSize - (chunk :: group).flatten.length)
      have next : (i + 1 + 1) * stripeSize = (i + 1) * stripeSize + stripeSize := by ring
      have later := ih (fun g h => some g (mem_cons_of_mem _ h))
        (fun g h => fits g (mem_cons_of_mem _ h))
        (by rw [length_replicate]; exact small)
        (by rw [length_replicate]; omega) tail after'
      refine ⟨none, fun g h => ?_⟩
      rcases mem_cons.mp h with rfl | h
      · exact (replicate_eq_nil_iff _).mp later.1
      · exact later.2 g h

end Groups

/-! ## Sessions -/

/-- Every write of a session is accepted, and there is something to write. -/
structure Session.Accepted (s : Session) : Prop where
  header : s.header.length + PAD_MEMBER_FIXED_OVERHEAD ≤ s.stripeSize
  known : ∀ c ∈ s.chunks, c.workerIdx < s.numWorkers
  fits : ∀ c ∈ s.chunks, c.data.length + PAD_MEMBER_FIXED_OVERHEAD ≤ s.stripeSize
  some : ∀ c ∈ s.chunks, c.data ≠ []
  footer : s.footer ≠ []

namespace PaddedStripedWriter

theorem receive_frame (w : PaddedStripedWriter) (c : Chunk) :
    (w.receive c).stripeSize = w.stripeSize ∧
    (w.receive c).perWorkerLast.length = w.perWorkerLast.length := by
  unfold receive makeRoom
  split
  · exact ⟨rfl, length_set⟩
  · exact ⟨rfl, length_set⟩

/-- Chunks of known workers that fit are all written. -/
theorem writeChunks_accepts {chunks : List Chunk} {w : PaddedStripedWriter}
    (known : ∀ c ∈ chunks, c.workerIdx < w.perWorkerLast.length)
    (fits : ∀ c ∈ chunks, c.data.length + PAD_MEMBER_FIXED_OVERHEAD ≤ w.stripeSize) :
    ∃ spans w', w.writeChunks chunks = some (spans, w') := by
  induction chunks generalizing w with
  | nil => exact ⟨[], w, rfl⟩
  | cons c rest ih =>
    have frame := w.receive_frame c
    obtain ⟨spans, w', later⟩ := @ih (w.receive c)
      (fun c' h => frame.2 ▸ known c' (mem_cons_of_mem _ h))
      (fun c' h => frame.1 ▸ fits c' (mem_cons_of_mem _ h))
    have accepted : w.writeChunk c = some (w.receive c) := by
      rw [writeChunk, if_neg (Nat.not_le_of_lt (known c mem_cons_self)),
        if_neg (Nat.not_lt_of_le (fits c mem_cons_self))]
    refine ⟨(w.receive c).lastMember c.workerIdx :: spans, w', ?_⟩
    rw [writeChunks, accepted]
    dsimp only
    rw [later]
    rfl

end PaddedStripedWriter

/-- A session that is accepted comes to the stripes of its packing. -/
theorem run_packs {s : Session} (accepted : s.Accepted) :
    ∃ w groups, s.run = some w ∧ IsPacking s.stripeSize (s.chunks.map Chunk.data) groups ∧
      w.stripes = (0, padToStripe s.header s.stripeSize) :: stripeWrites s.stripeSize 0 groups ∧
      w.footer = ((max 1 groups.length + 1) * s.stripeSize, s.footer) ∧
      w.spans = (stripeSpans s.stripeSize 0 groups).map fun e => some ⟨e.1, e.2.length⟩ := by
  have known : ∀ c ∈ s.chunks,
      c.workerIdx < (PaddedStripedWriter.init s.stripeSize s.numWorkers).perWorkerLast.length := by
    intro c listed
    rw [PaddedStripedWriter.init, length_replicate]
    exact accepted.known c listed
  obtain ⟨spans, w, run⟩ := PaddedStripedWriter.writeChunks_accepts known accepted.fits
  obtain ⟨groups, packing, emitted, size, next, spans_eq⟩ := writeChunks_drain accepted.some run
  have header : (PaddedStripedWriter.init s.stripeSize s.numWorkers).writeHeader s.header
      = some (0, padToStripe s.header s.stripeSize) :=
    if_neg (Nat.not_lt_of_le accepted.header)
  refine ⟨⟨spans, _ :: w.drainPacker.emitted, w.drainPacker.writeFooter s.footer⟩, groups, ?_,
    packing, congrArg _ emitted, ?_, spans_eq⟩
  · unfold Session.run
    dsimp only
    rw [header, run]
  · rw [PaddedStripedWriter.writeFooter, next, size]

/-- The places that a stream has for its chunks are those that the workers were told. -/
theorem placed_eq {l l' : List (Nat × Bytes)} (data : l.map Prod.snd = l'.map Prod.snd)
    (spans : l.map (fun e => some (MemberSpan.mk e.1 e.2.length))
      = l'.map fun e => some (MemberSpan.mk e.1 e.2.length)) : l = l' := by
  have offsets : l.map Prod.fst = l'.map Prod.fst := by
    have fst (m : List (Nat × Bytes)) : m.map Prod.fst
        = (m.map fun e => some (MemberSpan.mk e.1 e.2.length)).map
          fun span => (span.map MemberSpan.offset).getD 0 := by
      rw [map_map]
      rfl
    rw [fst, fst, spans]
  rw [← zip_unzip l, ← zip_unzip l', unzip_eq_map, unzip_eq_map, offsets, data]

theorem map_stripeSpans (stripeSize i : Nat) (groups : List (List Bytes)) :
    (stripeSpans stripeSize i groups).map Prod.snd = groups.flatten := by
  have own (offset : Nat) (group : List Bytes) :
      (groupSpans offset group).map Prod.snd = group := by
    induction group generalizing offset with
    | nil => rfl
    | cons chunk group ih => exact congrArg (chunk :: ·) (ih _)
  induction groups generalizing i with
  | nil => rfl
  | cons group rest ih => rw [stripeSpans, map_append, own, ih, flatten_cons]

/-- The file of a packing is one stream exactly if there is a group and nothing is left over. -/
theorem oneStream_iff {s : Session} (accepted : s.Accepted) {w : Written}
    {groups : List (List Bytes)}
    (packing : IsPacking s.stripeSize (s.chunks.map Chunk.data) groups)
    (stripes : w.stripes
      = (0, padToStripe s.header s.stripeSize) :: stripeWrites s.stripeSize 0 groups)
    (footer : w.footer = ((max 1 groups.length + 1) * s.stripeSize, s.footer))
    (spans : w.spans = (stripeSpans s.stripeSize 0 groups).map fun e => some ⟨e.1, e.2.length⟩)
    {order : List (Nat × Bytes)} (perm : order.Perm w.stripes) :
    OneStream s w.spans (s.file order w.footer) ↔
      groups ≠ [] ∧ Fills s.stripeSize s.header.length ∧
        ∀ group ∈ groups, Fills s.stripeSize group.flatten.length := by
  have fits : ∀ group ∈ groups, group.flatten.length ≤ s.stripeSize := fun group h =>
    Nat.le_of_add_right_le (packing.fits group h)
  have room := length_paddings (s.stripeSize - s.header.length)
  have left := fill_header accepted.header
  have one : (0 + 1) * s.stripeSize = s.stripeSize := by ring
  have head := Nat.le_of_add_right_le accepted.header
  have ends : s.header.length
      + ((paddings (s.stripeSize - s.header.length)).flatMap paddingMember).length
      + (leftover s.stripeSize s.header).length = (0 + 1) * s.stripeSize := by
    omega
  rw [file_eq accepted.header fits accepted.footer footer (stripes ▸ perm)]
  simp only [fills_iff]
  constructor
  · rintro ⟨pieces, same, data, places⟩
    have reads := append_cancel_left (append_cancel_right same)
    rw [spans] at places
    have places : placed s.header.length pieces = stripeSpans s.stripeSize 0 groups := by
      apply placed_eq _ places
      rw [data, map_stripeSpans, packing.flatten]
    have some : groups ≠ [] := by
      intro empty
      subst empty
      obtain ⟨xs, eq⟩ := placed_nil places
      rw [if_pos rfl, eq] at reads
      have nonempty : xs ≠ [] := by
        intro empty
        rw [empty] at reads
        have zero := (replicate_eq_nil_iff _).mp (append_eq_nil_iff.mp reads).2
        have header := accepted.header
        rw [zero] at header
        exact Nat.not_succ_le_zero _ (Nat.le_of_add_left_le header)
      have few := zeros_after_paddings nonempty reads.symm
      have header := accepted.header
      simp only [PAD_MEMBER_FIXED_OVERHEAD] at header
      omega
    rw [if_neg some, replicate_zero, append_nil] at reads
    have none := no_gap packing.some fits left.2.1 ends reads.symm places
    refine ⟨some, ?_, none.2⟩
    rw [← left.2.2.1, none.1, length_nil]
  · rintro ⟨some, header, fills⟩
    have noLeft : leftover s.stripeSize s.header = [] :=
      eq_nil_of_length_eq_zero (left.2.2.1.trans header)
    have stripes := @stripePieces_spec s.stripeSize groups 0 fits fills
    rw [noLeft, length_nil, Nat.add_zero] at ends
    have places : placed s.header.length
        ((paddings (s.stripeSize - s.header.length)).map Piece.padding
          ++ stripePieces s.stripeSize groups) = stripeSpans s.stripeSize 0 groups := by
      rw [placed_append, placed_padding, nil_append, flatMap_padding, ends, stripes.2]
    refine ⟨(paddings (s.stripeSize - s.header.length)).map Piece.padding
      ++ stripePieces s.stripeSize groups, ?_, ?_, ?_⟩
    · rw [noLeft, if_neg some, replicate_zero, append_nil, append_nil,
        flatMap_append, flatMap_padding, stripes.1]
    · rw [places, map_stripeSpans, packing.flatten]
    · rw [places, spans]

/-- The file of a session is a stream of gzip members in which each chunk is where its worker was
told, and no two writes overlap, exactly if there is a chunk and padding members fill what the
header and each group of chunks that are packed together leave of a stripe. -/
theorem padded_stream_iff (s : Session) (accepted : s.Accepted) :
    ∃ w, s.run = some w ∧ ∀ order : List (Nat × Bytes), order.Perm w.stripes →
      ((OneStream s w.spans (s.file order w.footer) ∧
          (order ++ [w.footer]).Pairwise Math.SparseBytes.Apart ∧
          ∀ xlen rest, readMember (paddingMember xlen ++ rest) = some ([], rest)) ↔
        s.chunks ≠ [] ∧ Fills s.stripeSize s.header.length ∧
          ∀ groups, IsPacking s.stripeSize (s.chunks.map Chunk.data) groups →
            ∀ group ∈ groups, Fills s.stripeSize group.flatten.length) := by
  obtain ⟨w, groups, run, packing, stripes, footer, spans⟩ := run_packs accepted
  refine ⟨w, run, fun order perm => ?_⟩
  have stream := oneStream_iff accepted packing stripes footer spans perm
  have fits : ∀ group ∈ groups, group.flatten.length ≤ s.stripeSize := fun group h =>
    Nat.le_of_add_right_le (packing.fits group h)
  have apart : (order ++ [w.footer]).Pairwise Math.SparseBytes.Apart := by
    have ordered := @writes_apart s.stripeSize s.header s.footer groups
      (Nat.le_of_add_right_le accepted.header) fits
    rw [← stripes, ← footer] at ordered
    exact ordered.perm (perm.symm.append_right _) Or.symm
  have chunks : s.chunks ≠ [] ↔ groups ≠ [] := by
    rw [not_iff_not, ← @map_eq_nil_iff _ _ Chunk.data, ← packing.flatten]
    constructor
    · intro empty
      cases groups with
      | nil => rfl
      | cons group rest =>
        exact absurd (append_eq_nil_iff.mp empty).1 (packing.some group mem_cons_self)
    · intro empty
      rw [empty]
      rfl
  rw [stream, chunks]
  constructor
  · rintro ⟨⟨some, header, fills⟩, -, -⟩
    exact ⟨some, header, fun groups' packing' => packing.unique packing' ▸ fills⟩
  · rintro ⟨some, header, fills⟩
    exact ⟨⟨some, header, fills groups packing⟩, apart, readMember_paddingMember⟩

/-- A session with empty members as header and footer, and members that decompress to nothing as
chunks. -/
def emptyMembers (xlens : List UInt16) : Session where
  stripeSize := 2 ^ 20
  numWorkers := 1
  header := paddingMember 0
  chunks := xlens.map fun xlen => ⟨0, paddingMember xlen⟩
  footer := paddingMember 0

theorem emptyMembers_accepted (xlens : List UInt16) : (emptyMembers xlens).Accepted where
  header := by
    have header : (emptyMembers xlens).header.length = 25 := length_paddingMember 0
    have size : (emptyMembers xlens).stripeSize = 2 ^ 20 := rfl
    rw [header, size]
    decide
  known c listed := by
    obtain ⟨xlen, -, rfl⟩ := mem_map.mp listed
    exact Nat.one_pos
  fits c listed := by
    obtain ⟨xlen, -, rfl⟩ := mem_map.mp listed
    have bound := xlen.toNat_lt
    have size : (emptyMembers xlens).stripeSize = 2 ^ 20 := rfl
    have fixed : PAD_MEMBER_FIXED_OVERHEAD = 25 := rfl
    rw [length_paddingMember]
    omega
  some c listed := by
    obtain ⟨xlen, -, rfl⟩ := mem_map.mp listed
    exact cons_ne_nil _ _
  footer := cons_ne_nil _ _

theorem emptyMembers_packing (xlen : UInt16) :
    IsPacking (emptyMembers [xlen]).stripeSize ((emptyMembers [xlen]).chunks.map Chunk.data)
      [[paddingMember xlen]] :=
  IsPacking.single ((emptyMembers_accepted [xlen]).fits ⟨0, paddingMember xlen⟩
    (mem_singleton_self _))

theorem padded_stream_iff_emptyMembers :
    ∃ w, (emptyMembers [0]).run = some w ∧ ∀ order : List (Nat × Bytes), order.Perm w.stripes →
      OneStream (emptyMembers [0]) w.spans ((emptyMembers [0]).file order w.footer) := by
  obtain ⟨w, run, stream⟩ := padded_stream_iff (emptyMembers [0]) (emptyMembers_accepted [0])
  refine ⟨w, run, fun order perm => ((stream order perm).mpr ⟨cons_ne_nil _ _, ?_, ?_⟩).1⟩
  · have header : (emptyMembers [0]).header.length = 25 := length_paddingMember 0
    rw [header]
    exact .inr (by decide)
  · intro groups packing group listed
    rw [packing.unique (emptyMembers_packing 0)] at listed
    have payload : [paddingMember 0].flatten.length = 25 := by
      rw [flatten_singleton, length_paddingMember]
      rfl
    rw [mem_singleton.mp listed, payload]
    exact .inr (by decide)

/-- Without a chunk, and with a chunk that leaves 10 bytes after the padding members that fit, the
file is no stream in any order of the writes. -/
theorem emptyMembers_no_stream :
    usesPaddedLayout ⟨.STRIPED, 2 ^ 20⟩ true ∧
    ∀ xlens ∈ [[], [65141]], ∃ w, (emptyMembers xlens).run = some w ∧
      ∀ order : List (Nat × Bytes), order.Perm w.stripes →
        ¬ OneStream (emptyMembers xlens) w.spans ((emptyMembers xlens).file order w.footer) := by
  refine ⟨by decide, fun xlens listed => ?_⟩
  obtain ⟨w, groups, run, packing, stripes, footer, spans⟩ :=
    run_packs (emptyMembers_accepted xlens)
  refine ⟨w, run, fun order perm stream => ?_⟩
  obtain ⟨some, -, fills⟩ := (oneStream_iff (emptyMembers_accepted xlens) packing stripes footer
    spans perm).mp stream
  rcases mem_cons.mp listed with rfl | listed
  · cases groups with
    | nil => exact some rfl
    | cons group rest =>
      exact packing.some group mem_cons_self
        (append_eq_nil_iff.mp packing.flatten).1
  · rw [mem_singleton.mp listed] at packing fills
    rw [packing.unique (emptyMembers_packing 65141)] at fills
    have payload : [paddingMember 65141].flatten.length = 65166 := by
      rw [flatten_singleton, length_paddingMember]
      rfl
    have fills := fills _ (mem_singleton_self _)
    rw [payload] at fills
    exact absurd fills (by unfold Fills; decide)

end DFTracer.Output
