/-
# How chunks are packed

The packer puts as many chunks into a stripe as fit, in the order in which they arrive. So the
stripes hold the groups of the one packing that the chunks have, and each worker is told where
its chunk is in its group.
-/

import DFTracer.Output.PaddedStripedWriter
import Mathlib.Data.List.Chain

namespace DFTracer.Output

open List

/-- The writes of stripes, from a number on. -/
def stripeWrites (stripeSize : Nat) : Nat → List (List Bytes) → List (Nat × Bytes)
  | _, [] => []
  | i, group :: rest =>
    ((i + 1) * stripeSize, padToStripe group.flatten stripeSize)
      :: stripeWrites stripeSize (i + 1) rest

/-- Where the chunks of a group are, from an offset on. -/
def groupSpans : Nat → List Bytes → List (Nat × Bytes)
  | _, [] => []
  | offset, chunk :: rest => (offset, chunk) :: groupSpans (offset + chunk.length) rest

/-- Where the chunks of stripes are, from a number on. -/
def stripeSpans (stripeSize : Nat) : Nat → List (List Bytes) → List (Nat × Bytes)
  | _, [] => []
  | i, group :: rest =>
    groupSpans ((i + 1) * stripeSize) group ++ stripeSpans stripeSize (i + 1) rest

theorem stripeWrites_append (stripeSize i : Nat) (groups rest : List (List Bytes)) :
    stripeWrites stripeSize i (groups ++ rest)
      = stripeWrites stripeSize i groups ++ stripeWrites stripeSize (i + groups.length) rest := by
  induction groups generalizing i with
  | nil => rfl
  | cons group groups ih =>
    rw [cons_append, stripeWrites, stripeWrites, ih, length_cons, cons_append,
      Nat.add_assoc, Nat.add_comm 1]

theorem stripeSpans_append (stripeSize i : Nat) (groups rest : List (List Bytes)) :
    stripeSpans stripeSize i (groups ++ rest)
      = stripeSpans stripeSize i groups ++ stripeSpans stripeSize (i + groups.length) rest := by
  induction groups generalizing i with
  | nil => rfl
  | cons group groups ih =>
    rw [cons_append, stripeSpans, stripeSpans, ih, length_cons, append_assoc,
      Nat.add_assoc, Nat.add_comm 1]

theorem groupSpans_append (offset : Nat) (group rest : List Bytes) :
    groupSpans offset (group ++ rest)
      = groupSpans offset group ++ groupSpans (offset + group.flatten.length) rest := by
  induction group generalizing offset with
  | nil => rfl
  | cons chunk group ih =>
    rw [cons_append, groupSpans, groupSpans, ih, flatten_cons, length_append,
      cons_append, Nat.add_assoc]

/-! ## Packings -/

namespace IsPacking

variable {stripeSize : Nat} {chunks : List Bytes}

/-- A first chunk begins a group. -/
theorem single {chunk : Bytes} (fits : chunk.length + PAD_MEMBER_FIXED_OVERHEAD ≤ stripeSize) :
    IsPacking stripeSize [chunk] [[chunk]] where
  flatten := rfl
  some := by
    intro group listed
    rw [mem_singleton.mp listed]
    exact cons_ne_nil _ _
  fits := by
    intro group listed
    rwa [mem_singleton.mp listed, flatten_singleton]
  full := isChain_singleton _

variable {groups : List (List Bytes)} {current : List Bytes} {chunk : Bytes} {group : List Bytes}
  {rest : List (List Bytes)}

section

variable (packing : IsPacking stripeSize chunks (groups ++ [current]))

include packing

/-- A chunk that fits goes to the last group. -/
theorem extend
    (fits : current.flatten.length + chunk.length + PAD_MEMBER_FIXED_OVERHEAD ≤ stripeSize) :
    IsPacking stripeSize (chunks ++ [chunk]) (groups ++ [current ++ [chunk]]) where
  flatten := by
    rw [← packing.flatten, flatten_append, flatten_append, flatten_singleton,
      flatten_singleton, append_assoc]
  some := by
    intro group listed
    rcases mem_append.mp listed with listed | listed
    · exact packing.some group (mem_append_left _ listed)
    · rw [mem_singleton.mp listed]
      exact append_ne_nil_of_right_ne_nil _ (cons_ne_nil _ _)
  fits := by
    intro group listed
    rcases mem_append.mp listed with listed | listed
    · exact packing.fits group (mem_append_left _ listed)
    · rw [mem_singleton.mp listed, flatten_append, flatten_singleton,
        length_append]
      exact fits
  full := by
    have full := isChain_append.mp packing.full
    refine isChain_append.mpr ⟨full.1, isChain_singleton _, ?_⟩
    intro group last next first
    have nonempty : current ≠ [] :=
      packing.some current (mem_append_right _ (mem_singleton_self _))
    have head : (current ++ [chunk]).head? = current.head? :=
      head?_append_of_ne_nil _ nonempty
    have next : next = current ++ [chunk] := (Option.mem_some.mp first).symm
    rw [next, head]
    exact full.2.2 group last current rfl

/-- A chunk that does not fit begins a group. -/
theorem next
    (exceeds : current.flatten.length + chunk.length + PAD_MEMBER_FIXED_OVERHEAD > stripeSize)
    (fits : chunk.length + PAD_MEMBER_FIXED_OVERHEAD ≤ stripeSize) :
    IsPacking stripeSize (chunks ++ [chunk]) (groups ++ [current] ++ [[chunk]]) where
  flatten := by
    rw [flatten_append, packing.flatten, flatten_singleton]
  some := by
    intro group listed
    rcases mem_append.mp listed with listed | listed
    · exact packing.some group listed
    · exact (single fits).some group listed
  fits := by
    intro group listed
    rcases mem_append.mp listed with listed | listed
    · exact packing.fits group listed
    · exact (single fits).fits group listed
  full := by
    refine isChain_append.mpr ⟨packing.full, isChain_singleton _, ?_⟩
    intro group last next first chunk' head
    rw [getLast?_concat] at last
    cases Option.mem_some.mp last
    cases Option.mem_some.mp first
    cases Option.mem_some.mp head
    exact exceeds

end

/-- The groups after the first are a packing. -/
theorem tail (packing : IsPacking stripeSize chunks (group :: rest)) :
    IsPacking stripeSize rest.flatten rest where
  flatten := rfl
  some next listed := packing.some next (mem_cons_of_mem _ listed)
  fits next listed := packing.fits next (mem_cons_of_mem _ listed)
  full := packing.full.of_cons

/-- The first group has no room for the chunk after it. -/
theorem first_full {later : List Bytes}
    (packing : IsPacking stripeSize chunks (group :: rest)) (after : rest.flatten = chunk :: later) :
    group.flatten.length + chunk.length + PAD_MEMBER_FIXED_OVERHEAD > stripeSize := by
  cases rest with
  | nil => exact absurd after (cons_ne_nil _ _).symm
  | cons next rest =>
    have full := packing.full
    rw [isChain_cons_cons] at full
    apply full.1 chunk
    cases next with
    | nil => exact absurd rfl (packing.some [] (by simp))
    | cons chunk' next => exact congrArg Option.some (List.cons.inj after).1

/-- The first group of a packing is no shorter than that of another. -/
theorem first_le {group' extra : List Bytes} {rest' : List (List Bytes)}
    (packing : IsPacking stripeSize chunks (group :: rest))
    (other : IsPacking stripeSize chunks (group' :: rest')) (longer : group' = group ++ extra) :
    extra = [] := by
  have same : group ++ rest.flatten = group' ++ rest'.flatten :=
    packing.flatten.trans other.flatten.symm
  rw [longer, append_assoc] at same
  have after := append_cancel_left same
  cases extra with
  | nil => rfl
  | cons chunk extra =>
    have exceeds := packing.first_full after
    have fits := other.fits group' mem_cons_self
    rw [longer, flatten_append, flatten_cons, length_append,
      length_append] at fits
    omega

/-- Chunks have one packing. -/
theorem unique {groups groups' : List (List Bytes)} (packing : IsPacking stripeSize chunks groups)
    (other : IsPacking stripeSize chunks groups') : groups = groups' := by
  induction groups generalizing chunks groups' with
  | nil =>
    cases groups' with
    | nil => rfl
    | cons group' rest' =>
      have empty : group' ++ rest'.flatten = [] := other.flatten.trans packing.flatten.symm
      exact absurd (append_eq_nil_iff.mp empty).1
        (other.some group' mem_cons_self)
  | cons group rest ih =>
    cases groups' with
    | nil =>
      have empty : group ++ rest.flatten = [] := packing.flatten.trans other.flatten.symm
      exact absurd (append_eq_nil_iff.mp empty).1
        (packing.some group mem_cons_self)
    | cons group' rest' =>
      have same : group ++ rest.flatten = group' ++ rest'.flatten :=
        packing.flatten.trans other.flatten.symm
      have first : group = group' := by
        rcases append_eq_append_iff.mp same with ⟨extra, longer, -⟩ | ⟨extra, longer, -⟩
        · rw [longer, first_le packing other longer, append_nil]
        · rw [longer, first_le other packing longer, append_nil]
      subst first
      have rests : rest.flatten = rest'.flatten := append_cancel_left same
      rw [ih packing.tail (rests ▸ other.tail)]

end IsPacking

/-! ## The packer -/

/-- A writer that has gathered chunks into stripes, and the current ones into its buffer. -/
structure Gathered (stripeSize : Nat) (done : List (List Bytes)) (current : List Bytes)
    (w : PaddedStripedWriter) : Prop where
  size : w.stripeSize = stripeSize
  buf : w.buf = current.flatten
  index : w.currentStripeIdx = done.length
  next : w.nextStripeIdx = done.length + 1
  emitted : w.emitted = stripeWrites stripeSize 0 done
  packing : current ≠ [] → IsPacking stripeSize (done.flatten ++ current) (done ++ [current])
  start : current = [] → done = []
  some : ∀ chunk ∈ current, chunk ≠ []

namespace Gathered

variable {stripeSize : Nat} {done : List (List Bytes)} {current : List Bytes}
  {w : PaddedStripedWriter}

theorem init (stripeSize numWorkers : Nat) :
    Gathered stripeSize [] [] (PaddedStripedWriter.init stripeSize numWorkers) where
  size := rfl
  buf := rfl
  index := rfl
  next := rfl
  emitted := rfl
  packing some := absurd rfl some
  start _ := rfl
  some _ listed := absurd listed not_mem_nil

section

variable (gathered : Gathered stripeSize done current w)

include gathered

/-- The buffer is empty when no chunk is in it. -/
theorem buf_ne_nil :
    w.buf ≠ [] ↔ current ≠ [] := by
  rw [gathered.buf, not_iff_not, flatten_eq_nil_iff]
  constructor
  · intro empty
    cases current with
    | nil => rfl
    | cons chunk _ =>
      exact absurd (empty chunk mem_cons_self) (gathered.some chunk mem_cons_self)
  · intro empty
    rw [empty]
    exact fun _ listed => absurd listed not_mem_nil

theorem launch :
    w.launchEmit.emitted = stripeWrites stripeSize 0 (done ++ [current]) := by
  rw [stripeWrites_append, ← gathered.emitted, PaddedStripedWriter.launchEmit, gathered.index,
    gathered.size, gathered.buf]
  simp only [stripeWrites, Nat.zero_add]

/-- A chunk that is received is told where it is in its group. -/
theorem receive {c : Chunk} (nonempty : c.data ≠ [])
    (fits : c.data.length + PAD_MEMBER_FIXED_OVERHEAD ≤ stripeSize) :
    ∃ done' current', Gathered stripeSize done' current' (w.receive c) ∧
      done'.flatten ++ current' = done.flatten ++ current ++ [c.data] ∧
      stripeSpans stripeSize 0 (done' ++ [current'])
        = stripeSpans stripeSize 0 (done ++ [current])
          ++ [(((w.makeRoom c.data).nextSpan c.data).offset, c.data)] := by
  by_cases exceeds : w.buf ≠ [] ∧
      w.buf.length + c.data.length + PAD_MEMBER_FIXED_OVERHEAD > w.stripeSize
  · have current_ne := gathered.buf_ne_nil.mp exceeds.1
    have packing := gathered.packing current_ne
    have full := exceeds.2
    rw [gathered.buf, gathered.size] at full
    refine ⟨done ++ [current], [c.data], ?_, ?_, ?_⟩
    · unfold PaddedStripedWriter.receive PaddedStripedWriter.makeRoom
      rw [if_pos exceeds]
      exact {
        size := gathered.size
        buf := (append_nil _).symm
        index := by
          rw [gathered.next, length_append, length_singleton]
        next := by
          rw [gathered.next, length_append, length_singleton]
        emitted := gathered.launch
        packing := fun _ => by
          rw [flatten_append, flatten_singleton]
          exact packing.next full fits
        start := fun empty => absurd empty (cons_ne_nil _ _)
        some := fun chunk listed => mem_singleton.mp listed ▸ nonempty }
    · rw [flatten_append, flatten_singleton]
    · rw [stripeSpans_append stripeSize 0 (done ++ [current]), PaddedStripedWriter.makeRoom,
        if_pos exceeds, PaddedStripedWriter.nextSpan]
      rw [gathered.next, PaddedStripedWriter.launchEmit, gathered.size, length_append,
        length_singleton]
      simp only [stripeSpans, groupSpans, length_nil, Nat.add_zero, Nat.zero_add, append_nil]
  · have room : w.makeRoom c.data = w := if_neg exceeds
    have short : current ≠ [] →
        current.flatten.length + c.data.length + PAD_MEMBER_FIXED_OVERHEAD ≤ stripeSize := by
      intro current_ne
      rw [← gathered.buf, ← gathered.size]
      exact Nat.le_of_not_lt fun more => exceeds ⟨gathered.buf_ne_nil.mpr current_ne, more⟩
    refine ⟨done, current ++ [c.data], ?_, ?_, ?_⟩
    · unfold PaddedStripedWriter.receive
      rw [room]
      exact {
        __ := gathered
        buf := by
          dsimp only
          rw [gathered.buf, flatten_append, flatten_singleton]
        packing := fun _ => by
          rw [← append_assoc]
          by_cases first : current = []
          · rw [gathered.start first, first]
            exact IsPacking.single fits
          · exact (gathered.packing first).extend (short first)
        start := fun empty => absurd empty
          (append_ne_nil_of_right_ne_nil _ (cons_ne_nil _ _))
        some := fun chunk listed => by
          rcases mem_append.mp listed with listed | listed
          · exact gathered.some chunk listed
          · exact mem_singleton.mp listed ▸ nonempty }
    · rw [append_assoc]
    · rw [stripeSpans_append, stripeSpans_append, room, PaddedStripedWriter.nextSpan,
        gathered.index, gathered.size, gathered.buf]
      simp only [stripeSpans, groupSpans_append, groupSpans, append_nil, Nat.zero_add, append_assoc]

end

end Gathered

open PaddedStripedWriter

theorem lastMember_receive (w : PaddedStripedWriter) (c : Chunk)
    (known : c.workerIdx < w.perWorkerLast.length) :
    (w.receive c).lastMember c.workerIdx
      = some ⟨((w.makeRoom c.data).nextSpan c.data).offset, c.data.length⟩ := by
  have same : (w.makeRoom c.data).perWorkerLast = w.perWorkerLast := by
    unfold makeRoom
    split <;> rfl
  have known' : c.workerIdx < (w.makeRoom c.data).perWorkerLast.length := same ▸ known
  unfold lastMember PaddedStripedWriter.receive
  rw [getElem?_set_self known']
  rfl

variable {stripeSize : Nat} {chunks : List Chunk}

/-- Chunks that are written are packed, and each worker is told where its chunk is. -/
theorem writeChunks_packs (nonempty : ∀ c ∈ chunks, c.data ≠ []) :
    ∀ {done current w spans w'}, Gathered stripeSize done current w →
      w.writeChunks chunks = some (spans, w') →
      ∃ done' current' told, Gathered stripeSize done' current' w' ∧
        done'.flatten ++ current' = done.flatten ++ current ++ chunks.map Chunk.data ∧
        stripeSpans stripeSize 0 (done' ++ [current'])
          = stripeSpans stripeSize 0 (done ++ [current]) ++ told ∧
        spans = told.map fun e => some ⟨e.1, e.2.length⟩ := by
  induction chunks with
  | nil =>
    intro done current w spans w' gathered run
    cases run
    exact ⟨done, current, [], gathered, by simp, by simp, rfl⟩
  | cons c rest ih =>
    intro done current w spans w' gathered run
    unfold writeChunks writeChunk at run
    split at run
    · cases run
    · rename_i w₁ accepted
      split at accepted
      · cases accepted
      · rename_i known
        split at accepted
        · cases accepted
        · rename_i fits
          cases accepted
          cases later : (w.receive c).writeChunks rest with
          | none =>
            rw [later] at run
            cases run
          | some final =>
            rw [later] at run
            cases run
            have data := nonempty c mem_cons_self
            have fits : c.data.length + PAD_MEMBER_FIXED_OVERHEAD ≤ stripeSize :=
              gathered.size ▸ Nat.le_of_not_lt fits
            obtain ⟨done₁, current₁, gathered₁, flatten₁, told₁⟩ := gathered.receive data fits
            obtain ⟨done', current', told, gathered', flatten', told', spans'⟩ :=
              ih (fun c' listed => nonempty c' (mem_cons_of_mem _ listed)) gathered₁ later
            let first := (((w.makeRoom c.data).nextSpan c.data).offset, c.data)
            refine ⟨done', current', first :: told, gathered', ?_, ?_, ?_⟩
            · rw [flatten', flatten₁, append_assoc, map_cons, singleton_append]
            · rw [told', told₁, append_assoc, singleton_append]
            · rw [map_cons, ← spans', lastMember_receive w c (Nat.lt_of_not_le known)]

/-- The stripes of a session are the groups of its packing. -/
theorem writeChunks_drain {numWorkers : Nat}
    (nonempty : ∀ c ∈ chunks, c.data ≠ []) {spans : List (Option MemberSpan)}
    {w : PaddedStripedWriter}
    (run : (PaddedStripedWriter.init stripeSize numWorkers).writeChunks chunks = some (spans, w)) :
    ∃ groups, IsPacking stripeSize (chunks.map Chunk.data) groups ∧
      w.drainPacker.emitted = stripeWrites stripeSize 0 groups ∧
      w.drainPacker.stripeSize = stripeSize ∧
      w.drainPacker.nextStripeIdx = max 1 groups.length ∧
      spans = (stripeSpans stripeSize 0 groups).map fun e => some ⟨e.1, e.2.length⟩ := by
  obtain ⟨done, current, told, gathered, flatten, told_eq, spans_eq⟩ :=
    writeChunks_packs nonempty (Gathered.init stripeSize numWorkers) run
  have told_eq : stripeSpans stripeSize 0 (done ++ [current]) = told := told_eq
  have flatten : done.flatten ++ current = chunks.map Chunk.data := flatten
  by_cases empty : current = []
  · have started := gathered.start empty
    subst empty
    subst started
    have drained : w.drainPacker = w :=
      if_neg fun some => (gathered.buf_ne_nil.mp some) rfl
    refine ⟨[], ?_, ?_, ?_, ?_, ?_⟩
    · rw [← flatten]
      exact ⟨rfl, fun _ h => absurd h not_mem_nil, fun _ h => absurd h not_mem_nil,
        isChain_nil⟩
    · rw [drained, gathered.emitted]
    · rw [drained, gathered.size]
    · rw [drained, gathered.next]
      rfl
    · rw [spans_eq, ← told_eq]
      rfl
  · have drained : w.drainPacker = w.launchEmit := if_pos (gathered.buf_ne_nil.mpr empty)
    refine ⟨done ++ [current], ?_, ?_, ?_, ?_, ?_⟩
    · exact flatten ▸ gathered.packing empty
    · rw [drained, gathered.launch]
    · rw [drained]
      exact gathered.size
    · have next : w.launchEmit.nextStripeIdx = done.length + 1 := gathered.next
      rw [drained, next, length_append]
      exact (Nat.max_eq_right (Nat.le_add_left _ _)).symm
    · rw [spans_eq, told_eq]

end DFTracer.Output
