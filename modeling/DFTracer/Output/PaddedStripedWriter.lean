/-
# The padded striped writer

Chunks are gathered into stripes of a fixed size. A stripe is filled with gzip members that
decompress to nothing, so that the next one starts where its number says.
-/

import DFTracer.Math.SparseBytes

namespace DFTracer.Output

open List

abbrev Bytes := List UInt8

inductive FileLayout
  | SHARDED
  | STRIPED
  deriving DecidableEq

structure LayoutInfo where
  layout : FileLayout
  stripeSize : Nat

def MIN_PADDED_STRIPE_BYTES : Nat := 1 * 1024 * 1024

def usesPaddedLayout (info : LayoutInfo) (gzip : Bool) : Bool :=
  info.layout = .STRIPED && gzip && info.stripeSize ≥ MIN_PADDED_STRIPE_BYTES

/-- The bytes of a padding member but for its extra ones. -/
def PAD_MEMBER_FIXED_OVERHEAD : Nat := 25

def PAD_MEMBER_MAX_SIZE : Nat := PAD_MEMBER_FIXED_OVERHEAD + 65535

/-- A gzip member with extra bytes, an empty stored block and a trailer of zeros. -/
def paddingMember (xlen : UInt16) : Bytes :=
  [0x1f, 0x8b, 0x08, 0x04, 0, 0, 0, 0, 0, 0xff, (xlen &&& 0xff).toUInt8, (xlen >>> 8).toUInt8]
    ++ List.replicate xlen.toNat 0 ++ [0x01, 0x00, 0x00, 0xff, 0xff] ++ List.replicate 8 0

def appendPaddingMember (out : Bytes) (xlen : UInt16) : Bytes := out ++ paddingMember xlen

theorem length_paddingMember (xlen : UInt16) :
    (paddingMember xlen).length = PAD_MEMBER_FIXED_OVERHEAD + xlen.toNat := by
  simp only [paddingMember, length_append, length_cons, length_nil,
    length_replicate, PAD_MEMBER_FIXED_OVERHEAD]
  omega

variable {out : Bytes} {stripeSize : Nat} {xs : List UInt16}

theorem padding_shrinks {xlen : UInt16} (room : stripeSize - out.length ≥ PAD_MEMBER_MAX_SIZE) :
    stripeSize - (appendPaddingMember out xlen).length < stripeSize - out.length := by
  have some : 0 < PAD_MEMBER_MAX_SIZE := Nat.zero_lt_succ _
  have fixed : 0 < PAD_MEMBER_FIXED_OVERHEAD := Nat.zero_lt_succ _
  rw [appendPaddingMember, length_append, length_paddingMember]
  omega

/-- Fill a stripe with padding members. What is too little for one is left. -/
def padToStripe (out : Bytes) (stripeSize : Nat) : Bytes :=
  if _room : stripeSize - out.length ≥ PAD_MEMBER_MAX_SIZE then
    padToStripe (appendPaddingMember out 65535) stripeSize
  else
    let remaining := stripeSize - out.length
    if remaining ≥ PAD_MEMBER_FIXED_OVERHEAD then
      appendPaddingMember out (UInt16.ofNat (remaining - PAD_MEMBER_FIXED_OVERHEAD))
    else out
termination_by stripeSize - out.length
decreasing_by exact padding_shrinks _room

structure MemberSpan where
  offset : Nat
  length : Nat
  deriving DecidableEq

/-- A chunk and the worker that writes it. -/
structure Chunk where
  workerIdx : Nat
  data : Bytes

/-- The writer with its packer. The packer has claimed the number of its first stripe. -/
structure PaddedStripedWriter where
  stripeSize : Nat
  perWorkerLast : List (Option MemberSpan)
  buf : Bytes := []
  currentStripeIdx : Nat := 0
  nextStripeIdx : Nat := 1
  emitted : List (Nat × Bytes) := []

namespace PaddedStripedWriter

/-- A writer that has been opened for a number of workers. -/
def init (stripeSize numWorkers : Nat) : PaddedStripedWriter where
  stripeSize := stripeSize
  perWorkerLast := List.replicate numWorkers none

variable (w : PaddedStripedWriter)

/-- The write that opening makes, for callers that write no header. -/
def placeholder (stripeSize : Nat) : Nat × Bytes := (0, padToStripe [] stripeSize)

def writeHeader (data : Bytes) : Option (Nat × Bytes) :=
  if data.length + PAD_MEMBER_FIXED_OVERHEAD > w.stripeSize then none
  else some (0, padToStripe data w.stripeSize)

/-- Write the stripe that has been gathered. -/
def launchEmit : PaddedStripedWriter :=
  { w with
    emitted := w.emitted
      ++ [((w.currentStripeIdx + 1) * w.stripeSize, padToStripe w.buf w.stripeSize)] }

/-- Go on to the next stripe when the chunk does not fit. -/
def makeRoom (data : Bytes) : PaddedStripedWriter :=
  if w.buf ≠ [] ∧ w.buf.length + data.length + PAD_MEMBER_FIXED_OVERHEAD > w.stripeSize then
    { w.launchEmit with
      buf := []
      currentStripeIdx := w.nextStripeIdx
      nextStripeIdx := w.nextStripeIdx + 1 }
  else w

/-- Where the packer puts the next chunk. -/
def nextSpan (data : Bytes) : MemberSpan :=
  ⟨(w.currentStripeIdx + 1) * w.stripeSize + w.buf.length, data.length⟩

/-- The packer gathers a chunk and tells its worker where. -/
def receive (c : Chunk) : PaddedStripedWriter :=
  let w := w.makeRoom c.data
  { w with
    buf := w.buf ++ c.data
    perWorkerLast := w.perWorkerLast.set c.workerIdx (some (w.nextSpan c.data)) }

def writeChunk (c : Chunk) : Option PaddedStripedWriter :=
  if c.workerIdx ≥ w.perWorkerLast.length then none
  else if c.data.length + PAD_MEMBER_FIXED_OVERHEAD > w.stripeSize then none
  else some (w.receive c)

def lastMember (workerIdx : Nat) : Option MemberSpan := w.perWorkerLast[workerIdx]?.join

/-- Write chunks in the order in which they arrive. Each worker asks for its span. -/
def writeChunks (w : PaddedStripedWriter) :
    List Chunk → Option (List (Option MemberSpan) × PaddedStripedWriter)
  | [] => some ([], w)
  | c :: rest =>
    match w.writeChunk c with
    | none => none
    | some w =>
      (writeChunks w rest).map fun (spans, final) => (w.lastMember c.workerIdx :: spans, final)

/-- The packer writes what is left. -/
def drainPacker : PaddedStripedWriter := if w.buf ≠ [] then w.launchEmit else w

/-- The write of the footer, after the stripes whose numbers have been claimed. -/
def writeFooter (data : Bytes) : Nat × Bytes := ((w.nextStripeIdx + 1) * w.stripeSize, data)

end PaddedStripedWriter

/-- What a file is written from. -/
structure Session where
  stripeSize : Nat
  numWorkers : Nat
  header : Bytes
  chunks : List Chunk
  footer : Bytes

/-- What a session comes to: the spans that the workers saw, and the writes, of the header and
the stripes and last of the footer. -/
structure Written where
  spans : List (Option MemberSpan)
  stripes : List (Nat × Bytes)
  footer : Nat × Bytes

namespace Session

def run (s : Session) : Option Written :=
  let w := PaddedStripedWriter.init s.stripeSize s.numWorkers
  match w.writeHeader s.header, w.writeChunks s.chunks with
  | some header, some (spans, w) =>
    some ⟨spans, header :: w.drainPacker.emitted, w.drainPacker.writeFooter s.footer⟩
  | _, _ => none

/-- The file after opening, writes in this order, and the footer. -/
def file (s : Session) (order : List (Nat × Bytes)) (footer : Nat × Bytes) : Bytes :=
  (PaddedStripedWriter.placeholder s.stripeSize :: order ++ [footer]).foldl
    (Math.SparseBytes.write 0) []

end Session

/-- A gzip member of a file: given, or padding. -/
inductive Piece where
  | given (data : Bytes)
  | padding (xlen : UInt16)

namespace Piece

def bytes : Piece → Bytes
  | given data => data
  | padding xlen => paddingMember xlen

/-- The given members, with their offsets from where the pieces start. -/
def placed : Nat → List Piece → List (Nat × Bytes)
  | _, [] => []
  | offset, piece :: rest =>
    let later := placed (offset + piece.bytes.length) rest
    match piece with
    | given data => (offset, data) :: later
    | padding _ => later

end Piece

/-- A file is one stream: the header, the chunks, each where its worker was told, with nothing
but padding members between them, and the footer. -/
def OneStream (s : Session) (spans : List (Option MemberSpan)) (file : Bytes) : Prop :=
  ∃ pieces : List Piece,
    file = s.header ++ pieces.flatMap Piece.bytes ++ s.footer ∧
    (Piece.placed s.header.length pieces).map Prod.snd = s.chunks.map Chunk.data ∧
    (Piece.placed s.header.length pieces).map (fun e => some ⟨e.1, e.2.length⟩) = spans

/-- Padding members fill what a payload leaves of a stripe. -/
def Fills (stripeSize payload : Nat) : Prop :=
  (stripeSize - payload) % PAD_MEMBER_MAX_SIZE = 0 ∨
    PAD_MEMBER_FIXED_OVERHEAD ≤ (stripeSize - payload) % PAD_MEMBER_MAX_SIZE

/-- Chunks in groups that fit into a stripe, none of which the next chunk fits into. -/
structure IsPacking (stripeSize : Nat) (chunks : List Bytes) (groups : List (List Bytes)) : Prop where
  flatten : groups.flatten = chunks
  some : ∀ group ∈ groups, group ≠ []
  fits : ∀ group ∈ groups,
    group.flatten.length + PAD_MEMBER_FIXED_OVERHEAD ≤ stripeSize
  full : groups.IsChain fun group next => ∀ chunk ∈ next.head?,
    group.flatten.length + chunk.length + PAD_MEMBER_FIXED_OVERHEAD > stripeSize

/-! ## Padding members

A padding member is a gzip member that decompresses to nothing. Filling a stripe leaves fewer
bytes than a member has, and what padding members a run of bytes is made of can be read off it. -/

/-- One step of the checksum. -/
def crcByte (crc : UInt32) (byte : UInt8) : UInt32 :=
  (List.range 8).foldl
    (fun crc _ => if crc &&& 1 = 1 then (crc >>> 1) ^^^ 0xedb88320 else crc >>> 1)
    (crc ^^^ byte.toUInt32)

/-- The checksum of the bytes of a member. -/
def crc32 (data : Bytes) : UInt32 := data.foldl crcByte 0xffffffff ^^^ 0xffffffff

/-- The number that little-endian bytes are. -/
def littleEndian : Bytes → Nat
  | [] => 0
  | byte :: rest => byte.toNat + 256 * littleEndian rest

/-- Read a final stored block and the trailer: the data, and what follows the member. -/
def readStored : Bytes → Option (Bytes × Bytes)
  | 0x01 :: l0 :: l1 :: n0 :: n1 :: rest =>
    let len := littleEndian [l0, l1]
    let data := rest.take len
    let trailer := (rest.drop len).take 8
    if littleEndian [n0, n1] = 0xffff - len ∧ data.length = len ∧ trailer.length = 8 ∧
        littleEndian (trailer.take 4) = (crc32 data).toNat ∧
        littleEndian (trailer.drop 4) = len then
      some (data, rest.drop (len + 8))
    else none
  | _ => none

/-- Read a gzip member with extra bytes and a stored block. -/
def readMember : Bytes → Option (Bytes × Bytes)
  | 0x1f :: 0x8b :: 0x08 :: 0x04 :: _ :: _ :: _ :: _ :: _ :: _ :: x0 :: x1 :: rest =>
    readStored (rest.drop (littleEndian [x0, x1]))
  | _ => none

/-- The two bytes of the extra length say it. -/
theorem littleEndian_xlen (xlen : UInt16) :
    littleEndian [(xlen &&& 0xff).toUInt8, (xlen >>> 8).toUInt8] = xlen.toNat := by
  have low : (xlen &&& 0xff).toUInt8.toNat = xlen.toNat % 256 := by
    have mask (n : Nat) : n &&& 255 = n % 256 := Nat.and_two_pow_sub_one_eq_mod n 8
    simp [mask]
  have high : (xlen >>> 8).toUInt8.toNat = xlen.toNat / 256 := by
    have bound := xlen.toNat_lt
    simp
    omega
  simp only [littleEndian]
  omega

/-- A padding member is a gzip member that decompresses to nothing. -/
theorem readMember_paddingMember (xlen : UInt16) (rest : Bytes) :
    readMember (paddingMember xlen ++ rest) = some ([], rest) := by
  have skip : (List.replicate xlen.toNat (0 : UInt8) ++ [0x01, 0x00, 0x00, 0xff, 0xff]
      ++ List.replicate 8 0 ++ rest).drop xlen.toNat
      = [0x01, 0x00, 0x00, 0xff, 0xff] ++ List.replicate 8 0 ++ rest := by
    rw [append_assoc, append_assoc, drop_left' (length_replicate), append_assoc]
  have member : paddingMember xlen ++ rest
      = 0x1f :: 0x8b :: 0x08 :: 0x04 :: 0 :: 0 :: 0 :: 0 :: 0 :: 0xff :: (xlen &&& 0xff).toUInt8
        :: (xlen >>> 8).toUInt8 :: (List.replicate xlen.toNat 0
          ++ [0x01, 0x00, 0x00, 0xff, 0xff] ++ List.replicate 8 0 ++ rest) := by
    simp only [paddingMember, cons_append, nil_append]
  have block : readStored ([0x01, 0x00, 0x00, 0xff, 0xff] ++ List.replicate 8 0 ++ rest)
      = some ([], rest) := by
    have checks : littleEndian [0xff, 0xff] = 0xffff - littleEndian [0, 0] ∧
        ([] : Bytes).length = littleEndian [0, 0] ∧ (List.replicate 8 (0 : UInt8)).length = 8 ∧
        littleEndian (List.replicate 4 0) = (crc32 []).toNat ∧
        littleEndian (List.replicate 4 0) = littleEndian [0, 0] := by decide
    exact if_pos checks
  rw [member, readMember, littleEndian_xlen, skip, block]

/-- The extra lengths of the padding members that fill a room. -/
def paddings (room : Nat) : List UInt16 :=
  List.replicate (room / PAD_MEMBER_MAX_SIZE) 65535 ++
    if PAD_MEMBER_FIXED_OVERHEAD ≤ room % PAD_MEMBER_MAX_SIZE then
      [UInt16.ofNat (room % PAD_MEMBER_MAX_SIZE - PAD_MEMBER_FIXED_OVERHEAD)]
    else []

/-- The bytes of a room that padding members leave. -/
def slack (room : Nat) : Nat :=
  if PAD_MEMBER_FIXED_OVERHEAD ≤ room % PAD_MEMBER_MAX_SIZE then 0
  else room % PAD_MEMBER_MAX_SIZE

theorem fills_iff {payload : Nat} :
    Fills stripeSize payload ↔ slack (stripeSize - payload) = 0 := by
  unfold Fills slack
  split
  · rename_i enough
    exact ⟨fun _ => rfl, fun _ => .inr enough⟩
  · rename_i little
    exact ⟨fun fills => fills.resolve_right little, .inl⟩

theorem slack_lt (room : Nat) : slack room < PAD_MEMBER_FIXED_OVERHEAD := by
  unfold slack
  split
  · exact Nat.zero_lt_succ _
  · rename_i little
    exact Nat.lt_of_not_le little

theorem padToStripe_eq (out : Bytes) (stripeSize : Nat) :
    padToStripe out stripeSize = out ++ (paddings (stripeSize - out.length)).flatMap paddingMember := by
  induction out using padToStripe.induct stripeSize with
  | case1 out room ih =>
    have rest : stripeSize - (appendPaddingMember out 65535).length
        = stripeSize - out.length - PAD_MEMBER_MAX_SIZE := by
      rw [appendPaddingMember, length_append, length_paddingMember, Nat.sub_sub]
      rfl
    have more : paddings (stripeSize - out.length)
        = 65535 :: paddings (stripeSize - out.length - PAD_MEMBER_MAX_SIZE) := by
      unfold paddings
      have positive : 0 < PAD_MEMBER_MAX_SIZE := by decide
      rw [Nat.div_eq_sub_div positive room, Nat.mod_eq_sub_mod room, replicate_succ, cons_append]
    rw [padToStripe, dif_pos room, ih, rest, more, flatMap_cons, appendPaddingMember, append_assoc]
  | case2 out room remaining enough =>
    have less : remaining < PAD_MEMBER_MAX_SIZE := Nat.lt_of_not_le room
    rw [padToStripe, dif_neg room]
    rw [if_pos enough, paddings, Nat.div_eq_of_lt less, Nat.mod_eq_of_lt less, if_pos enough]
    simp [appendPaddingMember, remaining]
  | case3 out room remaining little =>
    have less : remaining < PAD_MEMBER_MAX_SIZE := Nat.lt_of_not_le room
    rw [padToStripe, dif_neg room]
    rw [if_neg little, paddings, Nat.div_eq_of_lt less, Nat.mod_eq_of_lt less, if_neg little]
    simp

theorem length_fullPaddings (n : Nat) :
    ((List.replicate n (65535 : UInt16)).flatMap paddingMember).length
      = PAD_MEMBER_MAX_SIZE * n := by
  have full : (paddingMember 65535).length = PAD_MEMBER_MAX_SIZE := length_paddingMember 65535
  rw [length_flatMap, map_replicate, sum_replicate_nat, full, Nat.mul_comm]

theorem length_lastPadding {room : Nat} (enough : PAD_MEMBER_FIXED_OVERHEAD ≤ room)
    (small : room < PAD_MEMBER_MAX_SIZE) :
    (paddingMember (UInt16.ofNat (room - PAD_MEMBER_FIXED_OVERHEAD))).length = room := by
  have bound : room - PAD_MEMBER_FIXED_OVERHEAD < 2 ^ 16 := by
    have max : PAD_MEMBER_MAX_SIZE = 65560 := rfl
    have fixed : PAD_MEMBER_FIXED_OVERHEAD = 25 := rfl
    omega
  rw [length_paddingMember, UInt16.toNat_ofNat', Nat.mod_eq_of_lt bound, Nat.add_sub_cancel' enough]

theorem length_paddings (room : Nat) :
    ((paddings room).flatMap paddingMember).length + slack room = room := by
  have split := Nat.div_add_mod room PAD_MEMBER_MAX_SIZE
  have small : room % PAD_MEMBER_MAX_SIZE < PAD_MEMBER_MAX_SIZE := Nat.mod_lt _ (by decide)
  unfold paddings slack
  rw [flatMap_append, length_append, length_fullPaddings]
  by_cases enough : PAD_MEMBER_FIXED_OVERHEAD ≤ room % PAD_MEMBER_MAX_SIZE
  · rw [if_pos enough, if_pos enough, flatMap_singleton, length_lastPadding enough small,
      Nat.add_zero, split]
  · rw [if_neg enough, if_neg enough, flatMap_nil, length_nil, Nat.add_zero, split]

/-- A payload and its padding members do not exceed a stripe. -/
theorem length_padToStripe (fits : out.length ≤ stripeSize) :
    (padToStripe out stripeSize).length + slack (stripeSize - out.length) = stripeSize := by
  have room := length_paddings (stripeSize - out.length)
  rw [padToStripe_eq, length_append]
  omega

theorem paddingMember_inj {x y : UInt16} {rest rest' : Bytes}
    (same : paddingMember x ++ rest = paddingMember y ++ rest') : x = y ∧ rest = rest' := by
  have extra : littleEndian [(x &&& 0xff).toUInt8, (x >>> 8).toUInt8]
      = littleEndian [(y &&& 0xff).toUInt8, (y >>> 8).toUInt8] := by
    simp only [paddingMember, cons_append, List.cons.injEq, true_and] at same
    rw [same.1, same.2.1]
  rw [littleEndian_xlen, littleEndian_xlen] at extra
  have eq : x = y := UInt16.toNat_inj.mp extra
  subst eq
  exact ⟨rfl, append_cancel_left same⟩

/-- Padding members that read like others and fewer bytes than a member has are the others. -/
theorem paddings_unique {ys : List UInt16} {left : Bytes}
    (same : xs.flatMap paddingMember = ys.flatMap paddingMember ++ left)
    (short : left.length < PAD_MEMBER_FIXED_OVERHEAD) : left = [] := by
  induction ys generalizing xs with
  | nil =>
    cases xs with
    | nil => exact same.symm
    | cons x xs =>
      have length := congrArg List.length same
      rw [flatMap_cons, length_append, length_paddingMember, flatMap_nil, nil_append] at length
      omega
  | cons y ys ih =>
    cases xs with
    | nil =>
      have length := congrArg List.length same
      rw [flatMap_cons, length_append, length_append, length_paddingMember,
        flatMap_nil, length_nil] at length
      omega
    | cons x xs =>
      rw [flatMap_cons, flatMap_cons, append_assoc] at same
      exact ih (paddingMember_inj same).2

/-- Padding members do not end in many zeros. -/
theorem zeros_after_paddings (some : xs ≠ []) {front : Bytes} {n : Nat}
    (same : xs.flatMap paddingMember = front ++ List.replicate n 0) : n < 13 := by
  by_contra many
  have last := dropLast_concat_getLast some
  have zeros : List.replicate n (0 : UInt8) = List.replicate (n - 13) 0 ++ List.replicate 13 0 := by
    rw [← replicate_add]
    congr 1
    omega
  rw [← last, flatMap_append, flatMap_singleton, paddingMember, zeros,
    ← append_assoc, ← append_assoc, ← append_assoc front,
    append_assoc _ [0x01, 0x00, 0x00, 0xff, 0xff]] at same
  have tails := (append_inj' same rfl).2
  exact absurd tails (by decide)

end DFTracer.Output
