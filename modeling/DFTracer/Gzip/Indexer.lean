/-
# Indexing a multi-member gzip file

The candidate members are divided among workers by index. A worker decodes its range and sends one
message per member; a dispatcher takes the workers one after another, puts each worker's messages
back in order, hands the bytes to the visitors and records the members. A slice of a file is
indexed with the partial line at its start dropped and the line across its end completed.
-/

import DFTracer.Gzip.MemberScanner

namespace DFTracer.Gzip

open List

/-- A file's bytes; its size is a 64-bit number. -/
structure File where
  bytes : Bytes
  fits : bytes.length < 2 ^ 64

namespace File

def size (f : File) : Nat := f.bytes.length

end File

/-- The member decoder: from the bytes read so far, the plaintext of the member they
begin with and its compressed length, or nothing when they are no member or not all
of one. -/
structure GzipMemberDecompressor where
  decompress : Bytes → Option (Bytes × Nat)

def newline : UInt8 := 0x0A

/-- `count_newlines`. -/
def countNewlines (bytes : Bytes) : Nat := bytes.count newline

/-- The bytes up to and including the first newline, or all of them. -/
def throughFirstNewline : Bytes → Bytes
  | [] => []
  | b :: rest => if b = newline then [b] else b :: throughFirstNewline rest

/-- What follows the first newline; nothing when there is none. -/
def afterFirstNewline : Bytes → Bytes
  | [] => []
  | b :: rest => if b = newline then rest else afterFirstNewline rest

/-- `ParallelInflateMsg`, without the sequence number, which is the message's position. -/
structure ParallelInflateMsg where
  data : Bytes
  lines : Nat
  memberEnded : Bool
  memberCEnd : Nat

/-- `GzipMemberRecord`. -/
structure GzipMemberRecord where
  memberIdx : Nat
  cOffset : Nat
  cSize : Nat
  ucOffset : Nat
  ucSize : Nat
  firstLineNum : Nat
  lastLineNum : Nat
deriving DecidableEq, Repr

/-- What a visitor is told. -/
inductive VisitorCall where
  | onChunk (data : Bytes) (memberIdx : Nat)
  | onCheckpoint (memberIdx : Nat)
  | flush
deriving DecidableEq, Repr

namespace Indexer

/-- `READ_CHUNK`. -/
def readChunk : Nat := 2 ^ 20

/-- The loop of `decode_member_at`: try what is buffered, read more while there is more.
The output buffer grows whenever the decoder asks for room, so it never decides. -/
def decodeBuffered (dec : GzipMemberDecompressor) : Nat → Bytes → Bytes → Option (Bytes × Nat)
  | 0, _, _ => none
  | fuel + 1, comp, unread =>
    match if comp.isEmpty then none else dec.decompress comp with
    | some decoded => some decoded
    | none =>
      if unread.isEmpty then none
      else decodeBuffered dec fuel (comp ++ unread.take readChunk) (unread.drop readChunk)

/-- `decode_member_at`: plaintext and compressed length of the member at an offset. -/
def decodeMemberAt (dec : GzipMemberDecompressor) (file : File) (cOff : Nat) :
    Option (Bytes × Nat) :=
  decodeBuffered dec (file.size + 2) [] (file.bytes.drop cOff)

/-- The member loop of `parallel_worker`. `none` in the second place is a worker that
stopped at bytes it could not decode. -/
def workerLoop (dec : GzipMemberDecompressor) (file : File) (rangeCEnd : Nat) (strip : Bool) :
    Nat → Nat → Bool → List ParallelInflateMsg × Bool
  | 0, _, _ => ([], true)
  | fuel + 1, cOff, first =>
    if cOff < rangeCEnd then
      match decodeMemberAt dec file cOff with
      | none => ([], false)
      | some (out, inBytes) =>
        let emit := if strip && first then afterFirstNewline out else out
        let rest := workerLoop dec file rangeCEnd strip fuel (cOff + inBytes) false
        (⟨emit, countNewlines emit, true, cOff + inBytes⟩ :: rest.1, rest.2)
    else ([], true)

/-- `parallel_worker`: the messages it sends. A worker that fails stops sending; its
result is not looked at. -/
def parallelWorker (dec : GzipMemberDecompressor) (file : File) (rangeCStart rangeCEnd : Nat)
    (strip extendPastEnd : Bool) : List ParallelInflateMsg :=
  let run := workerLoop dec file rangeCEnd strip (file.size + 1) rangeCStart true
  if run.2 && extendPastEnd && rangeCEnd < file.size then
    match decodeMemberAt dec file rangeCEnd with
    | none => run.1
    | some (out, _) =>
      let take := throughFirstNewline out
      run.1 ++ [⟨take, countNewlines take, false, 0⟩]
  else run.1

/-- The dispatcher's counters, the records it appends and what the visitors hear. -/
structure Dispatch where
  globalUc : Nat
  totalLines : Nat
  memberIdx : Nat
  memberCStart : Nat
  memberUcStart : Nat
  memberFirstLine : Nat
  members : List GzipMemberRecord
  calls : List VisitorCall

/-- `process_msg`. -/
def processMsg (s : Dispatch) (msg : ParallelInflateMsg) : Dispatch :=
  let calls := if msg.data.isEmpty then s.calls else s.calls ++ [.onChunk msg.data s.memberIdx]
  let globalUc := s.globalUc + msg.data.length
  let totalLines := s.totalLines + msg.lines
  if msg.memberEnded then
    { globalUc, totalLines,
      memberIdx := s.memberIdx + 1,
      memberCStart := msg.memberCEnd,
      memberUcStart := globalUc,
      memberFirstLine := totalLines + 1,
      members := s.members ++ [{
        memberIdx := s.memberIdx,
        cOffset := s.memberCStart,
        cSize := (msg.memberCEnd + 2 ^ 64 - s.memberCStart) % 2 ^ 64,
        ucOffset := s.memberUcStart,
        ucSize := globalUc - s.memberUcStart,
        firstLineNum := s.memberFirstLine,
        lastLineNum := totalLines }],
      calls := calls ++ [.onCheckpoint s.memberIdx] }
  else { s with globalUc, totalLines, calls }

/-- `parallel_dispatcher`: the channels one after another, each in the order of its
sequence numbers, then the flush. -/
def parallelDispatcher (channels : List (List (Nat × ParallelInflateMsg)))
    (memberIdxBase memberCBase totalLines : Nat) : Dispatch :=
  let s := (channels.flatMap Reorder.deliver).foldl processMsg
    { globalUc := 0, totalLines, memberIdx := memberIdxBase, memberCStart := memberCBase,
      memberUcStart := 0, memberFirstLine := totalLines + 1, members := [], calls := [] }
  { s with calls := s.calls ++ [.flush] }

/-- The contiguous ranges of member indices, the remainder spread over the first few. -/
def rangesFrom (per rem : Nat) : Nat → Nat → Nat → List (Nat × Nat)
  | 0, _, _ => []
  | workers + 1, w, cursor =>
    let count := per + if w < rem then 1 else 0
    (cursor, cursor + count) :: rangesFrom per rem workers (w + 1) (cursor + count)

/-- The ranges for `count` members. -/
def workerRanges (count numWorkers : Nat) : List (Nat × Nat) :=
  rangesFrom (count / numWorkers) (count % numWorkers) numWorkers 0 0

/-- `DEFAULT_MAX_WORKERS`. -/
def defaultMaxWorkers : Nat := 16

def numWorkers (count parallelism : Nat) : Nat :=
  min defaultMaxWorkers (min count (max 1 parallelism))

/-- Where the member of an index starts, the end of the slice past the last. -/
def rangeOffset (scanned : List GzipMember) (sliceCEnd index : Nat) : Nat :=
  match scanned[index]? with
  | some m => m.cOffset
  | none => sliceCEnd

/-- What an execution leaves open: how many threads there are, and in which order a
channel hands over what was sent through it. -/
structure Schedule where
  parallelism : Nat
  arrive : Nat → List (Nat × ParallelInflateMsg) → List (Nat × ParallelInflateMsg)
  arrive_perm : ∀ w sent, (arrive w sent).Perm sent

/-- What each worker sends, in order. -/
def workerMessages (dec : GzipMemberDecompressor) (file : File) (parallelism sliceCEnd : Nat)
    (scanned : List GzipMember) (strip : Bool) : List (List ParallelInflateMsg) :=
  let workers := numWorkers scanned.length parallelism
  (workerRanges scanned.length workers).mapIdx fun w range =>
    parallelWorker dec file (rangeOffset scanned sliceCEnd range.1)
      (rangeOffset scanned sliceCEnd range.2) (strip && w == 0)
      (w + 1 == workers && decide (sliceCEnd < file.size))

/-- `process_chunks_parallel`. -/
def processChunksParallel (dec : GzipMemberDecompressor) (file : File) (schedule : Schedule)
    (sliceCEnd : Nat) (scanned : List GzipMember) (memberIdxBase : Nat) (strip : Bool)
    (totalLines : Nat) : Dispatch :=
  let sent := workerMessages dec file schedule.parallelism sliceCEnd scanned strip
  parallelDispatcher (sent.mapIdx fun w msgs => schedule.arrive w (Reorder.numbered msgs))
    memberIdxBase (rangeOffset scanned 0 0) totalLines

/-- The candidates of a whole file; a file without any is one member. -/
def scannedMembers (file : File) : List GzipMember :=
  match MemberScanner.enumerateGzipMemberCandidates file.bytes with
  | [] => [⟨0, file.size⟩]
  | m :: rest => m :: rest

/-- `process_chunks` without a slice. It always reports success. -/
def processChunks (dec : GzipMemberDecompressor) (file : File) (schedule : Schedule)
    (totalLines : Nat) : Bool × Dispatch :=
  (true, processChunksParallel dec file schedule file.size (scannedMembers file) 0 false totalLines)

/-- `process_chunks` of the members `begin` to `end` of a known member map. -/
def processSlice (dec : GzipMemberDecompressor) (file : File) (schedule : Schedule)
    (all : List GzipMember) (memberBegin memberEnd : Nat) (totalLines : Nat) : Bool × Dispatch :=
  (true, processChunksParallel dec file schedule (rangeOffset all file.size memberEnd)
    ((all.take memberEnd).drop memberBegin) memberBegin (decide (0 < memberBegin)) totalLines)

end Indexer

/-! ## Lines of a byte stream

A consumer of chunks cuts the bytes after every newline and keeps what is left as a
last line without one. Cutting the bytes themselves somewhere first gives the same
lines exactly when the cut is where a line ends. -/

/-- The lines from here on, given the bytes of the line already begun. -/
def linesFrom (begun : Bytes) : Bytes → List Bytes
  | [] => if begun.isEmpty then [] else [begun]
  | b :: rest => if b = newline then (begun ++ [b]) :: linesFrom [] rest else linesFrom (begun ++ [b]) rest

/-- Every line with its newline; a last line may have none. -/
def lines (bytes : Bytes) : List Bytes := linesFrom [] bytes

/-- A cut between these bytes falls where a line ends. -/
def AtLineEnd (before after : Bytes) : Prop :=
  before = [] ∨ after = [] ∨ before.getLast? = some newline

/-- How many lines there are does not depend on what the first one began with. -/
theorem length_linesFrom (begun begun' bytes : Bytes) (hbytes : bytes ≠ []) :
    (linesFrom begun bytes).length = (linesFrom begun' bytes).length := by
  induction bytes generalizing begun begun' with
  | nil => exact absurd rfl hbytes
  | cons b rest ih =>
    rw [linesFrom, linesFrom]
    by_cases hb : b = newline
    · rw [if_pos hb, if_pos hb]
      rfl
    · rw [if_neg hb, if_neg hb]
      cases rest with
      | nil =>
        rw [linesFrom, linesFrom, if_neg (by simp), if_neg (by simp)]
        rfl
      | cons c rest => exact ih _ _ (cons_ne_nil _ _)

theorem atLineEnd_cons (begun a b : Bytes) (c : UInt8) (hc : c = newline) :
    AtLineEnd (begun ++ c :: a) b ↔ AtLineEnd a b := by
  have hlast : (begun ++ c :: a).getLast? = a.getLast?.or (some newline) := by
    rw [append_cons, getLast?_append, getLast?_append, hc]
    rfl
  have hne : begun ++ c :: a ≠ [] := append_ne_nil_of_right_ne_nil _ (cons_ne_nil _ _)
  cases a with
  | nil => exact ⟨fun _ => .inl rfl, fun _ => .inr (.inr hlast)⟩
  | cons d a =>
    have hsome : (d :: a).getLast?.or (some newline) = (d :: a).getLast? := by
      rfl
    rw [hsome] at hlast
    constructor
    · rintro (hnil | hrest | hend)
      · exact absurd hnil hne
      · exact .inr (.inl hrest)
      · exact .inr (.inr (hlast ▸ hend))
    · rintro (hnil | hrest | hend)
      · exact absurd hnil (cons_ne_nil _ _)
      · exact .inr (.inl hrest)
      · exact .inr (.inr (hlast ▸ hend))

/-- Cutting after the bytes `begun ++ a`: at a line end the lines stay, elsewhere there
is one more. -/
theorem linesFrom_append (begun a b : Bytes) (hbegun : newline ∉ begun) :
    (AtLineEnd (begun ++ a) b → linesFrom begun (a ++ b) = linesFrom begun a ++ lines b) ∧
      (¬ AtLineEnd (begun ++ a) b →
        (linesFrom begun (a ++ b)).length + 1 = (linesFrom begun a).length + (lines b).length) := by
  induction a generalizing begun with
  | nil =>
    rw [append_nil, nil_append]
    constructor
    · rintro (rfl | rfl | hend)
      · rfl
      · exact (append_nil _).symm
      · exact absurd (mem_of_getLast? hend) hbegun
    · intro hcut
      have hne : begun ≠ [] := fun h => hcut (.inl h)
      have hb : b ≠ [] := fun h => hcut (.inr (.inl h))
      rw [length_linesFrom begun [] b hb, linesFrom, if_neg (by simpa using hne), lines,
        length_singleton, Nat.add_comm]
  | cons c a ih =>
    rw [cons_append, linesFrom, linesFrom]
    by_cases hc : c = newline
    · rw [if_pos hc, if_pos hc, atLineEnd_cons begun a b c hc]
      have hrest := ih [] not_mem_nil
      refine ⟨fun hend => ?_, fun hcut => ?_⟩
      · rw [hrest.1 hend, cons_append]
      · rw [length_cons, length_cons, hrest.2 hcut]
        omega
    · rw [if_neg hc, if_neg hc, append_cons]
      apply ih
      rw [mem_append, mem_singleton]
      rintro (h | h)
      · exact hbegun h
      · exact hc h.symm

variable {a b bytes : Bytes}

/-- A cut where a line ends leaves the lines as they are. -/
theorem lines_append (h : AtLineEnd a b) : lines (a ++ b) = lines a ++ lines b :=
  (linesFrom_append [] a b not_mem_nil).1 h

/-- Any other cut tears a line in two. -/
theorem length_lines_append (h : ¬ AtLineEnd a b) :
    (lines (a ++ b)).length + 1 = (lines a).length + (lines b).length :=
  (linesFrom_append [] a b not_mem_nil).2 h

/-- Cutting never loses a line. -/
theorem length_lines_append_le (a b : Bytes) :
    (lines (a ++ b)).length ≤ (lines a).length + (lines b).length := by
  by_cases h : AtLineEnd a b
  · rw [lines_append h, length_append]
  · exact Nat.le_of_lt (Nat.lt_of_lt_of_eq (Nat.lt_add_one _) (length_lines_append h))

theorem throughFirstNewline_append (bytes : Bytes) :
    throughFirstNewline bytes ++ afterFirstNewline bytes = bytes := by
  induction bytes with
  | nil => rfl
  | cons b rest ih =>
    rw [throughFirstNewline, afterFirstNewline]
    by_cases hb : b = newline
    · rw [if_pos hb, if_pos hb]
      rfl
    · rw [if_neg hb, if_neg hb, cons_append, ih]

/-- With a newline, the first part ends with it. -/
theorem throughFirstNewline_getLast? (h : newline ∈ bytes) :
    (throughFirstNewline bytes).getLast? = some newline := by
  induction bytes with
  | nil => exact absurd h not_mem_nil
  | cons b rest ih =>
    rw [throughFirstNewline]
    by_cases hb : b = newline
    · rw [hb]
      rfl
    · have hrest : newline ∈ rest := (mem_cons.mp h).resolve_left (Ne.symm hb)
      rw [if_neg hb, getLast?_cons, ih hrest]
      rfl

/-- Without one, the first part is everything. -/
theorem throughFirstNewline_of_not_mem (h : newline ∉ bytes) :
    throughFirstNewline bytes = bytes := by
  induction bytes with
  | nil => rfl
  | cons b rest ih =>
    have hb : b ≠ newline := by
      rintro rfl
      exact h mem_cons_self
    rw [throughFirstNewline, if_neg hb, ih (fun hrest => h (mem_cons_of_mem b hrest))]

/-! ## Files of gzip members

What a file of valid members is to the decoder: it decodes each member wherever the
member's bytes stand, asks for more while a member is cut short, and accepts nothing
at an offset where no member starts. From this the decoding loop of a worker is the
list of members it passes. -/

/-- One valid member: its compressed bytes and what they decode to. -/
structure Member where
  compressed : Bytes
  content : Bytes

namespace Member

/-- Where the member of an index starts; the end of the file past the last. -/
def start (members : List Member) (k : Nat) : Nat :=
  ((members.take k).flatMap compressed).length

/-- A member starts at this offset. -/
def IsStart (members : List Member) (offset : Nat) : Prop :=
  ∃ k < members.length, start members k = offset

instance (members : List Member) (offset : Nat) : Decidable (IsStart members offset) :=
  inferInstanceAs (Decidable (∃ k, k < members.length ∧ start members k = offset))

end Member

/-- A file that is a concatenation of valid members, and a decoder that decodes members
and nothing else of it. A member has a ten-byte header, two bytes of data and an
eight-byte trailer at least. -/
structure IsGzipFile (dec : GzipMemberDecompressor) (file : File) (members : List Member) : Prop where
  concat : file.bytes = members.flatMap Member.compressed
  someMember : members ≠ []
  long : ∀ m ∈ members, 18 ≤ m.compressed.length
  decodes : ∀ m ∈ members, ∀ rest,
    dec.decompress (m.compressed ++ rest) = some (m.content, m.compressed.length)
  truncated : ∀ m ∈ members, ∀ n < m.compressed.length, dec.decompress (m.compressed.take n) = none
  rejects : ∀ offset, ¬ Member.IsStart members offset → ∀ n,
    dec.decompress ((file.bytes.drop offset).take n) = none

namespace IsGzipFile

open Member Indexer

variable {dec : GzipMemberDecompressor} {file : File} {members : List Member}

theorem start_succ (k : Nat) (hk : k < members.length) :
    start members (k + 1) = start members k + members[k].compressed.length := by
  rw [start, start, take_succ_eq_append_getElem hk, flatMap_append, length_append,
    flatMap_singleton]

variable {j k : Nat}

section

variable (h : IsGzipFile dec file members)

include h

/-- Offsets grow by a member's length at least. -/
theorem start_add_le (hjk : j < k)
    (hk : k ≤ members.length) : start members j + 18 ≤ start members k := by
  induction k with
  | zero => exact absurd hjk (Nat.not_lt_zero j)
  | succ k ih =>
    have hlong := h.long members[k] (getElem_mem hk)
    have hstep := start_succ k hk
    rcases Nat.lt_succ_iff_lt_or_eq.mp hjk with hlt | rfl
    · omega
    · omega

theorem start_lt_iff (hj : j ≤ members.length)
    (hk : k ≤ members.length) : start members j < start members k ↔ j < k := by
  constructor
  · intro hlt
    by_contra hge
    rcases Nat.lt_or_eq_of_le (Nat.le_of_not_lt hge) with hkj | rfl
    · have hadd := h.start_add_le hkj hj
      omega
    · exact absurd hlt (Nat.lt_irrefl _)
  · intro hlt
    have hadd := h.start_add_le hlt hk
    omega

theorem start_inj (hj : j ≤ members.length)
    (hk : k ≤ members.length) (heq : start members j = start members k) : j = k := by
  have hjk := h.start_lt_iff hj hk
  have hkj := h.start_lt_iff hk hj
  omega

theorem start_length : start members members.length = file.size := by
  rw [start, take_length, File.size, h.concat]

theorem start_le_size (hk : k ≤ members.length) :
    start members k ≤ file.size := by
  rw [← h.start_length]
  rcases Nat.lt_or_eq_of_le hk with hlt | rfl
  · have hadd := h.start_add_le hlt (Nat.le_refl _)
    omega
  · exact Nat.le_refl _

/-- What the file holds from a member's start on. -/
theorem drop_start (hk : k < members.length) :
    ∃ rest, file.bytes.drop (start members k) = members[k].compressed ++ rest := by
  refine ⟨(members.drop (k + 1)).flatMap compressed, ?_⟩
  have hsplit : members.flatMap compressed
      = (members.take k).flatMap compressed ++ (members.drop k).flatMap compressed := by
    rw [← flatMap_append, take_append_drop]
  rw [h.concat, start, hsplit, drop_left, drop_eq_getElem_cons hk, flatMap_cons]

/-- While a member is cut short the loop reads on; once it is whole it decodes. -/
theorem decodeBuffered_member {m : Member} (hm : m ∈ members)
    (fuel : Nat) (comp unread rest : Bytes) (hfuel : unread.length + 2 ≤ fuel)
    (hbytes : comp ++ unread = m.compressed ++ rest) :
    decodeBuffered dec fuel comp unread = some (m.content, m.compressed.length) := by
  have hlong := h.long m hm
  induction fuel generalizing comp unread with
  | zero => omega
  | succ fuel ih =>
    rw [decodeBuffered]
    rcases Nat.lt_or_ge comp.length m.compressed.length with hshort | hwhole
    · have hcut : comp = m.compressed.take comp.length := by
        have htake := congrArg (List.take comp.length) hbytes
        rwa [take_left, take_append_of_le_length (Nat.le_of_lt hshort)] at htake
      have hnone : (if comp.isEmpty then none else dec.decompress comp) = none := by
        split
        · rfl
        · rw [hcut]
          exact h.truncated m hm _ hshort
      have hlen := congrArg List.length hbytes
      rw [length_append, length_append] at hlen
      have hunread : unread.isEmpty = false := by
        rw [isEmpty_eq_false_iff]
        rintro rfl
        rw [length_nil] at hlen
        omega
      rw [hnone]
      simp only [hunread]
      apply ih
      · have hread : readChunk = 2 ^ 20 := rfl
        rw [length_drop]
        omega
      · rw [append_assoc, take_append_drop, hbytes]
    · have hcomp : comp = m.compressed ++ (rest.take (comp.length - m.compressed.length)) := by
        have htake := congrArg (List.take comp.length) hbytes
        rwa [take_left, take_append, take_of_length_le hwhole] at htake
      have hsome : (if comp.isEmpty then none else dec.decompress comp)
          = some (m.content, m.compressed.length) := by
        rw [if_neg]
        · rw [hcomp]
          exact h.decodes m hm _
        · rw [List.isEmpty_iff]
          rintro rfl
          rw [length_nil] at hwhole
          omega
      rw [hsome]

theorem decodeMemberAt_start (hk : k < members.length) :
    decodeMemberAt dec file (start members k)
      = some (members[k].content, members[k].compressed.length) := by
  obtain ⟨rest, hrest⟩ := h.drop_start hk
  apply h.decodeBuffered_member (getElem_mem hk) _ _ _ rest
  · rw [length_drop, File.size]
    omega
  · rw [nil_append, hrest]

/-- Nothing decodes elsewhere. -/
theorem decodeMemberAt_other {offset : Nat}
    (hoffset : ¬ IsStart members offset) : decodeMemberAt dec file offset = none := by
  suffices hloop : ∀ fuel (comp unread : Bytes), comp ++ unread = file.bytes.drop offset →
      decodeBuffered dec fuel comp unread = none from hloop _ _ _ rfl
  intro fuel
  induction fuel with
  | zero =>
    intro comp unread _
    rfl
  | succ fuel ih =>
    intro comp unread hbytes
    have hnone : (if comp.isEmpty then none else dec.decompress comp) = none := by
      split
      · rfl
      · have htake := congrArg (List.take comp.length) hbytes
        rw [take_left] at htake
        rw [htake]
        exact h.rejects offset hoffset _
    rw [decodeBuffered, hnone]
    simp only
    split
    · rfl
    · apply ih
      rw [append_assoc, take_append_drop, hbytes]

end

/-! ### A worker's members -/

/-- The members, by index, that a worker passes from member `k` to the end of its range. -/
def passed (members : List Member) (rangeCEnd k : Nat) : List Nat :=
  (List.range' k (members.length - k)).takeWhile fun j => decide (start members j < rangeCEnd)

/-- The message a worker sends about a member. -/
def memberMessage (members : List Member) (strip : Bool) (k : Nat) : ParallelInflateMsg :=
  let content := (members[k]?.map Member.content).getD []
  let emit := if strip then afterFirstNewline content else content
  ⟨emit, countNewlines emit, true, start members (k + 1)⟩

theorem mem_passed (h : IsGzipFile dec file members) {rangeCEnd : Nat} (hk : k ≤ members.length) :
    j ∈ passed members rangeCEnd k ↔ k ≤ j ∧ j < members.length ∧ start members j < rangeCEnd := by
  suffices hlist : ∀ count k, k + count = members.length →
      (j ∈ (List.range' k count).takeWhile (fun j => decide (start members j < rangeCEnd)) ↔
        k ≤ j ∧ j < members.length ∧ start members j < rangeCEnd) from hlist _ _ (by omega)
  intro count
  induction count with
  | zero =>
    intro k hk
    simp only [range'_zero, takeWhile_nil, not_mem_nil, false_iff]
    omega
  | succ count ih =>
    intro k hk
    rw [range'_succ, takeWhile_cons]
    by_cases hin : start members k < rangeCEnd
    · rw [if_pos (decide_eq_true hin), mem_cons, ih (k + 1) (by omega)]
      constructor
      · rintro (rfl | hlater)
        · exact ⟨Nat.le_refl _, by omega, hin⟩
        · exact ⟨by omega, hlater.2⟩
      · rintro ⟨hle, hj, hlt⟩
        rcases Nat.lt_or_eq_of_le hle with hlt' | heq
        · exact .inr ⟨hlt', hj, hlt⟩
        · exact .inl heq.symm
    · rw [if_neg (by simpa using hin)]
      simp only [not_mem_nil, false_iff]
      rintro ⟨hle, hj, hlt⟩
      rcases Nat.lt_or_eq_of_le hle with hlt' | rfl
      · have hmono := (h.start_lt_iff (by omega) (Nat.le_of_lt hj)).mpr hlt'
        omega
      · exact hin hlt

theorem passed_sorted (members : List Member) (rangeCEnd k : Nat) :
    (passed members rangeCEnd k).Pairwise (· < ·) :=
  List.Pairwise.sublist (takeWhile_sublist _) pairwise_lt_range'

section

variable (h : IsGzipFile dec file members) {rangeCEnd : Nat}

include h

/-- A worker that stands at a member passes the members up to the end of its range. -/
theorem workerLoop_start
    (hend : rangeCEnd ≤ file.size) (strip : Bool) (fuel k : Nat) (hk : k ≤ members.length)
    (hfuel : members.length < fuel + k) :
    workerLoop dec file rangeCEnd strip fuel (start members k) false
      = ((passed members rangeCEnd k).map (memberMessage members false), true) := by
  induction fuel generalizing k with
  | zero => omega
  | succ fuel ih =>
    rw [workerLoop]
    by_cases hin : start members k < rangeCEnd
    · have hlt : k < members.length := by
        by_contra hge
        have hlast : k = members.length := by omega
        rw [hlast, h.start_length] at hin
        omega
      have hpassed : passed members rangeCEnd k = k :: passed members rangeCEnd (k + 1) := by
        obtain ⟨count, hcount⟩ : ∃ count, members.length - k = count + 1 :=
          ⟨members.length - k - 1, by omega⟩
        rw [passed, hcount, range'_succ, takeWhile_cons, if_pos (decide_eq_true hin)]
        congr 3
        omega
      rw [if_pos hin, h.decodeMemberAt_start hlt]
      simp only [Bool.and_false]
      rw [← start_succ k hlt, ih (k + 1) hlt (by omega), hpassed, map_cons, memberMessage,
        getElem?_eq_getElem hlt]
      rfl
    · have hpassed : passed members rangeCEnd k = [] := by
        apply eq_nil_iff_forall_not_mem.mpr
        intro j hj
        obtain ⟨hle, hj, hlt⟩ := (h.mem_passed hk).mp hj
        rcases Nat.lt_or_eq_of_le hle with hlt' | rfl
        · have hmono := (h.start_lt_iff (by omega) (Nat.le_of_lt hj)).mpr hlt'
          omega
        · exact hin hlt
      rw [if_neg hin, hpassed]
      rfl

/-- A range that begins at a member: its first message may be stripped. -/
theorem workerLoop_first (hend : rangeCEnd ≤ file.size) (strip : Bool) (hk : k < members.length)
    (hin : start members k < rangeCEnd) :
    workerLoop dec file rangeCEnd strip (file.size + 1) (start members k) true
      = (memberMessage members strip k
          :: (passed members rangeCEnd (k + 1)).map (memberMessage members false), true) := by
  have hcount : members.length ≤ file.size := by
    rw [← h.start_length]
    suffices hle : ∀ j ≤ members.length, j ≤ start members j from hle _ (Nat.le_refl _)
    intro j hj
    induction j with
    | zero => exact Nat.zero_le _
    | succ j ih =>
      have hstep := h.start_add_le (Nat.lt_add_one j) hj
      omega
  rw [workerLoop, if_pos hin, h.decodeMemberAt_start hk]
  simp only [Bool.and_true]
  rw [← start_succ k hk, h.workerLoop_start hend strip file.size (k + 1) hk (by omega),
    memberMessage,
    getElem?_eq_getElem hk]
  rfl

/-- A range that begins elsewhere yields nothing. -/
theorem workerLoop_other {offset : Nat}
    (hoffset : ¬ IsStart members offset) (rangeCEnd : Nat) (strip : Bool) :
    (workerLoop dec file rangeCEnd strip (file.size + 1) offset true).1 = [] := by
  rw [workerLoop, h.decodeMemberAt_other hoffset]
  split <;> rfl

end

end IsGzipFile

end DFTracer.Gzip
