/-
# Scanning a file for gzip member headers

A gzip file may be many members one after another. The scanner reads the file in windows and
collects every offset whose ten bytes look like a member header. The windows overlap so that a
header across a window edge is seen, and some offsets are seen twice; a pattern inside compressed
data can look like a header too.
-/

import Mathlib.Algebra.Order.Ring.Nat
import Mathlib.Data.List.Basic
import Mathlib.Data.List.Lookmap
import Mathlib.Data.List.Range
import Mathlib.Data.List.Sort

namespace DFTracer.Gzip

open List

abbrev Bytes := List UInt8

/-- One member as the scanner reports it: the offset of its header, and the gap to
the next candidate. -/
structure GzipMember where
  cOffset : Nat
  cSize : Nat
deriving DecidableEq, Repr

/-- `gzip_header_looks_valid` of the ten bytes at the head of the buffer. -/
def gzipHeaderLooksValid : Bytes → Bool
  | b0 :: b1 :: b2 :: flg :: _ :: _ :: _ :: _ :: xfl :: os :: _ =>
    (b0 == 0x1F && b1 == 0x8B && b2 == 0x08) &&
    flg &&& 0xE0 == 0 &&
    (xfl == 0 || xfl == 2 || xfl == 4) &&
    (os ≤ 13 || os == 255)
  | _ => false

namespace MemberScanner

/-- `WIN`. -/
def win : Nat := 2 ^ 20

/-- `OVERLAP`. -/
def overlap : Nat := 16

/-- The inner loop over one window: `base` is the file offset of the buffer's first
byte and the last nine positions are left to the next window. -/
def scanWindow (base : Nat) (buf : Bytes) : List Nat :=
  let scanEnd := if 10 ≤ buf.length then buf.length - 9 else 0
  ((List.range scanEnd).filter fun i => gzipHeaderLooksValid (buf.drop i)).map (base + ·)

/-- The bytes of a window that the next one starts with. -/
def kept (buf : Bytes) : Bytes :=
  if overlap ≤ buf.length then buf.drop (buf.length - overlap) else buf

/-- The window loop: `carried` are the bytes kept from the last window, `rest` the
bytes of the file from `pos` on. A `pread` of a regular file returns all it was asked
for. -/
def scanFrom : Nat → Nat → Bytes → Bytes → List Nat
  | 0, _, _, _ => []
  | fuel + 1, pos, carried, rest =>
    if rest.isEmpty then []
    else
      let read := rest.take (win - carried.length)
      let buf := carried ++ read
      scanWindow (pos - carried.length) buf
        ++ scanFrom fuel (pos + read.length) (kept buf) (rest.drop (win - carried.length))

/-- The offsets the scan reports, in the order it finds them. -/
def candidateOffsets (file : Bytes) : List Nat := scanFrom (file.length + 1) 0 [] file

/-- The gap to the next candidate, in 64-bit arithmetic; the last one extends to the
end of the file. -/
def withSizes (fileSize : Nat) : List Nat → List GzipMember
  | [] => []
  | [c] => [⟨c, fileSize - c⟩]
  | c :: d :: rest => ⟨c, (d + 2 ^ 64 - c) % 2 ^ 64⟩ :: withSizes fileSize (d :: rest)

/-- `enumerate_gzip_member_candidates`: empty when the file is not a gzip stream. -/
def enumerateGzipMemberCandidates (file : Bytes) : List GzipMember :=
  if file.length < 18 then [] else withSizes file.length (candidateOffsets file)

/-! ## What the scan finds -/

theorem kept_length (buf : Bytes) : (kept buf).length = min buf.length overlap := by
  unfold kept
  split
  · rw [length_drop]
    omega
  · omega

theorem mem_scanWindow (base : Nat) (buf : Bytes) (c : Nat) :
    c ∈ scanWindow base buf →
      base ≤ c ∧ c + 10 ≤ base + buf.length ∧ gzipHeaderLooksValid (buf.drop (c - base)) := by
  intro h
  simp only [scanWindow, mem_map, mem_filter, mem_range] at h
  obtain ⟨i, ⟨hi, hvalid⟩, rfl⟩ := h
  split at hi
  · refine ⟨by omega, by omega, ?_⟩
    rwa [Nat.add_sub_cancel_left]
  · exact absurd hi (Nat.not_lt_zero i)

theorem scanWindow_sorted (base : Nat) (buf : Bytes) :
    (scanWindow base buf).Pairwise (· < ·) := by
  unfold scanWindow
  rw [pairwise_map]
  apply List.Pairwise.imp (fun h => Nat.add_lt_add_left h base)
  exact List.Pairwise.filter _ pairwise_lt_range

/-- Candidates of a scan that stands at `pos` start at most one overlap before it. -/
theorem le_of_mem_scanFrom (fuel pos : Nat) (carried rest : Bytes)
    (hcarried : carried.length ≤ overlap) (hpos : carried.length ≤ pos) (c : Nat) :
    c ∈ scanFrom fuel pos carried rest → pos ≤ c + overlap := by
  induction fuel generalizing pos carried rest with
  | zero =>
    intro h
    exact absurd h not_mem_nil
  | succ fuel ih =>
    intro h
    rw [scanFrom] at h
    split at h
    · exact absurd h not_mem_nil
    · rcases mem_append.mp h with hhere | hlater
      · have hwindow := (mem_scanWindow _ _ _ hhere).1
        omega
      · have hlen : (carried ++ rest.take (win - carried.length)).length
            = carried.length + (rest.take (win - carried.length)).length := length_append
        have hgoal := ih _ _ _ (by rw [kept_length]; omega) (by rw [kept_length]; omega) hlater
        omega

/-- Candidates are reported almost in file order: an earlier report is at most six
bytes past a later one, which only happens where two windows overlap. -/
theorem candidateOffsets_nearlySorted (file : Bytes) :
    (candidateOffsets file).Pairwise fun c d => c ≤ d + 6 := by
  suffices h : ∀ fuel pos (carried rest : Bytes), carried.length ≤ overlap → carried.length ≤ pos →
      (scanFrom fuel pos carried rest).Pairwise fun c d => c ≤ d + 6 from
    h _ _ _ _ (Nat.zero_le _) (Nat.zero_le _)
  intro fuel
  induction fuel with
  | zero =>
    intro pos carried rest _ _
    exact List.Pairwise.nil
  | succ fuel ih =>
    intro pos carried rest hcarried hpos
    have hlen : (carried ++ rest.take (win - carried.length)).length
        = carried.length + (rest.take (win - carried.length)).length := length_append
    rw [scanFrom]
    split
    · exact List.Pairwise.nil
    · refine pairwise_append.mpr ⟨?_, ?_, ?_⟩
      · exact (scanWindow_sorted _ _).imp fun hlt => by omega
      · apply ih
        · rw [kept_length]
          omega
        · rw [kept_length]
          omega
      · intro c hc d hd
        have hwindow := mem_scanWindow _ _ _ hc
        have hlater := le_of_mem_scanFrom _ _ _ _ (by rw [kept_length]; omega)
          (by rw [kept_length]; omega) d hd
        have hoverlap : overlap = 16 := rfl
        omega

theorem add_le_of_mem_scanFrom (fuel pos : Nat) (carried rest : Bytes)
    (hpos : carried.length ≤ pos) (c : Nat) :
    c ∈ scanFrom fuel pos carried rest → c + 10 ≤ pos + rest.length := by
  induction fuel generalizing pos carried rest with
  | zero =>
    intro h
    exact absurd h not_mem_nil
  | succ fuel ih =>
    intro h
    have hlen : (carried ++ rest.take (win - carried.length)).length
        = carried.length + (rest.take (win - carried.length)).length := length_append
    have hread : (rest.take (win - carried.length)).length ≤ rest.length := by
      rw [List.length_take]
      omega
    rw [scanFrom] at h
    split at h
    · exact absurd h not_mem_nil
    · rcases mem_append.mp h with hhere | hlater
      · have hwindow := mem_scanWindow _ _ _ hhere
        omega
      · have hgoal := ih _ _ _ (by rw [kept_length]; omega) hlater
        rw [length_drop] at hgoal
        rw [List.length_take] at hgoal hread
        omega

/-- A candidate's header lies in the file. -/
theorem add_le_of_mem_candidateOffsets (file : Bytes) {c : Nat} (hc : c ∈ candidateOffsets file) :
    c + 10 ≤ file.length := by
  have h := add_le_of_mem_scanFrom _ 0 [] file (Nat.le_refl _) c hc
  omega

/-- The reported members are the reported offsets. -/
theorem map_cOffset_withSizes (fileSize : Nat) (offsets : List Nat) :
    (withSizes fileSize offsets).map GzipMember.cOffset = offsets := by
  fun_induction withSizes fileSize offsets with
  | case1 | case2 c => rfl
  | case3 c d rest ih => rw [map_cons, ih]

end MemberScanner

/-! ## Reordering by sequence number

A channel may deliver messages in any order. The receiver holds back what comes
early and releases messages by their sequence number, so what it releases is the
sender's order whatever the channel did. Nothing here depends on what a message is. -/

/-- The next sequence number to release, and the messages held back. -/
structure Reorder (α : Type) where
  expected : Nat
  pending : List (Nat × α)

namespace Reorder

variable {α : Type}

/-- Nothing received yet. -/
def start : Reorder α := ⟨0, []⟩

/-- Release held messages while the expected one is among them. -/
def drain : Nat → Reorder α → List α × Reorder α
  | 0, s => ([], s)
  | fuel + 1, s =>
    match s.pending.find? (fun p => p.1 == s.expected) with
    | none => ([], s)
    | some p =>
      let r := drain fuel ⟨s.expected + 1, s.pending.filter (fun q => q.1 != s.expected)⟩
      (p.2 :: r.1, r.2)

/-- Receive one message: release it and what it was holding up, or hold it. -/
def receive (s : Reorder α) (msg : Nat × α) : List α × Reorder α :=
  if msg.1 = s.expected then
    let r := drain s.pending.length ⟨s.expected + 1, s.pending⟩
    (msg.2 :: r.1, r.2)
  else ([], ⟨s.expected, msg :: s.pending⟩)

/-- Receive messages until the channel is closed. -/
def receiveAll (s : Reorder α) : List (Nat × α) → List α × Reorder α
  | [] => ([], s)
  | msg :: rest =>
    let first := receive s msg
    let others := receiveAll first.2 rest
    (first.1 ++ others.1, others.2)

/-- What is still held when the channel closes is released while its lowest number
is the expected one. -/
def drainClosed : Nat → Reorder α → List α
  | 0, _ => []
  | fuel + 1, s =>
    match s.pending.find? (fun p => p.1 == s.expected) with
    | none => []
    | some p =>
      if s.pending.all (fun q => s.expected ≤ q.1) then
        p.2 :: drainClosed fuel ⟨s.expected + 1, s.pending.filter (fun q => q.1 != s.expected)⟩
      else []

/-- Everything released over the life of a channel. -/
def deliver (arrivals : List (Nat × α)) : List α :=
  let r := receiveAll start arrivals
  r.1 ++ drainClosed r.2.pending.length r.2

/-- A sender numbers its messages from zero. -/
def numbered (msgs : List α) : List (Nat × α) := msgs.zipIdx.map Prod.swap

/-- What holds after any part of the sender's messages arrived: what is held is the
sender's, is not due, and whatever else arrived has been released. -/
structure Tracks (msgs : List α) (received : List (Nat × α)) (s : Reorder α) : Prop where
  sent : ∀ p ∈ s.pending, msgs[p.1]? = some p.2
  early : ∀ p ∈ s.pending, p.1 ≠ s.expected
  kept : ∀ p ∈ received, p.1 < s.expected ∨ p ∈ s.pending

/-- Draining releases a consecutive run of the sender's messages and stops at the
first one that is missing. -/
theorem drain_spec (msgs : List α) (fuel : Nat) (s : Reorder α)
    (hfuel : s.pending.length ≤ fuel) (sent : ∀ p ∈ s.pending, msgs[p.1]? = some p.2) :
    msgs.take s.expected ++ (drain fuel s).1 = msgs.take (drain fuel s).2.expected ∧
      Tracks msgs s.pending (drain fuel s).2 ∧ s.expected ≤ (drain fuel s).2.expected := by
  induction fuel generalizing s with
  | zero =>
    have hnil : s.pending = [] := length_eq_zero_iff.mp (Nat.le_zero.mp hfuel)
    refine ⟨append_nil _, ⟨sent, ?_, ?_⟩, Nat.le_refl _⟩
    · intro p hp
      rw [drain, hnil] at hp
      exact absurd hp not_mem_nil
    · intro p hp
      rw [hnil] at hp
      exact absurd hp not_mem_nil
  | succ fuel ih =>
    rw [drain]
    cases hfind : s.pending.find? (fun p => p.1 == s.expected) with
    | none =>
      rw [find?_eq_none] at hfind
      refine ⟨append_nil _, ⟨sent, ?_, fun p hp => .inr hp⟩, Nat.le_refl _⟩
      intro p hp
      simpa using hfind p hp
    | some p =>
      have hmem := mem_of_find?_eq_some hfind
      have hkey : p.1 = s.expected := by simpa using find?_some hfind
      have hless : (s.pending.filter (fun q => q.1 != s.expected)).length < s.pending.length := by
        apply length_filter_lt_length_iff_exists.mpr
        exact ⟨p, hmem, by simp [hkey]⟩
      have hrest := ih ⟨s.expected + 1, s.pending.filter (fun q => q.1 != s.expected)⟩
        (by simp only; omega)
        (fun q hq => sent q (mem_filter.mp hq).1)
      have hget := sent p hmem
      rw [hkey] at hget
      obtain ⟨hrun, htracks, hgrow⟩ := hrest
      refine ⟨?_, ⟨htracks.sent, htracks.early, ?_⟩, ?_⟩
      · rw [← hrun, take_add_one, hget, append_assoc]
        rfl
      · intro q hq
        by_cases hqk : q.1 = s.expected
        · left
          simp only at hgrow ⊢
          omega
        · exact htracks.kept q (mem_filter.mpr ⟨hq, by simpa using hqk⟩)
      · simp only at hgrow ⊢
        omega

/-- One message received. -/
theorem receive_spec (msgs : List α) (received : List (Nat × α)) (s : Reorder α)
    (h : Tracks msgs received s) (msg : Nat × α) (sent : msgs[msg.1]? = some msg.2) :
    msgs.take s.expected ++ (receive s msg).1 = msgs.take (receive s msg).2.expected ∧
      Tracks msgs (msg :: received) (receive s msg).2 := by
  rw [receive]
  by_cases hdue : msg.1 = s.expected
  · rw [if_pos hdue]
    have hdrain := drain_spec msgs s.pending.length ⟨s.expected + 1, s.pending⟩ (Nat.le_refl _) h.sent
    obtain ⟨hrun, htracks, hgrow⟩ := hdrain
    rw [hdue] at sent
    refine ⟨?_, ⟨htracks.sent, htracks.early, ?_⟩⟩
    · rw [← hrun, take_add_one, sent, append_assoc]
      rfl
    · intro p hp
      simp only at hgrow ⊢
      rcases mem_cons.mp hp with rfl | hp
      · left
        omega
      · rcases h.kept p hp with hlt | hheld
        · left
          omega
        · exact htracks.kept p hheld
  · rw [if_neg hdue]
    refine ⟨append_nil _, ⟨?_, ?_, ?_⟩⟩
    · intro p hp
      rcases mem_cons.mp hp with rfl | hp
      · exact sent
      · exact h.sent p hp
    · intro p hp
      rcases mem_cons.mp hp with rfl | hp
      · exact hdue
      · exact h.early p hp
    · intro p hp
      rcases mem_cons.mp hp with rfl | hp
      · exact .inr mem_cons_self
      · exact (h.kept p hp).imp id (mem_cons_of_mem _)

/-- Any number of messages received. -/
theorem receiveAll_spec (msgs : List α) (arrivals received : List (Nat × α))
    (s : Reorder α) (h : Tracks msgs received s)
    (sent : ∀ p ∈ arrivals, msgs[p.1]? = some p.2) :
    msgs.take s.expected ++ (receiveAll s arrivals).1
        = msgs.take (receiveAll s arrivals).2.expected ∧
      Tracks msgs (arrivals.reverse ++ received) (receiveAll s arrivals).2 := by
  induction arrivals generalizing received s with
  | nil => exact ⟨append_nil _, h⟩
  | cons msg rest ih =>
    obtain ⟨hrun, htracks⟩ := receive_spec msgs received s h msg (sent msg mem_cons_self)
    obtain ⟨hrun', htracks'⟩ := ih (msg :: received) (receive s msg).2 htracks
      (fun p hp => sent p (mem_cons_of_mem msg hp))
    rw [receiveAll]
    refine ⟨?_, ?_⟩
    · rw [← append_assoc, hrun, hrun']
    · rwa [reverse_cons, append_assoc]

/-- Nothing is released at the end when the expected message is not held. -/
theorem drainClosed_eq_nil (fuel : Nat) (s : Reorder α)
    (early : ∀ p ∈ s.pending, p.1 ≠ s.expected) : drainClosed fuel s = [] := by
  cases fuel with
  | zero => rfl
  | succ fuel =>
    have hfind : s.pending.find? (fun p => p.1 == s.expected) = none := by
      rw [find?_eq_none]
      intro p hp
      simpa using early p hp
    rw [drainClosed, hfind]

/-- Whatever the order of arrival, the sender's messages are released in the order
they were sent. -/
theorem deliver_eq (msgs : List α) (arrivals : List (Nat × α))
    (h : arrivals.Perm (numbered msgs)) : deliver arrivals = msgs := by
  have hmem : ∀ p, p ∈ arrivals ↔ msgs[p.1]? = some p.2 := by
    intro p
    rw [h.mem_iff, numbered, mem_map]
    constructor
    · rintro ⟨q, hq, rfl⟩
      exact mem_zipIdx_iff_getElem?.mp hq
    · intro hp
      exact ⟨(p.2, p.1), mem_zipIdx_iff_getElem?.mpr hp, rfl⟩
  have hstart : Tracks msgs [] (start : Reorder α) :=
    ⟨fun p hp => absurd hp not_mem_nil, fun p hp => absurd hp not_mem_nil,
      fun p hp => absurd hp not_mem_nil⟩
  obtain ⟨hrun, htracks⟩ := receiveAll_spec msgs arrivals [] start hstart (fun p hp => (hmem p).mp hp)
  have hall : msgs.length ≤ (receiveAll start arrivals).2.expected := by
    by_contra hlt
    have hget := getElem?_eq_getElem (Nat.lt_of_not_le hlt)
    have hin := (hmem ((receiveAll start arrivals).2.expected, _)).mpr hget
    rcases htracks.kept _ (mem_append_left [] (mem_reverse.mpr hin)) with hpast | hheld
    · exact absurd hpast (Nat.lt_irrefl _)
    · exact htracks.early _ hheld rfl
  have hdrained := drainClosed_eq_nil (receiveAll start arrivals).2.pending.length
    (receiveAll start arrivals).2 htracks.early
  rw [deliver, hdrained, append_nil]
  rw [take_of_length_le hall] at hrun
  exact hrun

end Reorder

end DFTracer.Gzip
