/-
# A connection

A turn of the loop receives what has come and answers one request at most: what is behind it stays
in the buffer. A request is answered when it is handed to the router. What is sent then, and that
it can be cancelled, are left out.
-/

import DFTracer.Server.HttpIncremental

namespace DFTracer.Server

open List

def BUF_SIZE : Nat := 8192

def tolower (c : UInt8) : UInt8 := if 0x41 ≤ c ∧ c ≤ 0x5A then c + 0x20 else c

def icaseEqual (a b : Bytes) : Bool := a.map tolower = b.map tolower

def ParsedRequest.hasHeader (req : ParsedRequest) (name value : String) : Bool :=
  req.headers.any fun h =>
    icaseEqual h.name name.toUTF8.toList && icaseEqual h.value value.toUTF8.toList

/-- The connection is not kept alive behind the request. -/
def ParsedRequest.closes (req : ParsedRequest) : Bool :=
  req.minorVersion = 0 || req.hasHeader "connection" "close"

inductive Reply
  | handled (req : ParsedRequest)
  | badRequest (message : String)

structure Connection where
  buf : Bytes := []
  replies : List Reply := []
  isOpen : Bool := true

namespace Connection

variable {s : Connection} {part q : Bytes} {t : RequestText} {requests : List RequestText}

def fail (s : Connection) (message : String) : Connection :=
  { s with replies := s.replies ++ [.badRequest message], isOpen := false }

/-- A turn of the loop of `handle_connection`, with the bytes that `recv` gives. -/
def turn (s : Connection) (part : Bytes) : Connection :=
  if part = [] then { s with isOpen := false } else
  let s := { s with buf := s.buf ++ part }
  let parsed := parseRequest s.buf
  if parsed.1 = -2 then
    if BUF_SIZE ≤ s.buf.length then s.fail "Request too large" else s
  else if parsed.1 < 0 then s.fail "Malformed HTTP request"
  else
    { buf := s.buf.drop parsed.1.toNat
      replies := s.replies ++ (parsed.2.map Reply.handled).toList
      isOpen := parsed.2.all fun req => !req.closes }

theorem turn_whole (fits : t.bytes.length ≤ BUF_SIZE) (some : part ≠ [])
    (here : s.buf ++ part = t.bytes ++ q) :
    s.turn part = ⟨q, s.replies ++ [.handled t.request], !t.request.closes⟩ := by
  have small : t.bytes.length < 2 ^ 31 := fits.trans_lt (by decide)
  unfold turn
  simp only [if_neg some, here, t.parseRequest_append q, toInt_of_lt small]
  rw [if_neg (by omega), if_neg (by omega), Int.toNat_natCast, drop_left]
  rfl

theorem turn_strict (fits : t.bytes.length ≤ BUF_SIZE) (some : part ≠ [])
    (inside : s.buf ++ part <+: t.bytes) (strict : s.buf ++ part ≠ t.bytes) :
    (s.buf ++ part).length < BUF_SIZE ∧ s.turn part = { s with buf := s.buf ++ part } := by
  have less := inside.length_le.lt_of_ne fun equal => strict (inside.eq_of_length equal)
  refine ⟨less.trans_le fits, ?_⟩
  unfold turn
  simp only [if_neg some, RequestText.incomplete_of_prefix inside strict]
  exact if_neg (not_le.mpr (less.trans_le fits))

/-- What a connection is after it has received bytes, in parts of any sizes that its buffer has
room for. -/
inductive Receives : Bytes → Connection → Prop
  | start : Receives [] {}
  | turn {all : Bytes} {s : Connection} {part : Bytes} (before : Receives all s)
      (isOpen : s.isOpen = true) (some : part ≠ [])
      (room : s.buf.length + part.length ≤ BUF_SIZE) : Receives (all ++ part) (s.turn part)

/-- The first requests are answered, up to the first that ends the connection. The buffer holds what
has come behind them, and has room for more. -/
def InOrder (requests : List RequestText) (all : Bytes) (s : Connection) : Prop :=
  ∃ answered, answered <+: requests ∧ s.replies = answered.map (fun t => .handled t.request) ∧
    all = answered.flatMap RequestText.bytes ++ s.buf ∧
    (s.isOpen = answered.all fun t => !t.request.closes) ∧ s.buf.length < BUF_SIZE

/-- `G / HTTP/1.1` and an empty line. -/
def sampleText : RequestText where
  leading := none
  line := ⟨[0x47], 0, [0x2F], 0, 0x31, .lf, by decide, forall_mem_singleton.mpr rfl,
    by decide, forall_mem_singleton.mpr rfl, by decide⟩
  headers := []
  last := .lf
  room := by decide

/-- The parts of a request are answered with the last of them. -/
theorem turns {replies : List Reply} {cuts : List Bytes} {buf : Bytes}
    (fits : t.bytes.length ≤ BUF_SIZE) (some : ∀ c ∈ cuts, c ≠ []) (more : cuts ≠ [])
    (here : buf ++ cuts.flatten = t.bytes) :
    cuts.foldl turn ⟨buf, replies, true⟩ =
      ⟨[], replies ++ [.handled t.request], !t.request.closes⟩ := by
  induction cuts generalizing buf with
  | nil => exact absurd rfl more
  | cons part cuts ih =>
    obtain ⟨some_, some⟩ := forall_mem_cons.mp some
    rw [flatten_cons, ← append_assoc] at here
    rw [foldl_cons]
    cases cuts with
    | nil =>
      rw [flatten_nil, append_nil] at here
      exact turn_whole fits some_ (here.trans (append_nil _).symm)
    | cons next cuts =>
      have strict : buf ++ part ≠ t.bytes := fun same => by
        have none := append_right_eq_self.mp (here.trans same.symm)
        exact some next mem_cons_self (flatten_eq_nil_iff.mp none next mem_cons_self)
      rw [(turn_strict fits some_ ⟨_, here⟩ strict).2]
      exact ih some (cons_ne_nil _ _) here

/-- A client that sends a request when the last is answered gets each of them answered, whatever
the parts in which they come. -/
theorem answers_each {parts : List (List Bytes)} {replies : List Reply}
    (fits : ∀ t ∈ requests, t.bytes.length ≤ BUF_SIZE)
    (kept : ∀ t ∈ requests, t.request.closes = false)
    (cut : Forall₂ (fun t cuts => (∀ c ∈ cuts, c ≠ []) ∧ cuts.flatten = t.bytes) requests parts) :
    parts.flatten.foldl turn ⟨[], replies, true⟩ =
      ⟨[], replies ++ requests.map fun t => .handled t.request, true⟩ := by
  induction cut generalizing replies with
  | nil => simp
  | @cons t cuts requests parts first rest ih =>
    obtain ⟨fit, fits⟩ := forall_mem_cons.mp fits
    obtain ⟨keep, kept⟩ := forall_mem_cons.mp kept
    have more : cuts ≠ [] := fun none => by
      have long := t.four_le_length
      rw [← first.2, none] at long
      exact absurd long (by decide)
    rw [flatten_cons, foldl_append, turns fit first.1 more first.2, keep]
    exact (ih fits kept).trans (by simp)

theorem answers_each_sample :
    [[sampleText.bytes.take 5, sampleText.bytes.drop 5]].flatten.foldl turn ⟨[], [], true⟩ =
      ⟨[], [] ++ [sampleText].map fun t => .handled t.request, true⟩ :=
  answers_each (by decide) (by decide) (.cons ⟨by decide, by decide⟩ .nil)

end Connection

end DFTracer.Server
