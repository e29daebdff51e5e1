/-
# The counting semaphore

A coroutine asks for a number of permits and waits in a queue until they are there. A release
gives permits back and grants those at the front of the queue that now fit. A request above the
capacity is cut to the capacity, a release is not.
-/

import DFTracer.Math.Runs
import Mathlib

namespace DFTracer.Coro

open Math List

/-- A queued acquire. The handle names it. -/
structure Waiter where
  need : UInt64
  handle : Nat
  deriving DecidableEq, Repr

structure CoroSemaphore where
  capacity : UInt64
  available : UInt64
  waiters : List Waiter
  deriving DecidableEq, Repr

namespace CoroSemaphore

def new (capacity : UInt64) : CoroSemaphore := { capacity, available := capacity, waiters := [] }

/-- What an acquire of `n` permits takes. -/
def need (sem : CoroSemaphore) (n : UInt64) : UInt64 := if n > sem.capacity then sem.capacity else n

/-- Whether the acquire suspends, and the semaphore after it. -/
def awaitSuspend (sem : CoroSemaphore) (w : Waiter) : Bool × CoroSemaphore :=
  if sem.waiters = [] ∧ sem.available ≥ w.need then
    (false, { sem with available := sem.available - w.need })
  else (true, { sem with waiters := sem.waiters ++ [w] })

/-- What a release takes out of the queue: up to eight waiters locally, the others behind. -/
structure Woken where
  available : UInt64
  waiters : List Waiter
  wakeLocal : List Waiter
  wakeOverflow : List Waiter
  deriving DecidableEq, Repr

/-- Grant from the front of the queue as long as the permits suffice. -/
def wake (available : UInt64) : List Waiter → List Waiter → List Waiter → Woken
  | [], wakeLocal, wakeOverflow => { available, waiters := [], wakeLocal, wakeOverflow }
  | w :: waiters, wakeLocal, wakeOverflow =>
    if available ≥ w.need then
      if wakeLocal.length < 8 then
        wake (available - w.need) waiters (wakeLocal ++ [w]) wakeOverflow
      else wake (available - w.need) waiters wakeLocal (wakeOverflow ++ [w])
    else { available, waiters := w :: waiters, wakeLocal, wakeOverflow }

/-- Return `n` permits. The waiters to be resumed come in the order of their resumption. -/
def release (sem : CoroSemaphore) (n : UInt64) : List Waiter × CoroSemaphore :=
  let woken := wake (sem.available + n) sem.waiters [] []
  (woken.wakeLocal ++ woken.wakeOverflow,
    { sem with available := woken.available, waiters := woken.waiters })

end CoroSemaphore

/-- The semaphore with what the coroutines did so far. The critical sections of acquire and
release are one step each, and every resumption by a releaser is another. -/
structure Sharing where
  sem : CoroSemaphore
  /-- The permits that each acquire asked for, by its handle. -/
  asked : List UInt64
  /-- The acquires that were granted and not released yet. -/
  held : List Nat
  /-- The acquires that were queued, in this order. -/
  queued : List Nat
  /-- All that were granted. -/
  granted : List Nat
  /-- Those of them that were granted from the queue. -/
  woken : List Nat
  /-- What each releaser has still to resume. -/
  resuming : List (List Nat)
  /-- What was resumed. -/
  resumed : List Nat
  deriving DecidableEq, Repr

/-- What a coroutine does next. -/
inductive PermitStep where
  | acquire (n : UInt64)
  | release (handle : Nat) (n : UInt64)
  | resume (releaser : Nat)
  deriving DecidableEq, Repr

namespace Sharing

def start (capacity : UInt64) : Sharing where
  sem := .new capacity
  asked := []
  held := []
  queued := []
  granted := []
  woken := []
  resuming := []
  resumed := []

/-- A new acquire. -/
def acquire (s : Sharing) (n : UInt64) : Sharing :=
  let handle := s.asked.length
  let (suspended, sem) := s.sem.awaitSuspend { need := s.sem.need n, handle }
  if suspended then
    { s with sem, asked := s.asked ++ [n], queued := s.queued ++ [handle] }
  else
    { s with
      sem, asked := s.asked ++ [n]
      held := s.held ++ [handle], granted := s.granted ++ [handle] }

/-- A holder that is running gives back what it asked for. -/
def release (s : Sharing) (handle : Nat) (n : UInt64) : Option Sharing :=
  if handle ∈ s.held ∧ handle ∉ s.resuming.flatten ∧ s.asked[handle]? = some n then
    let (woken, sem) := s.sem.release n
    let handles := woken.map Waiter.handle
    some
      { s with
        sem
        held := s.held.erase handle ++ handles
        granted := s.granted ++ handles
        woken := s.woken ++ handles
        resuming := s.resuming ++ [handles] }
  else none

/-- A releaser resumes the next one that it has woken. -/
def resume (s : Sharing) (releaser : Nat) : Option Sharing :=
  (s.resuming[releaser]?).bind fun handles =>
    handles.head?.map fun handle =>
      { s with
        resuming := s.resuming.set releaser handles.tail
        resumed := s.resumed ++ [handle] }

def step (s : Sharing) : PermitStep → Option Sharing
  | .acquire n => some (s.acquire n)
  | .release handle n => s.release handle n
  | .resume releaser => s.resume releaser

/-- The permits that a granted acquire took. -/
def needOf (s : Sharing) (handle : Nat) : UInt64 := s.sem.need (s.asked.getD handle 0)

/-- The permits held. -/
def heldPermits (s : Sharing) : Nat := (s.held.map fun handle => (s.needOf handle).toNat).sum

/-- The free permits and those held are all there are. -/
def Conserves (s : Sharing) : Prop :=
  s.sem.available.toNat + s.heldPermits = s.sem.capacity.toNat

/-- The queue is served in its order, nobody at its front waits for permits that are there, and
nobody is granted or resumed twice. -/
structure Orderly (s : Sharing) : Prop where
  order : s.queued = s.woken ++ s.sem.waiters.map Waiter.handle
  waits : ∀ w ∈ s.sem.waiters.head?, s.sem.available < w.need
  once : s.granted.Nodup
  resumes : s.resumed.Nodup ∧ s.resumed ⊆ s.woken

/-- What the semaphore promises in a state. -/
def Keeps (s : Sharing) : Prop := s.Conserves ∧ s.Orderly

end Sharing

/-! ## The permits of a semaphore

The queue is served in order whatever is asked for. The free permits and those held are all there
are exactly as long as nobody gives back more than the capacity. -/

namespace CoroSemaphore

/-- The permits that waiters take. -/
def needs (waiters : List Waiter) : Nat := (waiters.map fun w => w.need.toNat).sum

/-- What granting does: waiters leave the front of the queue with their permits until the first
of those left does not fit. -/
structure Grants (available : UInt64) (waiters woken : List Waiter) (r : Woken) : Prop where
  queue : waiters = woken ++ r.waiters
  permits : available.toNat = r.available.toNat + needs woken
  waits : ∀ w ∈ r.waiters.head?, r.available < w.need

theorem wake_grants (available : UInt64) (waiters wakeLocal wakeOverflow : List Waiter)
    (behind : wakeLocal.length < 8 → wakeOverflow = []) :
    ∃ woken, Grants available waiters woken (wake available waiters wakeLocal wakeOverflow) ∧
      (wake available waiters wakeLocal wakeOverflow).wakeLocal ++
          (wake available waiters wakeLocal wakeOverflow).wakeOverflow =
        wakeLocal ++ wakeOverflow ++ woken := by
  induction waiters generalizing available wakeLocal wakeOverflow with
  | nil =>
    refine ⟨[], ⟨rfl, (Nat.add_zero _).symm, ?_⟩, (append_nil _).symm⟩
    intro w first
    cases first
  | cons w waiters ih =>
    rw [wake]
    by_cases fits : available ≥ w.need
    · have taken : available.toNat = (available - w.need).toNat + w.need.toNat := by
        have := UInt64.le_iff_toNat_le.mp fits
        rw [UInt64.toNat_sub_of_le _ _ fits]
        omega
      -- the waiter is granted, and the others are what the induction is about
      have step {r : Woken} {woken : List Waiter}
          (grants : Grants (available - w.need) waiters woken r) :
          Grants available (w :: waiters) (w :: woken) r := {
        queue := by rw [grants.queue, cons_append]
        permits := by
          have := grants.permits
          rw [needs, map_cons, sum_cons, taken, this, needs]
          omega
        waits := grants.waits }
      rw [if_pos fits]
      by_cases short : wakeLocal.length < 8
      · rw [if_pos short]
        obtain ⟨woken, grants, same⟩ := ih (available - w.need) (wakeLocal ++ [w]) wakeOverflow
          fun _ => behind short
        refine ⟨w :: woken, step grants, ?_⟩
        rw [same, behind short, append_nil, append_nil, append_assoc]
        rfl
      · rw [if_neg short]
        obtain ⟨woken, grants, same⟩ := ih (available - w.need) wakeLocal (wakeOverflow ++ [w])
          fun h => absurd h short
        refine ⟨w :: woken, step grants, ?_⟩
        rw [same, ← append_assoc, append_assoc _ [w]]
        rfl
    · rw [if_neg fits]
      refine ⟨[], ⟨rfl, (Nat.add_zero _).symm, ?_⟩, (append_nil _).symm⟩
      intro first head
      obtain rfl : w = first := Option.some.inj head
      exact UInt64.not_le.mp fits

theorem release_grants (sem : CoroSemaphore) (n : UInt64) :
    (sem.release n).2.capacity = sem.capacity ∧
      sem.waiters = (sem.release n).1 ++ (sem.release n).2.waiters ∧
      (sem.available + n).toNat =
        (sem.release n).2.available.toNat + needs (sem.release n).1 ∧
      ∀ w ∈ (sem.release n).2.waiters.head?, (sem.release n).2.available < w.need := by
  obtain ⟨woken, grants, same⟩ := wake_grants (sem.available + n) sem.waiters [] [] fun _ => rfl
  have handles : (sem.release n).1 = woken := same
  rw [handles]
  exact ⟨rfl, grants.queue, grants.permits, grants.waits⟩

end CoroSemaphore

/-! ### What every step keeps -/

namespace Sharing

open CoroSemaphore

/-- The handles and needs of acquires fit together, and the queue is served in order. -/
structure Served (s : Sharing) : Prop where
  order : s.queued = s.woken ++ s.sem.waiters.map Waiter.handle
  waits : ∀ w ∈ s.sem.waiters.head?, s.sem.available < w.need
  handles : (s.granted ++ s.sem.waiters.map Waiter.handle).Nodup
  known : ∀ handle ∈ s.granted ++ s.sem.waiters.map Waiter.handle, handle < s.asked.length
  needs : ∀ w ∈ s.sem.waiters, w.need = s.needOf w.handle
  held : s.held ⊆ s.granted
  woken : s.woken.Sublist s.granted
  resumes : (s.resumed ++ s.resuming.flatten).Perm s.woken

theorem Served.orderly {s : Sharing} (served : Served s) : Orderly s where
  order := served.order
  waits := served.waits
  once := List.Nodup.of_append_left served.handles
  resumes := by
    have once := (List.Nodup.of_append_left served.handles).sublist served.woken
    have resumed := served.resumes.nodup_iff.mpr once
    exact ⟨List.Nodup.of_append_left resumed,
      fun handle h => served.resumes.mem_iff.mp (mem_append_left _ h)⟩

theorem served_start (capacity : UInt64) : Served (start capacity) where
  order := rfl
  waits := by
    intro w first
    cases first
  handles := nodup_nil
  known := by
    intro handle h
    cases h
  needs := by
    intro w h
    cases h
  held := List.Subset.refl _
  woken := List.Sublist.refl _
  resumes := List.Perm.refl _

theorem conserves_start (capacity : UInt64) : Conserves (start capacity) := Nat.add_zero _

section Steps

variable {s s' : Sharing} {handle : Nat} {n : UInt64}

/-- A further acquire does not change what the earlier ones need. -/
theorem needOf_acquire (known : handle < s.asked.length) :
    s.sem.need ((s.asked ++ [n]).getD handle 0) = s.needOf handle := by
  rw [needOf, getD_append _ _ _ _ known]

theorem acquire_free (free : s.sem.waiters = [] ∧ s.sem.available ≥ s.sem.need n) :
    s.acquire n =
      { s with
        sem := { s.sem with available := s.sem.available - s.sem.need n }
        asked := s.asked ++ [n]
        held := s.held ++ [s.asked.length], granted := s.granted ++ [s.asked.length] } := by
  unfold Sharing.acquire awaitSuspend
  simp only [if_pos free, Bool.false_eq_true, if_false]

theorem acquire_queued (busy : ¬(s.sem.waiters = [] ∧ s.sem.available ≥ s.sem.need n)) :
    s.acquire n =
      { s with
        sem := { s.sem with
          waiters := s.sem.waiters ++ [{ need := s.sem.need n, handle := s.asked.length }] }
        asked := s.asked ++ [n], queued := s.queued ++ [s.asked.length] } := by
  unfold Sharing.acquire awaitSuspend
  simp only [if_neg busy, if_true]

/-- The handle of a new acquire is new. -/
theorem Served.fresh (served : Served s) :
    s.asked.length ∉ s.granted ++ s.sem.waiters.map Waiter.handle :=
  fun h => Nat.lt_irrefl _ (served.known _ h)

theorem Served.acquire (served : Served s) (n : UInt64) : Served (s.acquire n) := by
  have fresh := served.fresh
  have known : ∀ handle ∈ s.granted ++ s.sem.waiters.map Waiter.handle,
      handle < (s.asked ++ [n]).length := by
    intro handle h
    have := served.known handle h
    rw [length_append]
    omega
  by_cases free : s.sem.waiters = [] ∧ s.sem.available ≥ s.sem.need n
  · rw [acquire_free free]
    have none := free.1
    exact {
      order := served.order
      waits := by
        intro w first
        rw [none] at first
        cases first
      handles := by
        have handles := served.handles
        rw [none, map_nil, append_nil] at fresh handles ⊢
        exact List.Nodup.append handles (nodup_singleton _)
          (disjoint_singleton.mpr fresh)
      known := by
        intro handle h
        rw [none, map_nil, append_nil] at h known
        rcases mem_append.mp h with h | h
        · exact known handle h
        · rw [mem_singleton.mp h, length_append]
          exact Nat.lt_succ_self _
      needs := by
        intro w h
        rw [none] at h
        cases h
      held := append_subset.mpr
        ⟨subset_append_of_subset_left _ served.held, subset_append_right _ _⟩
      woken := served.woken.trans (sublist_append_left _ _)
      resumes := served.resumes }
  · rw [acquire_queued free]
    exact {
      order := by
        rw [served.order, map_append, append_assoc]
        rfl
      waits := by
        intro w first
        cases hw : s.sem.waiters with
        | nil =>
          rw [hw] at first
          obtain rfl := Option.some.inj first
          exact UInt64.not_le.mp fun fits => free ⟨hw, fits⟩
        | cons front rest =>
          rw [hw] at first
          exact served.waits w (by rw [hw]; exact first)
      handles := by
        rw [map_append, ← append_assoc]
        exact List.Nodup.append served.handles (nodup_singleton _)
          (disjoint_singleton.mpr fresh)
      known := by
        intro handle h
        rw [map_append, ← append_assoc] at h
        rcases mem_append.mp h with h | h
        · exact known handle h
        · rw [mem_singleton.mp h, length_append]
          exact Nat.lt_succ_self _
      needs := by
        intro w h
        rcases mem_append.mp h with h | h
        · have earlier := served.known w.handle
            (mem_append_right _ (mem_map_of_mem h))
          exact (served.needs w h).trans (needOf_acquire earlier).symm
        · obtain rfl := mem_singleton.mp h
          unfold needOf
          rw [getD_append_right _ _ _ _ (Nat.le_refl _), Nat.sub_self]
          rfl
      held := served.held
      woken := served.woken
      resumes := served.resumes }

/-- What a release does, and when it is possible. -/
theorem release_eq_some (h : s.release handle n = some s') :
    (handle ∈ s.held ∧ handle ∉ s.resuming.flatten ∧ s.asked[handle]? = some n) ∧
      s' = { s with
        sem := (s.sem.release n).2
        held := s.held.erase handle ++ (s.sem.release n).1.map Waiter.handle
        granted := s.granted ++ (s.sem.release n).1.map Waiter.handle
        woken := s.woken ++ (s.sem.release n).1.map Waiter.handle
        resuming := s.resuming ++ [(s.sem.release n).1.map Waiter.handle] } := by
  unfold Sharing.release at h
  by_cases may : handle ∈ s.held ∧ handle ∉ s.resuming.flatten ∧ s.asked[handle]? = some n
  · rw [if_pos may] at h
    exact ⟨may, (Option.some.inj h).symm⟩
  · rw [if_neg may] at h
    cases h

theorem Served.release (served : Served s) (h : s.release handle n = some s') : Served s' := by
  obtain ⟨-, rfl⟩ := release_eq_some h
  obtain ⟨capacity, queue, permits, waits⟩ := release_grants s.sem n
  have handles : s.sem.waiters.map Waiter.handle = (s.sem.release n).1.map Waiter.handle ++
      (s.sem.release n).2.waiters.map Waiter.handle := by rw [queue, map_append]
  have all : s.granted ++ s.sem.waiters.map Waiter.handle =
      s.granted ++ (s.sem.release n).1.map Waiter.handle ++
        (s.sem.release n).2.waiters.map Waiter.handle := by rw [handles, append_assoc]
  exact {
    order := by
      rw [served.order, handles, append_assoc]
    waits
    handles := by
      have h := served.handles
      rwa [all] at h
    known := by
      have h := served.known
      rwa [all] at h
    needs := by
      intro w hw
      rw [served.needs w (by rw [queue]; exact mem_append_right _ hw)]
      unfold needOf need
      rw [capacity]
    held := by
      apply append_subset.mpr
      constructor
      · exact fun x hx => mem_append_left _ (served.held (mem_of_mem_erase hx))
      · exact subset_append_right _ _
    woken := served.woken.append (List.Sublist.refl _)
    resumes := by
      rw [flatten_append, ← append_assoc, flatten_singleton]
      exact served.resumes.append_right _ }

/-- What a releaser resumes moves from its list to the log. -/
theorem resumed_perm {resuming : List (List Nat)} {i : Nat} {front : Nat} {rest : List Nat}
    (h : resuming[i]? = some (front :: rest)) (resumed : List Nat) :
    (resumed ++ [front] ++ (resuming.set i rest).flatten).Perm (resumed ++ resuming.flatten) := by
  rw [append_assoc]
  apply List.Perm.append_left
  induction resuming generalizing i with
  | nil => cases h
  | cons first others ih =>
    cases i with
    | zero =>
      obtain rfl := Option.some.inj h
      exact List.Perm.refl _
    | succ i =>
      have moved := (ih h).append_left first
      exact (perm_append_comm_assoc [front] first _).trans moved

theorem Served.resume (served : Served s) {releaser : Nat} (h : s.resume releaser = some s') :
    Served s' := by
  obtain ⟨handles, there, h⟩ := Option.bind_eq_some_iff.mp h
  obtain ⟨front, first, h⟩ := Option.map_eq_some_iff.mp h
  obtain rfl := h
  obtain ⟨rest, rfl⟩ : ∃ rest, handles = front :: rest := by
    cases handles with
    | nil => cases first
    | cons a rest => exact ⟨rest, by rw [Option.some.inj first]⟩
  exact { served with resumes := (resumed_perm there s.resumed).trans served.resumes }

theorem Served.step (served : Served s) {a : PermitStep} (h : s.step a = some s') : Served s' := by
  cases a with
  | acquire n =>
    obtain rfl := Option.some.inj h
    exact served.acquire n
  | release handle n => exact served.release h
  | resume releaser => exact served.resume h

/-- An acquire takes what it is granted out of the free permits. -/
theorem Conserves.acquire (conserves : Conserves s) (served : Served s) (n : UInt64) :
    Conserves (s.acquire n) := by
  have held : ∀ handle ∈ s.held,
      s.sem.need ((s.asked ++ [n]).getD handle 0) = s.needOf handle := fun handle h =>
    needOf_acquire (served.known handle (mem_append_left _ (served.held h)))
  have kept : (s.held.map fun handle =>
      (s.sem.need ((s.asked ++ [n]).getD handle 0)).toNat) =
        s.held.map fun handle => (s.needOf handle).toNat := by
    apply map_congr_left
    intro handle h
    rw [held handle h]
  by_cases free : s.sem.waiters = [] ∧ s.sem.available ≥ s.sem.need n
  · rw [acquire_free free]
    have taken := UInt64.le_iff_toNat_le.mp free.2
    have own : s.sem.need ((s.asked ++ [n]).getD s.asked.length 0) = s.sem.need n := by
      rw [getD_append_right _ _ _ _ (Nat.le_refl _), Nat.sub_self]
      rfl
    have sum := conserves
    unfold Conserves heldPermits needOf at sum ⊢
    dsimp only
    rw [map_append, sum_append, UInt64.toNat_sub_of_le _ _ free.2]
    change _ + ((s.held.map fun handle =>
      (s.sem.need ((s.asked ++ [n]).getD handle 0)).toNat).sum +
        [(s.sem.need ((s.asked ++ [n]).getD s.asked.length 0)).toNat].sum) = _
    rw [kept, own, sum_singleton]
    unfold needOf
    omega
  · rw [acquire_queued free]
    have sum := conserves
    change _ + (s.held.map fun handle =>
      (s.sem.need ((s.asked ++ [n]).getD handle 0)).toNat).sum = _
    rw [kept]
    exact sum

theorem toNat_need (sem : CoroSemaphore) (n : UInt64) :
    (sem.need n).toNat = min n.toNat sem.capacity.toNat := by
  unfold need
  split
  · next above =>
      have := UInt64.lt_iff_toNat_lt.mp above
      omega
  · next fits =>
      have := UInt64.le_iff_toNat_le.mp (UInt64.not_lt.mp fits)
      omega

/-- A release keeps the permits together exactly when it gives back no more than the capacity. -/
theorem Conserves.release_iff (conserves : Conserves s) (served : Served s)
    (h : s.release handle n = some s') : Conserves s' ↔ n ≤ s.sem.capacity := by
  obtain ⟨⟨holds, -, asked⟩, rfl⟩ := release_eq_some h
  obtain ⟨capacity, queue, permits, -⟩ := release_grants s.sem n
  have own : (s.needOf handle).toNat = min n.toNat s.sem.capacity.toNat := by
    rw [needOf, getD_eq_getElem?_getD, asked, Option.getD_some, toNat_need]
  have split : s.heldPermits = min n.toNat s.sem.capacity.toNat +
      ((s.held.erase handle).map fun handle => (s.needOf handle).toNat).sum := by
    unfold heldPermits
    rw [((perm_cons_erase holds).map _).sum_eq, map_cons, sum_cons, own]
  have woken : (((s.sem.release n).1.map Waiter.handle).map fun handle =>
      (s.needOf handle).toNat).sum = needs (s.sem.release n).1 := by
    rw [map_map]
    congr 1
    apply map_congr_left
    intro w hw
    rw [served.needs w (by rw [queue]; exact mem_append_left _ hw)]
    rfl
  have whole := conserves
  unfold Conserves at whole
  have bound := s.sem.capacity.toNat_lt
  have few := n.toNat_lt
  have added : (s.sem.available + n).toNat = s.sem.available.toNat + n.toNat := by
    rw [UInt64.toNat_add]
    omega
  have same : ((s.held.erase handle ++ (s.sem.release n).1.map Waiter.handle).map fun handle =>
      ((s.sem.release n).2.need (s.asked.getD handle 0)).toNat).sum =
        ((s.held.erase handle).map fun handle => (s.needOf handle).toNat).sum +
          needs (s.sem.release n).1 := by
    rw [← woken, ← sum_append, ← map_append]
    unfold needOf need
    rw [capacity]
  unfold Conserves heldPermits needOf
  dsimp only
  rw [capacity, UInt64.le_iff_toNat_le]
  omega

end Steps

/-- The states of a run, with the permits together as long as no release was too large. -/
structure Ran (capacity : UInt64) (actions : List PermitStep) (s : Sharing) : Prop where
  served : Served s
  same : s.sem.capacity = capacity
  conserves : (∀ handle n, .release handle n ∈ actions → n ≤ capacity) → Conserves s

theorem capacity_step {s s' : Sharing} {a : PermitStep} (h : s.step a = some s') :
    s'.sem.capacity = s.sem.capacity := by
  cases a with
  | acquire n =>
    obtain rfl := Option.some.inj h
    by_cases free : s.sem.waiters = [] ∧ s.sem.available ≥ s.sem.need n
    · rw [acquire_free free]
    · rw [acquire_queued free]
  | release handle n =>
    obtain ⟨-, rfl⟩ := release_eq_some h
    exact (release_grants s.sem n).1
  | resume releaser =>
    obtain ⟨handles, -, h⟩ := Option.bind_eq_some_iff.mp h
    obtain ⟨front, -, rfl⟩ := Option.map_eq_some_iff.mp h
    rfl

theorem Ran.step {capacity : UInt64} {actions : List PermitStep} {s s' : Sharing} {a : PermitStep}
    (ran : Ran capacity actions s) (h : s.step a = some s') :
    Ran capacity (actions ++ [a]) s' where
  served := ran.served.step h
  same := (capacity_step h).trans ran.same
  conserves := by
    intro small
    have before := ran.conserves fun handle n hn => small handle n (mem_append_left _ hn)
    cases a with
    | acquire n =>
      obtain rfl := Option.some.inj h
      exact before.acquire ran.served n
    | release handle n =>
      apply (before.release_iff ran.served h).mpr
      rw [ran.same]
      exact small handle n (mem_append_right _ mem_cons_self)
    | resume releaser =>
      obtain ⟨handles, -, h⟩ := Option.bind_eq_some_iff.mp h
      obtain ⟨front, -, rfl⟩ := Option.map_eq_some_iff.mp h
      exact before

theorem ran_of_run {capacity : UInt64} {actions : List PermitStep} {s : Sharing}
    (run : runActions step (start capacity) actions = some s) : Ran capacity actions s := by
  apply runActions_invariant (motive := Ran capacity) _ _ run
  · exact ⟨served_start capacity, rfl, fun _ => conserves_start capacity⟩
  · exact fun actions s a s' before h => before.step h

/-- In every state of a run the permits are conserved, and the queue is served in order without
anybody waiting needlessly or being granted twice, exactly when no holder gives back more than
the capacity. -/
theorem keeps_iff_within_capacity (capacity : UInt64) (actions : List PermitStep) (s : Sharing)
    (run : runActions step (start capacity) actions = some s) :
    (∀ earlier r, earlier <+: actions → runActions step (start capacity) earlier = some r →
      Keeps r) ↔
    ∀ handle n, .release handle n ∈ actions → n ≤ capacity := by
  constructor
  · intro keeps handle n released
    obtain ⟨before, after, rfl⟩ := append_of_mem released
    have upTo : before ++ [.release handle n] <+: before ++ .release handle n :: after :=
      ⟨after, by rw [append_assoc]; rfl⟩
    obtain ⟨r', run'⟩ := runActions_prefix upTo run
    obtain ⟨r, runBefore, h⟩ := runActions_concat_eq_some.mp run'
    have conserves := (keeps before r (List.prefix_append _ _) runBefore).1
    have conserves' := (keeps _ r' upTo run').1
    rw [← (ran_of_run runBefore).same]
    exact (conserves.release_iff (ran_of_run runBefore).served h).mp conserves'
  · intro small earlier r before run'
    have ran := ran_of_run run'
    exact ⟨ran.conserves fun handle n h => small handle n (before.subset h), ran.served.orderly⟩

/-- Two holders of sixty permits each share a capacity of a hundred. -/
theorem keeps_two_holders :
    Keeps { sem := { capacity := 100, available := 40, waiters := [] }, asked := [60, 60]
            held := [1], queued := [1], granted := [0, 1], woken := [1], resuming := [[]]
            resumed := [1] } := by
  have run : runActions step (start 100) [.acquire 60, .acquire 60, .release 0 60, .resume 0] =
      some { sem := { capacity := 100, available := 40, waiters := [] }, asked := [60, 60]
             held := [1], queued := [1], granted := [0, 1], woken := [1], resuming := [[]]
             resumed := [1] } := by
    decide
  refine (keeps_iff_within_capacity 100 _ _ run).mpr ?_ _ _ prefix_rfl run
  intro handle n h
  simp only [mem_cons, PermitStep.release.injEq, not_mem_nil, reduceCtorEq, or_false,
    false_or] at h
  rw [h.2]
  decide

/-- An acquire above the capacity gives back more permits than it took. -/
theorem over_capacity_breaks :
    ¬∀ actions s, runActions step (start 50) actions = some s → Keeps s := by
  intro keeps
  have conserves := (keeps [.acquire 200, .release 0 200]
    { sem := { capacity := 50, available := 200, waiters := [] }, asked := [200], held := []
      queued := [], granted := [0], woken := [], resuming := [[]], resumed := [] }
    (by decide)).1
  unfold Conserves at conserves
  revert conserves
  decide

end Sharing

end DFTracer.Coro
