/-
# Contributions to a statistic

A statistic is built from contributions: single values, and summaries that arrive
aggregated and may lack an extreme. An extreme that is reached is one of the values
that the contributions start with, and no contribution carries one beyond it.
-/

import DFTracer.Aggregation.Core

namespace DFTracer.Aggregation

open List

open Math.Float64 (wholeNat wholeNat_min wholeNat_max wholeNat_add toFloat_eq_wholeNat)

/-- What an event adds to a statistic: one exact value, or a summary with the extremes
that the event carries. -/
inductive Contribution
  | value (v : UInt64)
  | summary (n sum : UInt64) (low high : Option UInt64)

/-- The two extremes of a statistic. -/
inductive Side
  | low
  | high

namespace Contribution

def n : Contribution → UInt64
  | value _ => 1
  | summary n _ _ _ => n

def total : Contribution → UInt64
  | value v => v
  | summary _ sum _ _ => sum

def isExact : Contribution → Bool
  | value _ => true
  | summary _ _ _ _ => false

/-- The extreme that a contribution carries. -/
def given : Side → Contribution → Option UInt64
  | _, value v => some v
  | .low, summary _ _ low _ => low
  | .high, summary _ _ _ high => high

/-- The extreme that a contribution starts a statistic with. -/
def own (side : Side) (c : Contribution) : Nat := ((c.given side).getD c.total).toNat

/-- The statistic that a contribution merges into another one. -/
def summaryStat (s : FieldStat) (n sum : UInt64) (low high : Option UInt64) : FieldStat where
  n := n
  sum := sum.toFloat
  min := low.elim (if s.n ≠ 0 then s.min else sum.toFloat) UInt64.toFloat
  max := high.elim (if s.n ≠ 0 then s.max else sum.toFloat) UInt64.toFloat

/-- Add a contribution to a statistic. -/
def addTo (s : FieldStat) : Contribution → FieldStat
  | value v => s.addU64 v
  | summary n sum low high => s.merge (summaryStat s n sum low high)

end Contribution

open Contribution

/-- The contributions that count. -/
def effective (cs : List Contribution) : List Contribution := cs.filter fun c => c.n ≠ 0

def countSum (cs : List Contribution) : Nat := (cs.map fun c => c.n.toNat).sum

def totalSum (cs : List Contribution) : Nat := (cs.map fun c => c.total.toNat).sum

@[simp] theorem countSum_append (cs ds : List Contribution) :
    countSum (cs ++ ds) = countSum cs + countSum ds := by
  simp [countSum]

@[simp] theorem totalSum_append (cs ds : List Contribution) :
    totalSum (cs ++ ds) = totalSum cs + totalSum ds := by
  simp [totalSum]

theorem countSum_singleton (c : Contribution) : countSum [c] = c.n.toNat := by simp [countSum]

theorem effective_append (cs ds : List Contribution) :
    effective (cs ++ ds) = effective cs ++ effective ds := filter_append ..

variable {cs ds : List Contribution}

theorem countSum_perm (h : cs.Perm ds) : countSum cs = countSum ds :=
  (h.map _).sum_eq

theorem totalSum_perm (h : cs.Perm ds) : totalSum cs = totalSum ds :=
  (h.map _).sum_eq

namespace Side

/-- The better of two values. -/
def pick : Side → Nat → Nat → Nat
  | low => min
  | high => max

/-- The extreme of a statistic. -/
def of : Side → FieldStat → Float
  | low => FieldStat.min
  | high => FieldStat.max

variable (side : Side)

theorem pick_self (a : Nat) : side.pick a a = a := by
  cases side
  · exact Nat.min_self a
  · exact Nat.max_self a

theorem pick_comm (a b : Nat) : side.pick a b = side.pick b a := by
  cases side
  · exact Nat.min_comm a b
  · exact Nat.max_comm a b

theorem pick_assoc (a b c : Nat) : side.pick (side.pick a b) c = side.pick a (side.pick b c) := by
  cases side
  · exact Nat.min_assoc a b c
  · exact Nat.max_assoc a b c

theorem pick_cases (a b : Nat) : side.pick a b = a ∨ side.pick a b = b := by
  cases side
  · exact min_choice a b
  · exact max_choice a b

theorem pick_right_comm (a b c : Nat) :
    side.pick (side.pick a b) c = side.pick (side.pick a c) b := by
  rw [pick_assoc, pick_comm side b c, pick_assoc]

/-- The extreme reached by starting with one contribution and going through the others. -/
def start (c : Contribution) (cs : List Contribution) : Nat :=
  cs.foldl (fun m d => (d.given side).elim m fun v => side.pick m v.toNat) (c.own side)

/-- An extreme that is one of the starting values, with no carried value beyond it. -/
def Reached (x : Float) (cs : List Contribution) : Prop :=
  ∃ m < 2 ^ 64, x = wholeNat m ∧ (∃ c ∈ cs, m = c.own side) ∧
    ∀ c ∈ cs, ∀ v ∈ c.given side, side.pick m v.toNat = m

theorem own_lt (c : Contribution) : c.own side < 2 ^ 64 := UInt64.toNat_lt _

/-- A contribution on its own. -/
theorem reached_own (c : Contribution) : side.Reached (wholeNat (c.own side)) [c] := by
  refine ⟨c.own side, side.own_lt c, rfl, ⟨c, mem_singleton_self c, rfl⟩, ?_⟩
  intro d hd v hv
  rw [mem_singleton.mp hd] at hv
  rw [own, Option.mem_def.mp hv]
  exact side.pick_self v.toNat

variable {side}

variable {cs : List Contribution} {x : Float} {ds : List Contribution}

/-- A contribution that carries no extreme may be added freely. -/
theorem Reached.weaken (h : side.Reached x cs)
    {c : Contribution} (hc : c.given side = none) : side.Reached x (cs ++ [c]) := by
  obtain ⟨m, hm, hx, ⟨d, hd, hown⟩, hbeyond⟩ := h
  refine ⟨m, hm, hx, ⟨d, mem_append_left _ hd, hown⟩, ?_⟩
  intro e he v hv
  rcases mem_append.mp he with hin | hlast
  · exact hbeyond e hin v hv
  · rw [mem_singleton.mp hlast, hc] at hv
    cases hv

/-- The better of two reached extremes is reached. -/
theorem Reached.append {y z : Float} (hx : side.Reached x cs) (hy : side.Reached y ds)
    (hz : ∀ a b, a < 2 ^ 64 → b < 2 ^ 64 → x = wholeNat a → y = wholeNat b →
      z = wholeNat (side.pick a b)) : side.Reached z (cs ++ ds) := by
  obtain ⟨m, hm, hxm, ⟨c, hc, hcm⟩, hcs⟩ := hx
  obtain ⟨k, hk, hyk, ⟨d, hd, hdk⟩, hds⟩ := hy
  have hpick := side.pick_cases m k
  refine ⟨side.pick m k, ?_, hz m k hm hk hxm hyk, ?_, ?_⟩
  · rcases hpick with h | h
    · rwa [h]
    · rwa [h]
  · rcases hpick with h | h
    · exact ⟨c, mem_append_left _ hc, h.trans hcm⟩
    · exact ⟨d, mem_append_right _ hd, h.trans hdk⟩
  · intro e he v hv
    rcases mem_append.mp he with hin | hin
    · rw [side.pick_right_comm, hcs e hin v hv]
    · rw [side.pick_assoc, hds e hin v hv]

/-- A reached extreme is the one that some contribution starts. -/
theorem Reached.eq_start (h : side.Reached x cs) : ∃ c ∈ cs, x = wholeNat (side.start c cs) := by
  obtain ⟨m, _, hx, ⟨c, hc, hown⟩, hbeyond⟩ := h
  refine ⟨c, hc, ?_⟩
  rw [hx, start, ← hown]
  clear hown hc
  congr 1
  induction cs with
  | nil => rfl
  | cons d ds ih =>
    rw [foldl_cons]
    cases hd : d.given side with
    | none => exact ih fun e he => hbeyond e (mem_cons_of_mem d he)
    | some v =>
      rw [Option.elim_some, hbeyond d mem_cons_self v hd]
      exact ih fun e he => hbeyond e (mem_cons_of_mem d he)

theorem Reached.perm (h : side.Reached x cs) (hperm : cs.Perm ds) : side.Reached x ds := by
  obtain ⟨m, hm, hx, ⟨c, hc, hown⟩, hbeyond⟩ := h
  exact ⟨m, hm, hx, ⟨c, hperm.mem_iff.mp hc, hown⟩, fun d hd => hbeyond d (hperm.mem_iff.mpr hd)⟩

end Side

namespace FieldStat

@[simp] theorem mergeExact_n (s o : FieldStat) : (s.mergeExact o).n = s.n := by
  unfold mergeExact
  split_ifs <;> rfl

@[simp] theorem mergeExact_sum (s o : FieldStat) : (s.mergeExact o).sum = s.sum := by
  unfold mergeExact
  split_ifs <;> rfl

@[simp] theorem mergeExact_of (side : Side) (s o : FieldStat) :
    side.of (s.mergeExact o) = side.of s := by
  unfold mergeExact
  split_ifs <;> cases side <;> rfl

variable {o : FieldStat} {side : Side} {a b : Nat}

theorem merge_absent (s : FieldStat) (ho : o.n = 0) : s.merge o = s := if_pos ho

theorem merge_into_absent {s : FieldStat} (hs : s.n = 0) (ho : o.n ≠ 0) : s.merge o = o := by
  rw [merge, if_neg ho, if_pos hs]

variable {s o : FieldStat} (hs : s.n ≠ 0) (ho : o.n ≠ 0)

include hs ho

theorem merge_n : (s.merge o).n = s.n + o.n := by
  rw [merge, if_neg ho, if_neg hs, mergeExact_n]

theorem merge_sum : (s.merge o).sum = s.sum + o.sum := by
  rw [merge, if_neg ho, if_neg hs, mergeExact_sum]

theorem merge_of (fitsA : a < 2 ^ 64) (fitsB : b < 2 ^ 64)
    (ha : side.of s = wholeNat a) (hb : side.of o = wholeNat b) :
    side.of (s.merge o) = wholeNat (side.pick a b) := by
  rw [merge, if_neg ho, if_neg hs, mergeExact_of]
  cases side with
  | low =>
    change s.min = wholeNat a at ha
    change o.min = wholeNat b at hb
    rw [ha, hb]
    exact wholeNat_min fitsA fitsB
  | high =>
    change s.max = wholeNat a at ha
    change o.max = wholeNat b at hb
    rw [ha, hb]
    exact wholeNat_max fitsA fitsB

/-- One side without exact values leaves the merged statistic without them. -/
theorem merge_inexact (h : s.domain ≠ o.domain ∨ s.domain = .F64) : (s.merge o).domain = .F64 := by
  rw [merge, if_neg ho, if_neg hs]
  exact congrArg FieldStat.domain (if_pos h)

theorem merge_exact (h : s.domain = .U64) (h' : o.domain = .U64) :
    (s.merge o).domain = .U64 ∧ (s.merge o).esum = s.esum + o.esum ∧
      (s.merge o).emin = (if o.emin < s.emin then o.emin else s.emin) ∧
      (s.merge o).emax = (if s.emax < o.emax then o.emax else s.emax) := by
  rw [merge, if_neg ho, if_neg hs, mergeExact]
  simp only [h, h', ne_eq, not_true_eq_false, reduceCtorEq, or_self, if_false, and_self]

omit hs ho

theorem addU64_n (v : UInt64) : (s.addU64 v).n = s.n + 1 := by
  unfold addU64
  split_ifs <;> rfl

theorem addU64_sum (v : UInt64) : (s.addU64 v).sum = s.sum + v.toFloat := by
  unfold addU64
  split_ifs <;> rfl

include hs

theorem addU64_of {v : UInt64} (fitsA : a < 2 ^ 64) (fitsB : b < 2 ^ 64)
    (ha : side.of s = wholeNat a) (hb : v.toFloat = wholeNat b) :
    side.of (s.addU64 v) = wholeNat (side.pick a b) := by
  have hdouble : side.of (s.addU64 v) = side.of (s.addDouble v.toFloat) := by
    unfold addU64
    split_ifs <;> cases side <;> rfl
  rw [hdouble]
  cases side with
  | low =>
    change s.min = wholeNat a at ha
    change (if s.n = 0 then _ else if v.toFloat < s.min then v.toFloat else s.min) = _
    rw [if_neg hs, ha, hb]
    exact wholeNat_min fitsA fitsB
  | high =>
    change s.max = wholeNat a at ha
    change (if s.n = 0 then _ else if s.max < v.toFloat then v.toFloat else s.max) = _
    rw [if_neg hs, ha, hb]
    exact wholeNat_max fitsA fitsB

/-- Among unsigned values the exact values are kept. -/
theorem addU64_exact (v : UInt64) (h : s.domain = .U64) :
    (s.addU64 v).domain = .U64 ∧ (s.addU64 v).esum = s.esum + v ∧
      (s.addU64 v).emin = (if v < s.emin then v else s.emin) ∧
      (s.addU64 v).emax = (if s.emax < v then v else s.emax) := by
  rw [addU64, if_neg hs, if_pos h]
  exact ⟨h, rfl, rfl, rfl⟩

theorem addU64_inexact (v : UInt64) (h : s.domain = .F64) : (s.addU64 v).domain = .F64 := by
  have hne : ¬s.domain = .U64 := by
    rw [h]
    decide
  rw [addU64, if_neg hs, if_neg hne]

end FieldStat

end DFTracer.Aggregation
